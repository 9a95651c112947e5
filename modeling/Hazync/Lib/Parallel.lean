import Mathlib.Data.List.Forall2

/-!
# Lists that go side by side

Two lists may have one element for each element of the other, as the list of the results of a
partial function has. What is said of the elements place by place is said of each place
(`forall₂_getElem?`), and of the pieces that one of the lists falls into
(`exists_of_forall₂_append`).

The standard library has `Forall₂` for this, with lemmas on cases and on maps. What is added here is
about `mapM` in `Option`, which a program uses where each of several lookups may fail: either one of
them does, and then there is no result, or the results stand side by side with what was looked up.
-/

namespace Parallel

variable {α β γ : Type*} {r : α → β → Prop}

/-- The results of a function that did not fail. -/
theorem forall₂_of_mapM {f : α → Option β} {l : List α} {l' : List β} (h : l.mapM f = some l') :
    List.Forall₂ (fun a b => f a = some b) l l' := by
  induction l generalizing l' with
  | nil =>
    obtain rfl := Option.some.inj h
    exact .nil
  | cons a l ih =>
    rw [List.mapM_cons] at h
    obtain ⟨b, hb, h⟩ := Option.bind_eq_some_iff.mp h
    obtain ⟨bs, hbs, heq⟩ := Option.bind_eq_some_iff.mp h
    obtain rfl := Option.some.inj heq
    exact .cons hb (ih hbs)

/-- As many results as elements. -/
theorem length_of_mapM {f : α → Option β} {l : List α} {l' : List β} (h : l.mapM f = some l') :
    l'.length = l.length :=
  (forall₂_of_mapM h).length_eq.symm

/-- What a result has of its element, the results have of theirs. -/
theorem map_eq_of_mapM {f : α → Option β} {g : α → γ} {g' : β → γ} {l : List α} {l' : List β}
    (h : l.mapM f = some l') (hf : ∀ a b, f a = some b → g a = g' b) : l.map g = l'.map g' := by
  have hpairs : List.Forall₂ (fun a b => g a = g' b) l l' := (forall₂_of_mapM h).imp hf
  rwa [← List.forall₂_map_left_iff (R := fun c b => c = g' b), ← List.forall₂_map_right_iff,
    List.forall₂_eq_eq_eq] at hpairs

theorem mapM_append_eq_some {f : α → Option β} {l m : List α} {l' : List β}
    (h : (l ++ m).mapM f = some l') :
    ∃ l₁ l₂, l.mapM f = some l₁ ∧ m.mapM f = some l₂ ∧ l' = l₁ ++ l₂ := by
  rw [List.mapM_append] at h
  obtain ⟨l₁, h₁, h⟩ := Option.bind_eq_some_iff.mp h
  obtain ⟨l₂, h₂, heq⟩ := Option.bind_eq_some_iff.mp h
  exact ⟨l₁, l₂, h₁, h₂, (Option.some.inj heq).symm⟩

/-- At each place there is a result, that of the element there. -/
theorem forall₂_getElem? {l : List α} {l' : List β} (h : List.Forall₂ r l l') {k : ℕ} {a : α}
    (hk : l[k]? = some a) : ∃ b, l'[k]? = some b ∧ r a b := by
  induction h generalizing k with
  | nil => cases hk
  | cons hab _ ih =>
    cases k with
    | zero =>
      obtain rfl := Option.some.inj hk
      exact ⟨_, rfl, hab⟩
    | succ k => exact ih hk

/-- A result is of one of the elements. -/
theorem exists_of_mem {l : List α} {l' : List β} (h : List.Forall₂ r l l') {a : α} (ha : a ∈ l) :
    ∃ b ∈ l', r a b := by
  obtain ⟨k, hk⟩ := List.mem_iff_getElem?.mp ha
  obtain ⟨b, hb, hab⟩ := forall₂_getElem? h hk
  exact ⟨b, List.mem_of_getElem? hb, hab⟩

/-- Every element has its result. -/
theorem exists_of_mem_mapM {f : α → Option β} {l : List α} {l' : List β} (h : l.mapM f = some l')
    {b : β} (hb : b ∈ l') : ∃ a ∈ l, f a = some b :=
  exists_of_mem (forall₂_of_mapM h).flip hb

/-- Where the results are known, so is the list of them. -/
theorem mapM_of_forall {f : α → Option β} {g : α → β} {l : List α}
    (h : ∀ a ∈ l, f a = some (g a)) : l.mapM f = some (l.map g) := by
  induction l with
  | nil => rfl
  | cons a l ih =>
    rw [List.forall_mem_cons] at h
    rw [List.mapM_cons, h.1, ih h.2]
    rfl

/-- Where none of them fails, there is a list of results. -/
theorem exists_mapM {f : α → Option β} {l : List α} (h : ∀ a ∈ l, ∃ b, f a = some b) :
    ∃ l', l.mapM f = some l' := by
  induction l with
  | nil => exact ⟨[], rfl⟩
  | cons a l ih =>
    obtain ⟨b, hb⟩ := h a List.mem_cons_self
    obtain ⟨l', hl'⟩ := ih fun x hx => h x (List.mem_cons_of_mem _ hx)
    refine ⟨b :: l', ?_⟩
    rw [List.mapM_cons, hb, hl']
    rfl

/-- A list in two pieces, and its results in two pieces. -/
theorem exists_of_forall₂_append {l₁ l₂ : List α} {l' : List β}
    (h : List.Forall₂ r (l₁ ++ l₂) l') : ∃ l₁' l₂', l' = l₁' ++ l₂' ∧
      List.Forall₂ r l₁ l₁' ∧ List.Forall₂ r l₂ l₂' := by
  induction l₁ generalizing l' with
  | nil => exact ⟨[], l', rfl, .nil, h⟩
  | cons a l₁ ih =>
    obtain ⟨b, l', hab, hrest, rfl⟩ := List.forall₂_cons_left_iff.mp h
    obtain ⟨l₁', l₂', rfl, h₁, h₂⟩ := ih hrest
    exact ⟨b :: l₁', l₂', rfl, .cons hab h₁, h₂⟩

end Parallel
