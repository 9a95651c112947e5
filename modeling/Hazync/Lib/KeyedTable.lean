import Mathlib.Data.List.Nodup

/-!
# Tables with a primary key

A table is the list of its rows, in the order they were put in. `replace` is `INSERT OR REPLACE`,
which takes out the row of the same key and puts the new one last; `ignore` is `INSERT OR IGNORE`,
and `update` is `UPDATE … WHERE` the key.

## Five statements

A store in SQL is a set of rows with unique keys, and what programs do with it comes down to a few
statements. They differ in what they do where the key is taken: the new row replaces the old one, or
is ignored, or changes fields of it. Each of them has a lemma on membership, one on what is then
found under a key, and one on that keys stay unique. With these a program over tables can be
reasoned about without unfolding a list operation.

The order of the rows matters to a `SELECT` without an order of its own, which gives them in the
order of insertion. A replaced row goes to the end, as it does in SQLite, where it is deleted and
put in anew; an updated one keeps its place.
-/

namespace Hazync
namespace KeyedTable

variable {ρ κ : Type*} [DecidableEq κ] (key : ρ → κ)

/-- `INSERT OR REPLACE` -/
def replace (r : ρ) (t : List ρ) : List ρ := t.filter (fun x => key x ≠ key r) ++ [r]

/-- `INSERT OR IGNORE` -/
def ignore (r : ρ) (t : List ρ) : List ρ := if ∃ x ∈ t, key x = key r then t else t ++ [r]

/-- `UPDATE … SET f WHERE` the key is `k`. -/
def update (k : κ) (f : ρ → ρ) (t : List ρ) : List ρ := t.map fun x => if key x = k then f x else x

/-- `INSERT … ON CONFLICT DO UPDATE SET f` -/
def upsert (r : ρ) (f : ρ → ρ) (t : List ρ) : List ρ :=
  if ∃ x ∈ t, key x = key r then update key (key r) f t else t ++ [r]

/-- `SELECT … WHERE` the key is `k`. -/
def find (k : κ) (t : List ρ) : Option ρ := t.find? fun x => key x = k

variable {key} {r x : ρ} {t : List ρ} {k : κ} {f : ρ → ρ}

/-- The new row is there, and those of other keys. -/
theorem mem_replace : x ∈ replace key r t ↔ x = r ∨ (x ∈ t ∧ key x ≠ key r) := by
  rw [replace, List.mem_append, List.mem_filter, List.mem_singleton, decide_eq_true_iff, or_comm]

/-- Under its key the new row is found, under others what was there. -/
theorem find_replace (r : ρ) (k : κ) (t : List ρ) :
    find key k (replace key r t) = if k = key r then some r else find key k t := by
  unfold find replace
  rw [List.find?_append]
  by_cases hk : k = key r
  · have hnone : (t.filter fun x => key x ≠ key r).find? (fun x => key x = k) = none := by
      refine List.find?_eq_none.mpr fun x hx => ?_
      have hne := of_decide_eq_true (List.mem_filter.mp hx).2
      simpa [hk] using hne
    rw [hnone, if_pos hk]
    simp [hk]
  · have hsame : (t.filter fun x => key x ≠ key r).find? (fun x => key x = k) =
        t.find? fun x => key x = k := by
      rw [List.find?_filter]
      congr 1
      funext x
      by_cases hx : key x = k <;> simp [hx, hk]
    have hr : [r].find? (fun x => key x = k) = none := by simp [Ne.symm hk]
    rw [hsame, hr, if_neg hk, Option.or_none]

/-- A row is still there, or has the key of the new one. -/
theorem mem_replace_of_mem (key : ρ → κ) (r : ρ) (h : x ∈ t) : x ∈ replace key r t ∨ key x = key r := by
  by_cases hkey : key x = key r
  · exact .inr hkey
  · exact .inl (mem_replace.mpr (.inr ⟨h, hkey⟩))

/-- The rows are still there, and the new one if its key was free. -/
theorem mem_ignore : x ∈ ignore key r t ↔ x ∈ t ∨ (x = r ∧ ∀ y ∈ t, key y ≠ key r) := by
  rw [ignore]
  split
  · rename_i h
    refine ⟨.inl, fun hx => hx.resolve_right ?_⟩
    rintro ⟨-, hnone⟩
    obtain ⟨y, hy, hkey⟩ := h
    exact hnone y hy hkey
  · rename_i h
    rw [List.mem_append, List.mem_singleton]
    have hnone : ∀ y ∈ t, key y ≠ key r := fun y hy hkey => h ⟨y, hy, hkey⟩
    exact or_congr_right ⟨fun hx => ⟨hx, hnone⟩, And.left⟩

/-- The rows of other keys, and those of the key with their fields set. -/
theorem mem_update : x ∈ update key k f t ↔
    (x ∈ t ∧ key x ≠ k) ∨ ∃ y ∈ t, key y = k ∧ x = f y := by
  rw [update, List.mem_map]
  constructor
  · rintro ⟨y, hy, rfl⟩
    by_cases hkey : key y = k
    · rw [if_pos hkey]
      exact .inr ⟨y, hy, hkey, rfl⟩
    · rw [if_neg hkey]
      exact .inl ⟨hy, hkey⟩
  · rintro (⟨hx, hkey⟩ | ⟨y, hy, hkey, rfl⟩)
    · exact ⟨x, hx, if_neg hkey⟩
    · exact ⟨y, hy, if_pos hkey⟩

/-- Where a row of the table is after an update. -/
theorem exists_mem_update (k : κ) (f : ρ → ρ) (h : x ∈ t) :
    (key x = k ∧ f x ∈ update key k f t) ∨ (key x ≠ k ∧ x ∈ update key k f t) := by
  by_cases hkey : key x = k
  · exact .inl ⟨hkey, mem_update.mpr (.inr ⟨x, h, hkey, rfl⟩)⟩
  · exact .inr ⟨hkey, mem_update.mpr (.inl ⟨h, hkey⟩)⟩

/-- The first row, if it has the key. -/
theorem find_cons (k : κ) (x : ρ) (t : List ρ) :
    find key k (x :: t) = if key x = k then some x else find key k t := by
  rw [find, List.find?_cons]
  by_cases hx : key x = k
  · rw [if_pos hx, decide_eq_true hx]
  · rw [if_neg hx, decide_eq_false hx]
    rfl

/-- What is found after an update that keeps the key. -/
theorem find_update (hf : ∀ x, key (f x) = key x) (k k' : κ) (t : List ρ) :
    find key k' (update key k f t) = if k' = k then (find key k' t).map f else find key k' t := by
  induction t with
  | nil => split <;> rfl
  | cons x t ih =>
    rw [update, List.map_cons, ← update, find_cons, find_cons, ih]
    have hkey : key (if key x = k then f x else x) = key x := by
      split
      · exact hf x
      · rfl
    rw [hkey]
    by_cases hx : key x = k'
    · rw [if_pos hx, if_pos hx, hx]
      split
      · rfl
      · rfl
    · rw [if_neg hx, if_neg hx]

/-- Nothing is found where no row has the key. -/
theorem find_none : find key k t = none ↔ ∀ x ∈ t, key x ≠ k := by
  rw [find, List.find?_eq_none]
  exact forall₂_congr fun _ _ => by rw [decide_eq_true_iff]

/-- What is found after an upsert. -/
theorem find_upsert (hf : ∀ x, key (f x) = key x) (k : κ) (r : ρ) (t : List ρ) :
    find key k (upsert key r f t) =
      if k = key r then some ((find key k t).elim r f) else find key k t := by
  rw [upsert]
  split
  · rename_i hex
    rw [find_update hf]
    split
    · rename_i hk
      subst hk
      obtain ⟨x, hx, hkey⟩ := hex
      cases hfind : find key (key r) t with
      | none => exact absurd hkey (find_none.mp hfind x hx)
      | some y => rfl
    · rfl
  · rename_i hnew
    have hnone : find key (key r) t = none :=
      find_none.mpr fun x hx hkey => hnew ⟨x, hx, hkey⟩
    rw [find, List.find?_append, ← find]
    by_cases hk : k = key r
    · subst hk
      rw [if_pos rfl, hnone, Option.none_or, ← find, find_cons, if_pos rfl]
      rfl
    · rw [if_neg hk, ← find, find_cons, if_neg fun h => hk h.symm]
      exact Option.or_none

/-- What is found is a row of that key. -/
theorem mem_of_find (h : find key k t = some x) : x ∈ t ∧ key x = k := by
  rw [find] at h
  exact ⟨List.mem_of_find?_eq_some h, by simpa using List.find?_some h⟩

/-! ## Keys -/

/-- Keys stay unique where rows are replaced, -/
theorem nodup_replace (r : ρ) (h : (t.map key).Nodup) : ((replace key r t).map key).Nodup := by
  unfold replace
  rw [List.map_append, List.nodup_append]
  refine ⟨h.sublist (List.filter_sublist.map key), List.nodup_singleton _, ?_⟩
  intro k hk k' hk' heq
  obtain ⟨x, hx, rfl⟩ := List.mem_map.mp hk
  have hne := of_decide_eq_true (List.mem_filter.mp hx).2
  exact hne (heq.trans (List.mem_singleton.mp hk'))

/-- are the same after an update, -/
theorem map_update (hf : ∀ x, key (f x) = key x) (k : κ) (t : List ρ) :
    (update key k f t).map key = t.map key := by
  rw [update, List.map_map]
  refine List.map_congr_left fun x _ => ?_
  rw [Function.comp_apply]
  split
  · exact hf x
  · rfl

/-- The keys after an upsert. -/
theorem map_upsert (hf : ∀ x, key (f x) = key x) (r : ρ) (t : List ρ) :
    (upsert key r f t).map key = if ∃ x ∈ t, key x = key r then t.map key else t.map key ++ [key r] := by
  unfold upsert
  split
  · exact map_update hf (key r) t
  · rw [List.map_append, List.map_singleton]

/-- and stay unique after an upsert. -/
theorem nodup_upsert (hf : ∀ x, key (f x) = key x) (r : ρ) (h : (t.map key).Nodup) :
    ((upsert key r f t).map key).Nodup := by
  rw [map_upsert hf]
  split
  · exact h
  · rename_i hnew
    refine List.nodup_append'.mpr ⟨h, List.nodup_singleton _, fun k hk hr => hnew ?_⟩
    obtain ⟨x, hx, rfl⟩ := List.mem_map.mp hk
    exact ⟨x, hx, List.mem_singleton.mp hr⟩

/-- So they do where a row is ignored. -/
theorem nodup_ignore (r : ρ) (h : (t.map key).Nodup) : ((ignore key r t).map key).Nodup := by
  have heq : ignore key r t = upsert key r id t := by simp [ignore, upsert, update]
  rw [heq]
  exact nodup_upsert (fun _ => rfl) r h

/-- What is found among the rows that are kept. -/
theorem find_filter {p : ρ → Bool} (h : (t.map key).Nodup) (k : κ) :
    find key k (t.filter p) = (find key k t).filter p := by
  induction t with
  | nil => rfl
  | cons x t ih =>
    obtain ⟨hx, ht⟩ := List.nodup_cons.mp h
    rw [find_cons, List.filter_cons]
    by_cases hk : key x = k
    · rw [if_pos hk]
      by_cases hp : p x = true
      · rw [if_pos hp, find_cons, if_pos hk, Option.filter_some, if_pos hp]
      · rw [if_neg hp, Option.filter_some, if_neg hp]
        apply find_none.mpr
        intro y hy hkey
        apply hx
        rw [hk, ← hkey]
        exact List.mem_map_of_mem (List.mem_of_mem_filter hy)
    · rw [if_neg hk, ← ih ht]
      by_cases hp : p x = true
      · rw [if_pos hp, find_cons, if_neg hk]
      · rw [if_neg hp]

end KeyedTable
end Hazync
