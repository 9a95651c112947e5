import Mathlib.Data.Option.Basic
import Mathlib.Data.List.Basic
import Mathlib.Tactic.Common

/-!
# Runs of a partial step

A run is `foldlM` of a step that may fail. What every successful step keeps, a successful run
keeps; and two steps that fail together and keep a relation run together.

Where a step is a relation on states, with a label that says what happened, a run is a list of
steps that follow on one another, and what every step keeps holds wherever a step was taken.

## Traces

For a relation a run has a trace: the list of its steps, each with the state before, the label, and
the state after. Many properties are not of a single state but of what happened, such as that a
result was accepted only after it had been asked for, or that a condition held at every step. They
are stated over the trace. `Run.invariant` is the induction that everything rests on, and the lemmas
after it are about cutting a run at one of its steps.

A condition on the steps of a run may be a hypothesis of a theorem without being one of each step.
`Run.restrict` makes it part of the step relation, so that an invariant that holds only under the
condition can be proved like any other.

The last section is for examples. A run is a long term, while a script is a list of labels; `play`
follows a script for as long as the step is allowed, and what comes out is a run.
-/

namespace Runs

variable {α β γ : Type*}

/-- What each step of a run preserves, the run preserves. -/
theorem foldlM_invariant {f : α → γ → Option α} {p : α → Prop} {l : List γ}
    (hstep : ∀ c ∈ l, ∀ a a', p a → f a c = some a' → p a') {a b : α} (ha : p a)
    (h : l.foldlM f a = some b) : p b := by
  induction l generalizing a with
  | nil =>
    obtain rfl := Option.some.inj h
    exact ha
  | cons c l ih =>
    rw [List.foldlM_cons] at h
    obtain ⟨a', hc, hl⟩ := Option.bind_eq_some_iff.mp h
    exact ih (fun c' hc' => hstep c' (by simp [hc'])) (hstep c (by simp) a a' ha hc) hl

/-- Steps that agree on the inputs of a run run alike. -/
theorem foldlM_congr {f g : α → γ → Option α} {l : List γ} (h : ∀ c ∈ l, ∀ a, f a c = g a c)
    (a : α) : l.foldlM f a = l.foldlM g a := by
  induction l generalizing a with
  | nil => rfl
  | cons c l ih =>
    rw [List.foldlM_cons, List.foldlM_cons, h c List.mem_cons_self]
    exact Option.bind_congr fun a' _ => ih (fun c' hc' => h c' (List.mem_cons_of_mem _ hc')) a'

/-- A fold that keeps `p`, passes an element that turns `p` into `q`, and keeps `q`, ends in `q`. -/
theorem foldl_reaches {op : α → γ → α} {p q : α → Prop} {l : List γ} {c : γ} (hc : c ∈ l)
    (hp : ∀ a, ∀ d ∈ l, p a → p (op a d)) (hq : ∀ a, ∀ d ∈ l, q a → q (op a d))
    (hpq : ∀ a, p a → q (op a c)) {a : α} (ha : p a) : q (l.foldl op a) := by
  induction l generalizing a with
  | nil => exact absurd hc List.not_mem_nil
  | cons d l ih =>
    rw [List.foldl_cons]
    obtain rfl | hc := List.mem_cons.mp hc
    · exact List.foldlRecOn l op (hpq a ha) fun b hb d hd => hq b d (List.mem_cons_of_mem _ hd) hb
    · exact ih hc (fun b d hd => hp b d (List.mem_cons_of_mem _ hd))
        (fun b d hd => hq b d (List.mem_cons_of_mem _ hd)) (hp a d List.mem_cons_self ha)

/-- A simulation for less. -/
theorem rel_imp {r q : α → β → Prop} {o : Option α} {o' : Option β} (h : Option.Rel r o o')
    (himp : ∀ a b, r a b → q a b) : Option.Rel q o o' := by
  cases h with
  | none => exact .none
  | some hab => exact .some (himp _ _ hab)

/-- Two steps in sequence, simulated one after the other. -/
theorem rel_bind {δ : Type*} {r : α → β → Prop} {q : γ → δ → Prop} {o : Option α}
    {o' : Option β} {f : α → Option γ} {g : β → Option δ} (h : Option.Rel r o o')
    (hfg : ∀ a b, r a b → Option.Rel q (f a) (g b)) : Option.Rel q (o.bind f) (o'.bind g) := by
  cases h with
  | none => exact .none
  | some hab => exact hfg _ _ hab

/-- A simulation of the steps is one of the runs. -/
theorem rel_foldlM {r : α → β → Prop} {f : α → γ → Option α} {g : β → γ → Option β}
    (hstep : ∀ a b c, r a b → Option.Rel r (f a c) (g b c)) (l : List γ) {a : α} {b : β}
    (h : r a b) : Option.Rel r (l.foldlM f a) (l.foldlM g b) := by
  induction l generalizing a b with
  | nil => exact .some h
  | cons c l ih =>
    rw [List.foldlM_cons, List.foldlM_cons]
    exact rel_bind (hstep a b c h) fun _ _ h' => ih h'

/-! ## Runs of a relation -/

variable {σ ε : Type*}

/-- A run from an initial state, with the steps it took. -/
inductive Run (init : σ → Prop) (step : σ → ε → σ → Prop) : List (σ × ε × σ) → σ → Prop
  | nil {s : σ} (h : init s) : Run init step [] s
  | snoc {trace : List (σ × ε × σ)} {s s' : σ} {e : ε} (h : Run init step trace s)
      (hstep : step s e s') : Run init step (trace ++ [(s, e, s')]) s'

variable {init : σ → Prop} {step : σ → ε → σ → Prop} {trace : List (σ × ε × σ)} {s : σ} {p : σ → Prop}

/-- What holds at the start and is kept by each step holds at the end. -/
theorem Run.invariant (hinit : ∀ s, init s → p s) (hstep : ∀ s e s', p s → step s e s' → p s')
    (h : Run init step trace s) : p s := by
  induction h with
  | nil h => exact hinit _ h
  | snoc _ h ih => exact hstep _ _ _ ih h

/-- Where a run ends, under another name. -/
theorem Run.to {s' : σ} (h : Run init step trace s) (heq : s = s') : Run init step trace s' := heq ▸ h

/-- A run of a relation is one of a wider relation, where its steps are. -/
theorem Run.mono {step' : σ → ε → σ → Prop} (h : Run init step trace s)
    (hstep : ∀ s e s', step s e s' → step' s e s') : Run init step' trace s := by
  induction h with
  | nil h => exact .nil h
  | snoc _ hs ih => exact ih.snoc (hstep _ _ _ hs)

/-- What each step of a run meets can be made part of the step. -/
theorem Run.restrict {q : σ → ε → σ → Prop} (h : Run init step trace s)
    (hq : ∀ t ∈ trace, q t.1 t.2.1 t.2.2) :
    Run init (fun s e s' => step s e s' ∧ q s e s') trace s := by
  induction h with
  | nil h => exact .nil h
  | snoc _ hs ih =>
    refine (ih fun t ht => hq t (List.mem_append_left _ ht)).snoc ⟨hs, ?_⟩
    exact hq _ (List.mem_append_right _ (List.mem_singleton.mpr rfl))

/-- Each step of a run was taken where the invariant holds. -/
theorem Run.forall_steps (hinit : ∀ s, init s → p s) (hstep : ∀ s e s', p s → step s e s' → p s')
    (h : Run init step trace s) : ∀ t ∈ trace, p t.1 ∧ step t.1 t.2.1 t.2.2 := by
  induction h with
  | nil => exact fun t ht => absurd ht List.not_mem_nil
  | snoc h hs ih =>
    intro t ht
    obtain ht | ht := List.mem_append.mp ht
    · exact ih t ht
    · rw [List.mem_singleton.mp ht]
      exact ⟨h.invariant hinit hstep, hs⟩

/-- A run up to one of its steps is a run, and the step is one. -/
theorem Run.split {pre post : List (σ × ε × σ)} {t : σ × ε × σ} (h : Run init step trace s)
    (heq : trace = pre ++ t :: post) : Run init step pre t.1 ∧ step t.1 t.2.1 t.2.2 := by
  induction h generalizing post with
  | nil => exact absurd heq (by simp)
  | @snoc trace s s' e h hs ih =>
    obtain rfl | ⟨post, last, rfl⟩ := List.eq_nil_or_concat post
    · obtain ⟨rfl, hlast⟩ := List.append_inj' heq rfl
      obtain rfl := (List.cons.inj hlast).1
      exact ⟨h, hs⟩
    · rw [List.concat_eq_append, ← List.cons_append, ← List.append_assoc] at heq
      exact ih (List.append_inj' heq rfl).1

/-- What is left of a run after one of its steps is a run from where the step led. -/
theorem Run.tail {pre post : List (σ × ε × σ)} {t : σ × ε × σ} (h : Run init step trace s)
    (heq : trace = pre ++ t :: post) : Run (· = t.2.2) step post s := by
  induction h generalizing post with
  | nil => exact absurd heq (by simp)
  | @snoc trace s s' e h hs ih =>
    obtain rfl | ⟨post, last, rfl⟩ := List.eq_nil_or_concat post
    · obtain ⟨-, hlast⟩ := List.append_inj' heq rfl
      obtain rfl := (List.cons.inj hlast).1
      exact .nil rfl
    · rw [List.concat_eq_append, ← List.cons_append, ← List.append_assoc] at heq
      obtain ⟨hpre, hlast⟩ := List.append_inj' heq rfl
      obtain rfl := (List.cons.inj hlast).1
      rw [List.concat_eq_append]
      exact (ih hpre).snoc hs

/-- The first steps of a run are a run. -/
theorem Run.take {pre post : List (σ × ε × σ)} (h : Run init step trace s)
    (heq : trace = pre ++ post) : ∃ s', Run init step pre s' := by
  cases post with
  | nil =>
    rw [List.append_nil] at heq
    exact ⟨s, heq ▸ h⟩
  | cons t post => exact ⟨t.1, (h.split heq).1⟩

/-! ## Runs of a script -/

/-- The steps that a list of labels makes, up to one that is refused, and where they end. -/
def play (next : σ → ε → Option σ) (s : σ) : List ε → List (σ × ε × σ) × σ
  | [] => ([], s)
  | e :: es =>
    match next s e with
    | some s' => ((s, e, s') :: (play next s' es).1, (play next s' es).2)
    | none => ([], s)

/-- The labels of a script are those of its steps. -/
theorem label_mem_of_play {next : σ → ε → Option σ} {es : List ε} {t : σ × ε × σ}
    (ht : t ∈ (play next s es).1) : t.2.1 ∈ es := by
  induction es generalizing s with
  | nil => exact absurd ht List.not_mem_nil
  | cons e es ih =>
    unfold play at ht
    split at ht
    · obtain rfl | ht := List.mem_cons.mp ht
      · exact List.mem_cons_self
      · exact List.mem_cons_of_mem _ (ih ht)
    · exact absurd ht List.not_mem_nil

/-- A run goes on with a script. -/
theorem Run.append_play {next : σ → ε → Option σ} (hnext : ∀ s e s', next s e = some s' → step s e s')
    (es : List ε) (h : Run init step trace s) :
    Run init step (trace ++ (play next s es).1) (play next s es).2 := by
  induction es generalizing trace s with
  | nil => exact (List.append_nil trace).symm ▸ h
  | cons e es ih =>
    unfold play
    cases he : next s e with
    | none => exact (List.append_nil trace).symm ▸ h
    | some s' =>
      have hrun := ih (h.snoc (hnext s e s' he))
      rwa [List.append_assoc] at hrun

/-- A script that is played from an initial state is a run. -/
theorem Run.play {next : σ → ε → Option σ} (hnext : ∀ s e s', next s e = some s' → step s e s')
    (h : init s) (es : List ε) : Run init step (play next s es).1 (play next s es).2 :=
  (Run.nil h).append_play hnext es

end Runs
