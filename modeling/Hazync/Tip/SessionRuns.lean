import Hazync.Tip.Session

/-!
# What a session does over its whole run

The two counters of the loop, the attempts, the window and what is spent are checked against the run
itself. The counter of idles is not reset when a block is started; the window may start at an instant
that is long past; and what was charged or verified after the last save is not known after a restart.
Where none of this happens, the session starts no block in vain and stops for a reason that holds.

## Somebody who watches

The claims about a session are on what it does over hours: how often a block was started, how many
failures there were in a row before it gave up, what was charged. The driver has counters for some
of these, and whether the counters are right is the question. So the run is watched from outside.
`Watch` counts from the steps alone, and the invariant `Watched` relates what the watcher has
counted to what the driver knows and what is in the file.

The relation is not equality everywhere. The attempts of the driver may be more than the starts that
were seen, since the attempt is recorded first and the driver may be killed before the start. An
abort gives the attempt back, later. The counters of failures and idles may be too low, after a
restart, and this does no harm; what matters is that they are never too high, or the session would
stop without a reason.

## What is asked of the steps

`Sensible` has three conditions, and each excludes one thing that goes wrong. A block is chosen only
when no exhausted idles are counted, since the counter is not reset when a block is proved, and
idles that were not in a row would add up. The window must not start before the session does, nor so
early that there is no time left for the block; a tip block's time of appearance may be long past.
And a restart must find everything saved, also what was charged at the top of the loop.
-/

namespace Hazync
namespace Tip

section Session

variable {Rng : Type} [DecidableEq Rng] {cfg : SessionConfig} {d₀ d d' : Driver Rng}
  {e : SessionEvent Rng} {trace : List (Driver Rng × SessionEvent Rng × Driver Rng)} {rng : Rng}

/-! ## The run, watched -/

/-- What has happened in a run: the blocks that were verified, how often each was started and aborted,
    the exhausted idles and the failures in a row, and what was charged. -/
structure Watch (Rng : Type) where
  verified : Rng → Bool := fun _ => false
  starts : Rng → ℕ := fun _ => 0
  aborts : Rng → ℕ := fun _ => 0
  idles : ℕ := 0
  fails : ℕ := 0
  charged : ℚ

/-- What a step does. An idle of the board and a block that is started end a row of exhausted idles,
    and a block that is verified ends a row of failures. -/
def Watch.see (cfg : SessionConfig) (w : Watch Rng) (t : Driver Rng × SessionEvent Rng × Driver Rng) :
    Watch Rng :=
  match t.2.1, t.1.point with
  | .decide now accrued estimate work, _ =>
    let w := { w with charged := accrued.elim w.charged fun usd => cfg.round (w.charged + usd) }
    match t.1.planned cfg now accrued estimate work with
    | .idle true => { w with idles := w.idles + 1 }
    | .idle false => { w with idles := 0 }
    | _ => w
  | .start, .chosen c =>
    { w with starts := Function.update w.starts c.range (w.starts c.range + 1), idles := 0 }
  | .returned .verified, .proving rng =>
    { w with verified := Function.update w.verified rng true, fails := 0 }
  | .returned .failed, _ => { w with fails := w.fails + 1 }
  | .returned .aborted, .proving rng =>
    { w with aborts := Function.update w.aborts rng (w.aborts rng + 1) }
  | _, _ => w

def watch (cfg : SessionConfig) (start : Driver Rng)
    (trace : List (Driver Rng × SessionEvent Rng × Driver Rng)) : Watch Rng :=
  trace.foldl (Watch.see cfg) { charged := start.mem.spendUsd }

/-- The choice of a step that starts a block. -/
def starting (d : Driver Rng) : SessionEvent Rng → Option (Choice Rng)
  | .start =>
    match d.point with
    | .chosen c => if d.arms c then none else some c
    | _ => none
  | _ => none

/-- The step stops the session. -/
def stops (t : Driver Rng × SessionEvent Rng × Driver Rng) (why : Why) : Prop :=
  t.2.2.point = .stopped why ∧ t.2.1 ≠ .exit

/-- A session stops only for a reason that holds, and wastes no block. -/
structure Proper (cfg : SessionConfig) (start : Driver Rng)
    (trace : List (Driver Rng × SessionEvent Rng × Driver Rng)) : Prop where
  /-- No block is started that was verified. -/
  once : ∀ pre t post, trace = pre ++ t :: post → ∀ c, starting t.1 t.2.1 = some c →
    (watch cfg start pre).verified c.range = false
  /-- A block is started three times at most, and once more for each time it was aborted. -/
  attempts : ∀ rng, (watch cfg start trace).starts rng ≤
    MAX_ATTEMPTS + (watch cfg start trace).aborts rng
  /-- No block is started when the budget is spent, or when less is left than it is taken to need. -/
  afforded : ∀ pre t post, trace = pre ++ t :: post → ∀ c, starting t.1 t.2.1 = some c →
    overBudget cfg (watch cfg start pre).charged = false ∧
      tooLong c.estimate (t.1.mem.remainingS c.now) = false
  /-- Idles that cannot resolve stop the session only when there were so many in a row. -/
  exhausted : ∀ pre t post, trace = pre ++ t :: post → stops t .exhausted →
    cfg.MAX_CONSECUTIVE_EXHAUSTED_IDLES ≤ (watch cfg start (pre ++ [t])).idles
  /-- Failures stop the session only when there were so many in a row. -/
  fleet : ∀ pre t post, trace = pre ++ t :: post → stops t .fleet →
    cfg.MAX_CONSECUTIVE_FAILS ≤ (watch cfg start (pre ++ [t])).fails
  /-- A window that has started does not move, also when the session is started again. -/
  fixed : ∀ t ∈ trace, ∀ origin, t.1.mem.clockOrigin = some origin →
    t.2.2.mem.clockOrigin = some origin
  /-- No window starts before the session, or after the reading at which the step started it. -/
  within : ∀ t ∈ trace, ∀ origin, t.2.2.mem.clockOrigin = some origin →
    start.mem.startedAt ≤ origin ∧
      (t.1.mem.clockOrigin = none → ∃ c, t.1.point = .chosen c ∧ c.tip ∧ origin ≤ c.now)
  /-- A tip block is started in the window. -/
  armed : ∀ t ∈ trace, ∀ c, starting t.1 t.2.1 = some c → c.tip → t.1.mem.clockOrigin ≠ none

/-! ## The runs that are proper -/

/-- The plan is to prove a block. -/
def SessionPlan.proves : SessionPlan Rng → Bool
  | .prove .. => true
  | _ => false

/-- The block that was chosen and not started. -/
def Point.choice : Point Rng → Option (Choice Rng)
  | .chosen c => some c
  | _ => none

/-- What is asked of a step, in the state before it. -/
def Sensible (cfg : SessionConfig) (d : Driver Rng) : SessionEvent Rng → Prop
  -- no block is chosen while exhausted idles are counted
  | .decide now accrued estimate work =>
    (d.planned cfg now accrued estimate work).proves → d.exhaustedIdles = 0
  -- the window starts no earlier than the session, and leaves the time that the block needs
  | .arm => ∀ c ∈ d.point.choice, d.mem.startedAt ≤ c.armAt ∧
    tooLong c.estimate ((d.mem.armClock c.armAt).remainingS c.now) = false
  -- what was charged is saved, and so is the block that was verified
  | .restart => d.file.spendUsd = d.mem.spendUsd ∧
    match d.point with
    | .returned _ .verified => False
    | _ => True
  | _ => True

/-! ## The invariant -/

/-- The attempt that the record of an abort gives back. -/
def Point.owed (p : Point Rng) (rng : Rng) : ℕ :=
  match p with
  | .returned r .aborted => if r = rng then 1 else 0
  | _ => 0

/-- The failures that the counter has, once the outcome is recorded. -/
def Driver.failures (d : Driver Rng) : ℕ :=
  match d.point with
  | .returned _ .verified => 0
  | .returned _ .failed => d.consecutiveFails + 1
  | _ => d.consecutiveFails

/-- What is known of a choice until its block is started. -/
structure Chosen (cfg : SessionConfig) (d : Driver Rng) (c : Choice Rng) : Prop where
  idles : d.exhaustedIdles = 0
  /-- The range has not been proved. -/
  unproved : d.mem.blocks c.range ≠ some true
  /-- And not been tried too often. -/
  attempts : d.mem.attempts c.range < MAX_ATTEMPTS
  /-- There is money left, -/
  budget : overBudget cfg d.mem.spendUsd = false
  /-- and time, unless the clock only starts with this block. -/
  time : d.arms c = false → tooLong c.estimate (d.mem.remainingS c.now) = false

/-- A driver, and the run that led to it: `w` counts the starts, aborts, verdicts, idle looks and
    failures as somebody watching the fleet would. -/
structure Watched (cfg : SessionConfig) (startedAt : ℚ) (w : Watch Rng) (d : Driver Rng) : Prop where
  /-- The file says what the driver knows, but for what was spent since. -/
  file : d.file = { d.mem with spendUsd := d.file.spendUsd }
  began : d.mem.startedAt = startedAt
  /-- The money is counted by the driver as it is by the watcher. -/
  charged : w.charged = d.mem.spendUsd
  limit : ∀ rng, d.mem.attempts rng ≤ MAX_ATTEMPTS
  /-- Each start is an attempt; a prove that the fleet has aborted gives its attempt back. -/
  counted : ∀ rng, w.starts rng + d.point.owed rng ≤ d.mem.attempts rng + w.aborts rng
  /-- A range that was verified is known as such, or the driver is just told. -/
  verified : ∀ rng, w.verified rng → d.mem.blocks rng = some true ∨ d.point = .returned rng .verified
  /-- And is not proved again. -/
  unproved : ∀ rng, d.point = .proving rng ∨ d.point = .returned rng .failed → w.verified rng = false
  /-- The counters of idle looks and failures do not run ahead, -/
  idles : d.exhaustedIdles ≤ w.idles
  fails : d.failures ≤ w.fails
  /-- nor does the clock that the limit is measured by. -/
  origin : ∀ origin, d.mem.clockOrigin = some origin → startedAt ≤ origin
  /-- What was chosen may still be started. -/
  chosen : ∀ c, d.point = .chosen c → Chosen cfg d c

variable {startedAt : ℚ} {w : Watch Rng}

/-- Before an outcome, the counter has the failures. -/
theorem Watched.fails_of (h : Watched cfg startedAt w d) (hpoint : ∀ r o, d.point ≠ .returned r o) :
    d.consecutiveFails ≤ w.fails := by
  have hfails := h.fails
  unfold Driver.failures at hfails
  split at hfails
  · rename_i heq
    exact absurd heq (hpoint _ _)
  · rename_i heq
    exact absurd heq (hpoint _ _)
  · exact hfails

/-! ## Steps -/

omit [DecidableEq Rng] in
/-- What `plan_next` has checked of a block that it has proved. -/
theorem planNext_prove {s : Saved Rng} {now : ℚ} {work : Option (Offer Rng)} {estimate : Option ℚ}
    {tip : Bool} {appeared : Option ℚ} (h : planNext cfg s now work estimate = .prove rng tip appeared) :
    overBudget cfg s.spendUsd = false ∧ s.blocks rng ≠ some true ∧ s.attempts rng < MAX_ATTEMPTS ∧
      tooLong estimate (s.remainingS now) = false := by
  cases work with
  | none =>
    simp only [planNext] at h
    split_ifs at h
  | some offer =>
    cases hrange : offer.range with
    | none =>
      simp only [planNext, hrange] at h
      split_ifs at h
    | some r =>
      simp only [planNext, hrange] at h
      split_ifs at h with hleft hdeadline hbudget hproved hattempts hlong
      obtain ⟨rfl, -, -⟩ := SessionPlan.prove.inj h
      exact ⟨by simpa using hbudget, hproved, by omega, by simpa using hlong⟩

omit [DecidableEq Rng] in
/-- Charging changes what is spent, and nothing else. -/
theorem charge_frame (d : Driver Rng) (accrued : Option ℚ) :
    d.charge cfg accrued = { d.mem with spendUsd := (d.charge cfg accrued).spendUsd } := by
  cases accrued <;> rfl

/-- The driver charges, counts an idle or not, and goes on to a point at which no block is proved. -/
theorem Watched.charge (h : Watched cfg startedAt w d) (hpoint : d.point = .top) {mem : Saved Rng}
    (hmem : mem = { d.mem with spendUsd := mem.spendUsd }) {n i : ℕ} (hidles : n ≤ i) {p : Point Rng}
    (hproving : ∀ r, p ≠ .proving r) (hreturned : ∀ r o, p ≠ .returned r o)
    (hchosen : ∀ c, p = .chosen c → Chosen cfg { d with mem, exhaustedIdles := n, point := p } c) :
    Watched cfg startedAt { w with charged := mem.spendUsd, idles := i }
      { d with mem, exhaustedIdles := n, point := p } := by
  have howed : ∀ rng, p.owed rng = d.point.owed rng := fun rng => by
    rw [hpoint]
    cases p with
    | returned r o => exact absurd rfl (hreturned r o)
    | _ => rfl
  have hfails : Driver.failures { d with mem, exhaustedIdles := n, point := p } = d.consecutiveFails := by
    cases p with
    | returned r o => exact absurd rfl (hreturned r o)
    | _ => rfl
  refine ⟨?_, ?_, rfl, ?_, ?_, ?_, ?_, hidles, ?_, ?_, hchosen⟩
  · rw [hmem]
    exact h.file
  · rw [hmem]
    exact h.began
  · rw [hmem]
    exact h.limit
  · intro rng
    rw [hmem]
    simp only [howed]
    exact h.counted rng
  · intro rng hrng
    rw [hmem]
    exact .inl ((h.verified rng hrng).resolve_right (by simp [hpoint]))
  · rintro rng (hp | hp)
    · exact absurd hp (hproving rng)
    · exact absurd hp (hreturned rng _)
  · rw [hfails]
    exact h.fails_of (by simp [hpoint])
  · rw [hmem]
    exact h.origin

/-- The top of the loop charges, and decides. -/
theorem Watched.decide (h : Watched cfg startedAt w d) {now : ℚ} {accrued estimate : Option ℚ}
    {work : Option (Offer Rng)} (hstep : d.next cfg (.decide now accrued estimate work) = some d')
    (hsensible : Sensible cfg d (.decide now accrued estimate work)) :
    Watched cfg startedAt (w.see cfg (d, .decide now accrued estimate work, d')) d' := by
  simp only [Driver.next] at hstep
  split at hstep
  swap
  · exact absurd hstep (by simp)
  rename_i hpoint
  have hframe : d.charge cfg accrued = { d.mem with spendUsd := (d.charge cfg accrued).spendUsd } :=
    charge_frame d accrued
  have hcharged : accrued.elim w.charged (fun usd => cfg.round (w.charged + usd)) =
      (d.charge cfg accrued).spendUsd := by
    rw [h.charged]
    cases accrued <;> rfl
  have hplanned : d.planned cfg now accrued estimate work =
      planNext cfg (d.charge cfg accrued) now work estimate := rfl
  simp only [Sensible] at hsensible
  unfold Watch.see
  simp only [hcharged]
  generalize d.charge cfg accrued = mem at *
  split at hstep <;> rename_i hplan <;> rw [hplan]
  · obtain rfl := Option.some.inj hstep
    exact h.charge hpoint hframe h.idles (by simp) (by simp) (by simp)
  · split_ifs at hstep
    · obtain rfl := Option.some.inj hstep
      exact h.charge hpoint hframe (Nat.succ_le_succ h.idles) (by simp) (by simp) (by simp)
    · obtain rfl := Option.some.inj hstep
      have hstay := h.charge hpoint hframe (Nat.succ_le_succ h.idles) (p := .top) (by simp) (by simp) (by simp)
      rwa [← hpoint] at hstay
  · obtain rfl := Option.some.inj hstep
    have hstay := h.charge hpoint hframe (Nat.le_refl 0) (p := .top) (by simp) (by simp) (by simp)
    rwa [← hpoint] at hstay
  · rename_i range tip appeared
    obtain rfl := Option.some.inj hstep
    refine h.charge hpoint hframe h.idles (by simp) (by simp) fun c hc => ?_
    obtain rfl := Point.chosen.inj hc
    obtain ⟨hbudget, hproved, hattempts, hlong⟩ := planNext_prove (hplanned.symm.trans hplan)
    exact ⟨hsensible (hplan ▸ rfl), hproved, hattempts, hbudget, fun _ => hlong⟩

omit [DecidableEq Rng] in
/-- A window that had not started starts then. -/
theorem clockOrigin_armClock {s : Saved Rng} {t : ℚ} (h : s.clockOrigin = none) :
    s.armClock t = { s with armedAt := some (some t) } ∧
      (s.armClock t).clockOrigin = some t := by
  have harm : s.armClock t = { s with armedAt := some (some t) } := by
    unfold Saved.armClock
    rw [h]
  exact ⟨harm, harm ▸ rfl⟩

/-- The window starts, and that is saved. -/
theorem Watched.arm (h : Watched cfg startedAt w d) (hstep : d.next cfg .arm = some d')
    (hsensible : Sensible cfg d .arm) : Watched cfg startedAt (w.see cfg (d, .arm, d')) d' := by
  simp only [Driver.next] at hstep
  split at hstep
  swap
  · exact absurd hstep (by simp)
  rename_i c hpoint
  split_ifs at hstep with harms
  obtain rfl := Option.some.inj hstep
  obtain ⟨htip, hnone⟩ := of_decide_eq_true harms
  obtain ⟨harm, horigin⟩ := clockOrigin_armClock (t := c.armAt) hnone
  obtain ⟨hbegan, htime⟩ := hsensible c (hpoint ▸ rfl)
  have hchosen := h.chosen c hpoint
  rw [harm] at htime horigin ⊢
  exact
    { file := rfl
      began := h.began
      charged := h.charged
      limit := h.limit
      counted := h.counted
      verified := h.verified
      unproved := h.unproved
      idles := h.idles
      fails := h.fails
      origin := fun o ho => by
        obtain rfl := Option.some.inj ho
        exact h.began ▸ hbegan
      chosen := fun c' hc' => by
        obtain rfl := Point.chosen.inj (hpoint.symm.trans hc')
        exact ⟨hchosen.idles, hchosen.unproved, hchosen.attempts, hchosen.budget, fun _ => htime⟩ }

/-- The block is started, with its attempt recorded. -/
theorem Watched.start (h : Watched cfg startedAt w d) (hstep : d.next cfg .start = some d') :
    Watched cfg startedAt (w.see cfg (d, .start, d')) d' := by
  simp only [Driver.next] at hstep
  split at hstep
  swap
  · exact absurd hstep (by simp)
  rename_i c hpoint
  split_ifs at hstep
  obtain rfl := Option.some.inj hstep
  have hchosen := h.chosen c hpoint
  have hsee : w.see cfg (d, .start, Driver.save
      { d with mem := d.mem.recordAttempt c.range, point := .proving c.range }) =
      { w with starts := Function.update w.starts c.range (w.starts c.range + 1), idles := 0 } := by
    simp only [Watch.see, hpoint]
  rw [hsee]
  refine ⟨rfl, h.began, h.charged, ?_, ?_, ?_, ?_, ?_, h.fails_of (by simp [hpoint]), h.origin,
    fun _ hc => absurd hc (by simp [Driver.save])⟩
  · intro rng
    by_cases hrng : rng = c.range
    · subst hrng
      simpa [Driver.save, Saved.recordAttempt] using Nat.succ_le_of_lt hchosen.attempts
    · simpa [Driver.save, Saved.recordAttempt, hrng] using h.limit rng
  · intro rng
    have hcounted := h.counted rng
    rw [hpoint] at hcounted
    by_cases hrng : rng = c.range
    · subst hrng
      simp only [Point.owed, Driver.save, Saved.recordAttempt, Function.update_self] at hcounted ⊢
      omega
    · simpa [Driver.save, Saved.recordAttempt, hrng, Point.owed] using hcounted
  · exact fun rng hrng => .inl ((h.verified rng hrng).resolve_right (by simp [hpoint]))
  · rintro rng (hp | hp)
    · obtain rfl := Point.proving.inj hp
      by_contra hverified
      rw [Bool.not_eq_false] at hverified
      exact hchosen.unproved ((h.verified _ hverified).resolve_right (by simp [hpoint]))
    · exact absurd hp (by simp [Driver.save])
  · simpa [Driver.save] using hchosen.idles

/-- `prove` returns. -/
theorem Watched.returned (h : Watched cfg startedAt w d) {outcome : ProveOutcome}
    (hstep : d.next cfg (.returned outcome) = some d') :
    Watched cfg startedAt (w.see cfg (d, .returned outcome, d')) d' := by
  simp only [Driver.next] at hstep
  split at hstep
  swap
  · exact absurd hstep (by simp)
  rename_i rng hpoint
  obtain rfl := Option.some.inj hstep
  have hfails := h.fails_of (by simp [hpoint])
  have hcounted : ∀ r, w.starts r ≤ d.mem.attempts r + w.aborts r := fun r => by
    have hc := h.counted r
    rw [hpoint] at hc
    exact hc
  have hverified : ∀ r, w.verified r → d.mem.blocks r = some true :=
    fun r hr => (h.verified r hr).resolve_right (by simp [hpoint])
  -- a verified block ends the row of failures, a failed one adds to it, an aborted one is not
  -- counted
  cases outcome with
  | verified =>
    have hsee : w.see cfg (d, .returned .verified, { d with point := .returned rng .verified }) =
        { w with verified := Function.update w.verified rng true, fails := 0 } := by
      simp only [Watch.see, hpoint]
    rw [hsee]
    refine ⟨h.file, h.began, h.charged, h.limit, hcounted, fun r hr => ?_, fun r hp => absurd hp (by simp),
      h.idles, Nat.le_refl 0, h.origin, fun _ hc => absurd hc (by simp)⟩
    by_cases hrng : r = rng
    · exact .inr (hrng ▸ rfl)
    · exact .inl (hverified r (by simpa [hrng] using hr))
  | failed =>
    have hsee : w.see cfg (d, .returned .failed, { d with point := .returned rng .failed }) =
        { w with fails := w.fails + 1 } := by
      simp only [Watch.see]
    rw [hsee]
    refine ⟨h.file, h.began, h.charged, h.limit, hcounted, fun r hr => .inl (hverified r hr), ?_,
      h.idles, Nat.succ_le_succ hfails, h.origin, fun _ hc => absurd hc (by simp)⟩
    rintro r (hp | hp)
    · exact absurd hp (by simp)
    · obtain ⟨rfl, -⟩ := Point.returned.inj hp
      exact h.unproved _ (.inl hpoint)
  | aborted =>
    have hsee : w.see cfg (d, .returned .aborted, { d with point := .returned rng .aborted }) =
        { w with aborts := Function.update w.aborts rng (w.aborts rng + 1) } := by
      simp only [Watch.see, hpoint]
    rw [hsee]
    refine ⟨h.file, h.began, h.charged, h.limit, fun r => ?_, fun r hr => .inl (hverified r hr),
      fun r hp => absurd hp (by simp), h.idles, hfails, h.origin, fun _ hc => absurd hc (by simp)⟩
    have hc := hcounted r
    by_cases hrng : rng = r
    · subst hrng
      simp only [Point.owed, if_true, Function.update_self]
      omega
    · simpa [Point.owed, hrng, Ne.symm hrng] using hc

/-- The outcome is recorded, and saved. -/
theorem Watched.record (h : Watched cfg startedAt w d) (hstep : d.next cfg .record = some d') :
    Watched cfg startedAt (w.see cfg (d, .record, d')) d' := by
  have hsee : w.see cfg (d, .record, d') = w := by simp only [Watch.see]
  rw [hsee]
  simp only [Driver.next] at hstep
  have hfails := h.fails
  unfold Driver.failures at hfails
  split at hstep
  · rename_i rng hpoint
    obtain rfl := Option.some.inj hstep
    rw [hpoint] at hfails
    refine ⟨rfl, h.began, h.charged, fun r => ?_, fun r => ?_, fun r hr => ?_, fun r hp => ?_, h.idles,
      hfails, h.origin, fun _ hc => absurd hc (by simp [Driver.save])⟩
    · have hl := h.limit r
      by_cases hrng : r = rng
      · subst hrng
        simp only [Driver.save, Saved.undoAttempt, Function.update_self]
        omega
      · simpa [Driver.save, Saved.undoAttempt, hrng] using hl
    · have hc := h.counted r
      rw [hpoint] at hc
      by_cases hrng : rng = r
      · subst hrng
        simp only [Driver.save, Saved.undoAttempt, Function.update_self, Point.owed, if_true] at hc ⊢
        omega
      · simpa [Driver.save, Saved.undoAttempt, Point.owed, hrng, Ne.symm hrng] using hc
    · exact .inl ((h.verified r hr).resolve_right (by simp [hpoint]))
    · exact absurd hp (by simp [Driver.save])
  · rename_i rng hpoint
    obtain rfl := Option.some.inj hstep
    refine ⟨rfl, h.began, h.charged, h.limit, fun r => ?_, fun r hr => ?_, fun r hp => ?_, h.idles,
      Nat.zero_le _, h.origin, fun _ hc => absurd hc (by simp [Driver.save])⟩
    · have hc := h.counted r
      rw [hpoint] at hc
      exact hc
    · left
      by_cases hrng : r = rng
      · simp [Driver.save, Saved.recordBlock, hrng]
      · have hv := (h.verified r hr).resolve_right (by simp [hpoint, Ne.symm hrng])
        simpa [Driver.save, Saved.recordBlock, hrng] using hv
    · exact absurd hp (by simp [Driver.save])
  · rename_i rng hpoint
    rw [hpoint] at hfails
    have hcounted : ∀ r, w.starts r ≤ d.mem.attempts r + w.aborts r := fun r => by
      have hc := h.counted r
      rw [hpoint] at hc
      exact hc
    -- the block was not verified before, so that nothing is lost
    have hverified : ∀ r, w.verified r → (d.mem.recordBlock rng false).blocks r = some true := by
      intro r hr
      have hrng : r ≠ rng := fun heq => by
        rw [heq, h.unproved rng (.inr hpoint)] at hr
        exact absurd hr (by simp)
      simpa [Saved.recordBlock, hrng] using (h.verified r hr).resolve_right (by simp [hpoint])
    split_ifs at hstep
    all_goals
      obtain rfl := Option.some.inj hstep
      exact ⟨rfl, h.began, h.charged, h.limit, hcounted, fun r hr => .inl (hverified r hr),
        fun r hp => absurd hp (by simp [Driver.save]), h.idles, hfails, h.origin,
        fun _ hc => absurd hc (by simp [Driver.save])⟩
  · exact absurd hstep (by simp)

/-- A driver that is started again has what it had, where everything was saved. -/
theorem Watched.restart (h : Watched cfg startedAt w d) (hstep : d.next cfg .restart = some d')
    (hsensible : Sensible cfg d .restart) :
    Watched cfg startedAt (w.see cfg (d, .restart, d')) d' := by
  have hsee : w.see cfg (d, .restart, d') = w := by simp only [Watch.see]
  rw [hsee]
  obtain rfl := Option.some.inj hstep
  obtain ⟨hspend, hpoint⟩ := hsensible
  have hreturned : ∀ r, d.point ≠ .returned r .verified := fun r heq => by rwa [heq] at hpoint
  have hfile : d.file = d.mem := by
    have hf := h.file
    rwa [hspend] at hf
  rw [hfile]
  refine ⟨rfl, h.began, h.charged, h.limit, fun r => ?_, fun r hr => ?_, fun r hp => absurd hp (by simp),
    Nat.zero_le _, Nat.zero_le _, h.origin, fun _ hc => absurd hc (by simp)⟩
  · exact (Nat.le_add_right _ _).trans (h.counted r)
  · exact .inl ((h.verified r hr).resolve_right (hreturned r))

/-- The driver ends. -/
theorem Watched.exit (h : Watched cfg startedAt w d) (hstep : d.next cfg .exit = some d') :
    Watched cfg startedAt (w.see cfg (d, .exit, d')) d' := by
  have hsee : w.see cfg (d, .exit, d') = w := by simp only [Watch.see]
  rw [hsee]
  simp only [Driver.next] at hstep
  split at hstep
  · rename_i why hpoint
    obtain rfl := Option.some.inj hstep
    exact { h with file := rfl, chosen := fun c hc => absurd (hpoint.symm.trans hc) (by simp) }
  · exact absurd hstep (by simp)

/-- **A sensible step keeps what is known of the run.** -/
theorem Watched.step (h : Watched cfg startedAt w d) (hstep : SessionStep cfg d e d')
    (hsensible : Sensible cfg d e) : Watched cfg startedAt (w.see cfg (d, e, d')) d' := by
  cases e with
  | decide => exact h.decide hstep hsensible
  | arm => exact h.arm hstep hsensible
  | start => exact h.start hstep
  | returned => exact h.returned hstep
  | record => exact h.record hstep
  | exit => exact h.exit hstep
  | restart => exact h.restart hstep hsensible

/-! ## Runs -/

omit [DecidableEq Rng] in
/-- The window starts no later than the reading. -/
theorem Choice.armAt_le (c : Choice Rng) : c.armAt ≤ c.now := by
  unfold Choice.armAt
  split
  · exact min_le_right _ _
  · exact le_refl _

/-- A session that starts. -/
theorem watched_fresh (cfg : SessionConfig) (durationS : ℚ) (armed : Bool) (armDeadlineS : Option ℚ) :
    Watched cfg startedAt ({ charged := 0 } : Watch Rng)
      (fresh startedAt durationS armed armDeadlineS) where
  file := rfl
  began := rfl
  charged := rfl
  limit _ := Nat.zero_le _
  counted _ := Nat.le_refl 0
  verified _ h := absurd h (by simp)
  unproved _ h := absurd h (by simp [fresh])
  idles := Nat.le_refl 0
  fails := Nat.le_refl 0
  origin o h := by
    cases armed with
    | false => exact absurd h (by simp [fresh, newState, Saved.clockOrigin])
    | true =>
      obtain rfl : startedAt = o := by simpa [fresh, newState, Saved.clockOrigin] using h
      exact le_refl _
  chosen _ h := absurd h (by simp [fresh])

/-- One step more is watched. -/
theorem watch_snoc (t : Driver Rng × SessionEvent Rng × Driver Rng) :
    watch cfg d₀ (trace ++ [t]) = (watch cfg d₀ trace).see cfg t := by
  rw [watch, List.foldl_append]
  rfl

/-- What is known of a sensible run. -/
theorem watched_run {durationS : ℚ} {armed : Bool} {armDeadlineS : Option ℚ}
    (hd₀ : d₀ = fresh startedAt durationS armed armDeadlineS)
    (h : Runs.Run (d₀ = ·) (fun d e d' => SessionStep cfg d e d' ∧ Sensible cfg d e) trace d) :
    Watched cfg startedAt (watch cfg d₀ trace) d := by
  induction h with
  | nil h =>
    subst h hd₀
    exact watched_fresh cfg durationS armed armDeadlineS
  | snoc _ hs ih =>
    rw [watch_snoc]
    exact ih.step hs.1 hs.2

/-- The window that has started stays, and it starts only where a tip block was chosen. -/
theorem Watched.clockOrigin_step (h : Watched cfg startedAt w d) (hstep : SessionStep cfg d e d') :
    d'.mem.clockOrigin = d.mem.clockOrigin ∨
      (d.mem.clockOrigin = none ∧ ∃ c, d.point = .chosen c ∧ c.tip ∧
        d'.mem.clockOrigin = some c.armAt) := by
  unfold SessionStep at hstep
  cases e with
  | decide now accrued estimate work =>
    left
    have hframe : (d.charge cfg accrued).clockOrigin = d.mem.clockOrigin := by
      rw [charge_frame]
      rfl
    simp only [Driver.next] at hstep
    split at hstep
    · split at hstep <;> (try split_ifs at hstep) <;> obtain rfl := Option.some.inj hstep <;> exact hframe
    · exact absurd hstep (by simp)
  -- the only step that sets the origin, and it asks that there be none
  | arm =>
    right
    simp only [Driver.next] at hstep
    split at hstep
    · rename_i c hpoint
      split_ifs at hstep with harms
      obtain rfl := Option.some.inj hstep
      obtain ⟨htip, hnone⟩ := of_decide_eq_true harms
      exact ⟨hnone, c, hpoint, htip, (clockOrigin_armClock hnone).2⟩
    · exact absurd hstep (by simp)
  | start =>
    left
    simp only [Driver.next] at hstep
    split at hstep
    · split_ifs at hstep
      obtain rfl := Option.some.inj hstep
      rfl
    · exact absurd hstep (by simp)
  | returned =>
    left
    simp only [Driver.next] at hstep
    split at hstep
    · obtain rfl := Option.some.inj hstep
      rfl
    · exact absurd hstep (by simp)
  | record =>
    left
    simp only [Driver.next] at hstep
    split at hstep <;> (try split_ifs at hstep) <;> try obtain rfl := Option.some.inj hstep
    all_goals first | rfl | exact absurd hstep (by simp)
  | exit =>
    left
    simp only [Driver.next] at hstep
    split at hstep
    · obtain rfl := Option.some.inj hstep
      rfl
    · exact absurd hstep (by simp)
  | restart =>
    left
    obtain rfl := Option.some.inj hstep
    have hfile : d.file.clockOrigin = _ := congrArg Saved.clockOrigin h.file
    exact hfile

omit [DecidableEq Rng] in
/-- The planner leaves it to the counters to stop for a row of idles or failures. -/
theorem planNext_stop {s : Saved Rng} {now : ℚ} {work : Option (Offer Rng)} {estimate : Option ℚ}
    {why : Why} (h : planNext cfg s now work estimate = .stop why) : why ≠ .exhausted ∧ why ≠ .fleet := by
  simp only [planNext] at h
  repeat' split at h
  all_goals cases h
  all_goals exact ⟨nofun, nofun⟩

/-- A driver that stops for a row of idles or failures has counted them. -/
theorem counted_of_stops (hstep : SessionStep cfg d e d') {why : Why} (hstops : stops (d, e, d') why) :
    (why = .exhausted → cfg.MAX_CONSECUTIVE_EXHAUSTED_IDLES ≤ d'.exhaustedIdles) ∧
      (why = .fleet → cfg.MAX_CONSECUTIVE_FAILS ≤ d'.consecutiveFails) := by
  obtain ⟨hpoint, hexit⟩ := hstops
  unfold SessionStep at hstep
  cases e with
  | decide now accrued estimate work =>
    simp only [Driver.next] at hstep
    split at hstep
    · rename_i htop
      split at hstep
      · rename_i why' hplan
        obtain rfl := Option.some.inj hstep
        obtain rfl := Point.stopped.inj hpoint
        obtain ⟨hidles, hfleet⟩ := planNext_stop hplan
        exact ⟨fun h => absurd h hidles, fun h => absurd h hfleet⟩
      -- so many idles in a row that the loop gives up
      · split_ifs at hstep with hfull
        · obtain rfl := Option.some.inj hstep
          obtain rfl := Point.stopped.inj hpoint
          exact ⟨fun _ => hfull, fun h => absurd h (by simp)⟩
        · obtain rfl := Option.some.inj hstep
          exact absurd (htop.symm.trans hpoint) (by simp)
      · obtain rfl := Option.some.inj hstep
        exact absurd (htop.symm.trans hpoint) (by simp)
      · obtain rfl := Option.some.inj hstep
        exact absurd hpoint (by simp)
    · exact absurd hstep (by simp)
  | record =>
    simp only [Driver.next] at hstep
    split at hstep
    · obtain rfl := Option.some.inj hstep
      exact absurd hpoint (by simp [Driver.save])
    · obtain rfl := Option.some.inj hstep
      exact absurd hpoint (by simp [Driver.save])
    · split_ifs at hstep with hfull
      · obtain rfl := Option.some.inj hstep
        obtain rfl := Point.stopped.inj hpoint
        exact ⟨fun h => absurd h (by simp), fun _ => hfull⟩
      · obtain rfl := Option.some.inj hstep
        exact absurd hpoint (by simp [Driver.save])
    · exact absurd hstep (by simp)
  | exit => exact absurd rfl hexit
  | restart =>
    obtain rfl := Option.some.inj hstep
    exact absurd hpoint (by simp)
  | _ =>
    simp only [Driver.next] at hstep
    split at hstep
    · first
        | obtain rfl := Option.some.inj hstep
          exact absurd hpoint (by simp)
        | split_ifs at hstep
          obtain rfl := Option.some.inj hstep
          simp_all [Driver.save]
    · exact absurd hstep (by simp)

omit [DecidableEq Rng] in
/-- What is started was chosen. -/
theorem chosen_of_starting {c : Choice Rng} (h : starting d e = some c) :
    d.point = .chosen c ∧ d.arms c = false := by
  cases e with
  | start =>
    simp only [starting] at h
    split at h
    · rename_i c' hpoint
      split_ifs at h with harms
      obtain rfl := Option.some.inj h
      exact ⟨hpoint, by simpa using harms⟩
    · exact absurd h (by simp)
  | _ => exact absurd h (by simp [starting])

/-- **A session starts no block in vain and stops for a reason that holds, where no block is chosen
    while exhausted idles are counted, the window starts in time, and a restart finds everything
    saved.** -/
theorem proper {durationS : ℚ} {armed : Bool} {armDeadlineS : Option ℚ}
    (h : SessionRun cfg (fresh startedAt durationS armed armDeadlineS) trace d)
    (hsensible : ∀ t ∈ trace, Sensible cfg t.1 t.2.1) :
    Proper cfg (fresh startedAt durationS armed armDeadlineS) trace := by
  have hrun := h.restrict (q := fun d e _ => Sensible cfg d e) hsensible
  -- what the watch says holds before every step of the trace
  have hsplit : ∀ pre t post, trace = pre ++ t :: post →
      Watched cfg startedAt (watch cfg (fresh startedAt durationS armed armDeadlineS) pre) t.1 ∧
        SessionStep cfg t.1 t.2.1 t.2.2 ∧ Sensible cfg t.1 t.2.1 := fun pre t post heq =>
    have ⟨hpre, hstep⟩ := hrun.split heq
    ⟨watched_run rfl hpre, hstep⟩
  refine ⟨?_, ?_, ?_, ?_, ?_, ?_, ?_, ?_⟩
  -- what was proved was seen to be, and is not started again
  · rintro pre ⟨d, e, d'⟩ post heq c hc
    obtain ⟨hwatched, -⟩ := hsplit pre _ post heq
    have hpoint : d.point = .chosen c := (chosen_of_starting hc).1
    by_contra hverified
    rw [Bool.not_eq_false] at hverified
    exact (hwatched.chosen c hpoint).unproved
      ((hwatched.verified _ hverified).resolve_right (by simp [hpoint]))
  · intro rng
    have hwatched := watched_run rfl hrun
    have hcounted := hwatched.counted rng
    have hlimit := hwatched.limit rng
    omega
  · rintro pre ⟨d, e, d'⟩ post heq c hc
    obtain ⟨hwatched, -⟩ := hsplit pre _ post heq
    obtain ⟨hpoint, harms⟩ := chosen_of_starting hc
    exact ⟨hwatched.charged ▸ (hwatched.chosen c hpoint).budget, (hwatched.chosen c hpoint).time harms⟩
  · rintro pre ⟨d, e, d'⟩ post heq hstops
    obtain ⟨hwatched, hstep, hsens⟩ := hsplit pre _ post heq
    rw [watch_snoc]
    exact ((counted_of_stops hstep hstops).1 rfl).trans (hwatched.step hstep hsens).idles
  · rintro pre ⟨d, e, d'⟩ post heq hstops
    obtain ⟨hwatched, hstep, hsens⟩ := hsplit pre _ post heq
    rw [watch_snoc]
    have hpoint : d'.point = .stopped .fleet := hstops.1
    exact ((counted_of_stops hstep hstops).2 rfl).trans
      ((hwatched.step hstep hsens).fails_of (by simp [hpoint]))
  -- an origin that is set stays
  · rintro ⟨d, e, d'⟩ ht origin horigin
    obtain ⟨pre, post, heq⟩ := List.append_of_mem ht
    obtain ⟨hwatched, hstep, -⟩ := hsplit pre _ post heq
    obtain hsame | ⟨hnone, -⟩ := hwatched.clockOrigin_step hstep
    · exact hsame.trans horigin
    · exact absurd (hnone.symm.trans horigin) (by simp)
  · rintro ⟨d, e, d'⟩ ht origin horigin
    obtain ⟨pre, post, heq⟩ := List.append_of_mem ht
    obtain ⟨hwatched, hstep, hsens⟩ := hsplit pre _ post heq
    refine ⟨(hwatched.step hstep hsens).origin origin horigin, fun hnone => ?_⟩
    obtain hsame | ⟨-, c, hpoint, htip, harm⟩ := hwatched.clockOrigin_step hstep
    · exact absurd (hsame.symm.trans horigin) (by simp_all)
    · obtain rfl := Option.some.inj (harm.symm.trans horigin)
      exact ⟨c, hpoint, htip, c.armAt_le⟩
  · rintro ⟨d, e, d'⟩ ht c hc htip
    obtain ⟨-, harms⟩ := chosen_of_starting hc
    exact fun hnone => absurd (decide_eq_true ⟨htip, hnone⟩) (ne_true_of_eq_false harms)

/-! ## Idles that are not in a row -/

instance : Decidable (Sensible cfg d e) :=
  match e with
  | .decide now accrued estimate work => inferInstanceAs (Decidable
    ((d.planned cfg now accrued estimate work).proves → d.exhaustedIdles = 0))
  | .arm => inferInstanceAs (Decidable (∀ c ∈ d.point.choice, d.mem.startedAt ≤ c.armAt ∧
    tooLong c.estimate ((d.mem.armClock c.armAt).remainingS c.now) = false))
  | .restart =>
    match hpoint : d.point with
    | .returned _ .verified => .isFalse fun h => by simp [Sensible, hpoint] at h
    | .returned _ .failed | .returned _ .aborted | .top | .chosen _ | .proving _ | .stopped _ =>
      decidable_of_iff (d.file.spendUsd = d.mem.spendUsd) (by simp [Sensible, hpoint])
  | .start | .returned _ | .record | .exit => inferInstanceAs (Decidable True)

end Session

/-- A script that is played is a run. -/
theorem sessionRun_play {Rng : Type} [DecidableEq Rng] (cfg : SessionConfig) (d₀ : Driver Rng)
    (events : List (SessionEvent Rng)) :
    SessionRun cfg d₀ (Runs.play (Driver.next cfg) d₀ events).1 (Runs.play (Driver.next cfg) d₀ events).2 :=
  .play (fun _ _ _ h => h) rfl events

/-- A session of an hour that waits for a tip block, proves it, and is started again. -/
def tipHour : List (SessionEvent ℕ) :=
  [.decide 60 (some 1) none none,
    .decide 100 (some 1) (some 600) (some { range := some 7, tip := true, appearedAt := some 90 }), .arm,
    .start, .returned .verified, .record, .restart,
    .decide 400 none (some 600) (some { range := some 7, tip := true, appearedAt := some 90 })]

/-- So this session is proper. -/
theorem proper_tipHour : Proper {} (fresh 0 3600 false (some 7200))
    (Runs.play (Driver.next {}) (fresh 0 3600 false (some 7200)) tipHour).1 :=
  proper (sessionRun_play {} _ tipHour) (by decide +kernel)

/-- The board offers a block that is proved four times, then one that is not, then the first again. -/
def offeredAgain : List (SessionEvent ℕ) :=
  [.decide 0 none none (some { range := some 7 }), .start, .returned .verified, .record] ++
    List.replicate 4 (.decide 30 none none (some { range := some 7 })) ++
    [.decide 60 none none (some { range := some 8 }), .start, .returned .verified, .record]

/-- The run of these events. -/
def offered : List (Driver ℕ × SessionEvent ℕ × Driver ℕ) × Driver ℕ :=
  Runs.play (Driver.next {}) (fresh 0 3600 true none) offeredAgain

/-- The session goes on to stop. -/
theorem offered_stops :
    (offered.2.next {} (.decide 90 none none (some { range := some 7 }))).isSome := by
  decide +kernel

/-- And it stops, although the idles were not in a row. -/
theorem idles_are_counted_over_a_proved_block : ∃ trace d,
    SessionRun {} (fresh 0 3600 true none) trace (d : Driver ℕ) ∧
      ¬ Proper {} (fresh 0 3600 true none) trace := by
  have hrun : SessionRun {} (fresh 0 3600 true none) _ _ :=
    (sessionRun_play {} _ offeredAgain).snoc (Option.some_get offered_stops).symm
  refine ⟨_, _, hrun, fun h => ?_⟩
  have hidles := h.exhausted _ _ [] rfl ⟨by decide +kernel, by exact nofun⟩
  exact absurd hidles (by decide +kernel)

end Tip
end Hazync
