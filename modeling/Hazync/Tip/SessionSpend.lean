import Hazync.Lib.Rounding
import Hazync.Tip.SessionRuns
import Mathlib.Algebra.Order.Archimedean.Basic
import Mathlib.Data.Rat.Floor

/-!
# What a session has spent (`run_session`, `coordinator/tip_session.py`)

The pods bill all the time, and the session charges what has accrued at the top of its loop. So what
is in the file when the session returns is what had accrued when the loop began for the last time,
which is after the last block. Each charge is rounded, and the errors add up.

## When the meter is read

A pod is billed by the second, whether it proves or not. The session reads the meter at one place,
the top of its loop: `spend_fn` gives what has accrued since its last call, which is added and
rounded. A block is proved between two readings, and what it has cost is charged at the next. So
after the last block there has to be one more turn of the loop. There is, in every case but one.
Where the session gives up because of too many failures in a row, it stops right after the last
prove, and that prove is not charged. The statement excludes this case.

## What rounding does

Each reading is rounded to four decimals after it was added, so the error is at most half of the
last decimal each time. `near` is this bound, and it grows with the number of turns. It cannot be
improved upon in general: an idle loop that turns often enough, and reads 0.00004 each time, is
never charged anything (`idled`), and what is lost has no bound (`spend_lost_unbounded`).
-/

namespace Hazync
namespace Tip

section Session

variable {Rng : Type} [DecidableEq Rng]

/-- Amounts are rounded to four decimals. -/
def SessionConfig.rounded (cfg : SessionConfig) : SessionConfig :=
  { cfg with round := Rounding.roundTo 10000 }

/-- A session and its bill: what has accrued since it began, what had when `spend_fn` was last
called and when `prove` last returned, and how often the loop has begun. -/
structure Metered (Rng : Type) where
  driver : Driver Rng
  bill : ℚ := 0
  charged : ℚ := 0
  proved : ℚ := 0
  loops : ℕ := 0

namespace Metered

variable (m : Metered Rng) (bill : ℚ)

/-- `spend_fn` gives what has accrued since its last call. The session is not started again. -/
def Gives : SessionEvent Rng → Prop
  | .decide _ accrued _ _ => accrued = some (bill - m.charged)
  | .restart => False
  | _ => True

/-- The meter after a step. -/
def after (d : Driver Rng) : SessionEvent Rng → Metered Rng
  | .decide .. => { m with driver := d, bill, charged := bill, loops := m.loops + 1 }
  | .returned _ => { m with driver := d, bill, proved := bill }
  | _ => { m with driver := d, bill }

end Metered

/-- A step, and the bill when it is done. -/
def MeterStep (cfg : SessionConfig) (m : Metered Rng) (e : SessionEvent Rng × ℚ)
    (m' : Metered Rng) : Prop :=
  m.bill ≤ e.2 ∧ m.Gives e.2 e.1 ∧ ∃ d, SessionStep cfg m.driver e.1 d ∧ m' = m.after e.2 d e.1

/-- A session that begins with what is saved. -/
def beginning (saved : Saved Rng) : Metered Rng := { driver := { mem := saved, file := saved } }

abbrev MeterRun (cfg : SessionConfig) (saved : Saved Rng) :=
  Runs.Run (beginning saved = ·) (MeterStep cfg)

/-! ## What a step does to the spend -/

variable {cfg : SessionConfig} {d d' : Driver Rng} {e : SessionEvent Rng} {why : Why}

/-- The top of the loop charges, and it does not find fault with the fleet. -/
theorem decide_spend {now : ℚ} {accrued estimate : Option ℚ} {work : Option (Offer Rng)}
    (h : SessionStep cfg d (.decide now accrued estimate work) d') :
    d'.mem = d.charge cfg accrued ∧ d'.point ≠ .stopped .fleet := by
  unfold SessionStep Driver.next at h
  dsimp only at h
  split at h
  · rename_i hpoint
    split at h
    · rename_i why hplan
      obtain rfl := Option.some.inj h
      refine ⟨rfl, ?_⟩
      intro heq
      obtain rfl := Point.stopped.inj heq
      exact (planNext_stop hplan).2 rfl
    · split_ifs at h
      · obtain rfl := Option.some.inj h
        exact ⟨rfl, by simp⟩
      · obtain rfl := Option.some.inj h
        exact ⟨rfl, by simp [hpoint]⟩
    · obtain rfl := Option.some.inj h
      exact ⟨rfl, by simp [hpoint]⟩
    · obtain rfl := Option.some.inj h
      exact ⟨rfl, by simp⟩
  · cases h

/-- No other step changes what is spent, and only the fleet's fault stops a session in it. -/
theorem keeps_spend (h : SessionStep cfg d e d') (hrestart : e ≠ .restart)
    (hdecide : ∀ now accrued estimate work, e ≠ .decide now accrued estimate work) :
    d'.mem.spendUsd = d.mem.spendUsd ∧
      ∀ why, d'.point = .stopped why → why = .fleet ∨ (d.point = .stopped why ∧ e = .exit) := by
  unfold SessionStep Driver.next at h
  cases e with
  | decide now accrued estimate work => exact absurd rfl (hdecide now accrued estimate work)
  | restart => exact absurd rfl hrestart
  | arm =>
    dsimp only at h
    split at h
    · rename_i c hpoint
      split_ifs at h
      obtain rfl := Option.some.inj h
      refine ⟨?_, ?_⟩
      · unfold Driver.save Saved.armClock
        dsimp only
        split <;> rfl
      · intro why hwhy
        exact absurd (hpoint.symm.trans hwhy) (by simp)
    · cases h
  | start =>
    dsimp only at h
    split at h
    · split_ifs at h
      obtain rfl := Option.some.inj h
      exact ⟨rfl, fun why hwhy => by cases hwhy⟩
    · cases h
  | returned outcome =>
    dsimp only at h
    split at h
    · obtain rfl := Option.some.inj h
      exact ⟨rfl, fun why hwhy => by cases hwhy⟩
    · cases h
  -- a stop here is the one of a fleet that failed
  | record =>
    dsimp only at h
    split at h
    · obtain rfl := Option.some.inj h
      exact ⟨rfl, fun why hwhy => by cases hwhy⟩
    · obtain rfl := Option.some.inj h
      exact ⟨rfl, fun why hwhy => by cases hwhy⟩
    · split_ifs at h
      · obtain rfl := Option.some.inj h
        refine ⟨rfl, ?_⟩
        intro why hwhy
        exact .inl (Point.stopped.inj hwhy).symm
      · obtain rfl := Option.some.inj h
        exact ⟨rfl, fun why hwhy => by cases hwhy⟩
    · cases h
  | exit =>
    dsimp only at h
    split at h
    · obtain rfl := Option.some.inj h
      exact ⟨rfl, fun why hwhy => .inr ⟨hwhy, rfl⟩⟩
    · cases h

/-! ## What the meter says -/

/-- What is charged is near what is billed, and where the session has stopped, but for the fleet's
fault, the last block is in it. -/
structure Billed (saved : Saved Rng) (m : Metered Rng) : Prop where
  /-- Each rounding, to a hundredth of a cent, is off by half of that at most. -/
  near : |m.driver.mem.spendUsd - (saved.spendUsd + m.charged)| ≤ m.loops / 20000
  /-- The session charges nothing that was not billed. -/
  charged : m.charged ≤ m.bill
  proved : m.proved ≤ m.bill
  /-- Where it stops for another reason than the fleet's fault, what the last prove has cost is
      charged. -/
  stopped : ∀ why, m.driver.point = .stopped why → why = .fleet ∨ m.proved ≤ m.charged

variable {saved : Saved Rng} {m m' : Metered Rng} {event : SessionEvent Rng × ℚ}

omit [DecidableEq Rng] in
/-- A rounding is off by half a unit at most. -/
theorem abs_round_sub_le (cfg : SessionConfig) (usd : ℚ) :
    |cfg.rounded.round usd - usd| ≤ 1 / 20000 := by
  have hround := Rounding.abs_roundTo_sub_le (n := 10000) (by decide) usd
  have hunit : (1 : ℚ) / (2 * (10000 : ℕ)) = 1 / 20000 := by norm_num
  rw [hunit] at hround
  exact hround

/-- A step of the metered session. -/
theorem Billed.step (hm : Billed saved m) (hstep : MeterStep cfg.rounded m event m') :
    Billed saved m' := by
  obtain ⟨e, bill⟩ := event
  obtain ⟨hbill, hgives, d, hd, rfl⟩ := hstep
  dsimp only at hbill hgives hd ⊢
  -- only the top of the loop charges, and it rounds once
  by_cases hdecide : ∃ now accrued estimate work, e = .decide now accrued estimate work
  · obtain ⟨now, accrued, estimate, work, rfl⟩ := hdecide
    have haccrued : accrued = some (bill - m.charged) := hgives
    obtain ⟨hmem, hpoint⟩ := decide_spend hd
    refine ⟨?_, le_rfl, hm.proved.trans hbill, ?_⟩
    · have hnear := Rounding.near_add (abs_round_sub_le cfg) hm.near (bill - m.charged)
      have hspend : d.mem.spendUsd =
          cfg.rounded.round (m.driver.mem.spendUsd + (bill - m.charged)) := by
        rw [hmem, haccrued]
        rfl
      have hexact : saved.spendUsd + m.charged + (bill - m.charged) = saved.spendUsd + bill := by
        ring
      have hloops : (m.loops : ℚ) / 20000 + 1 / 20000 = ((m.loops + 1 : ℕ) : ℚ) / 20000 := by
        push_cast
        ring
      rw [← hspend, hexact, hloops] at hnear
      exact hnear
    · exact fun _ _ => .inr (hm.proved.trans hbill)
  · have hother : ∀ now accrued estimate work, e ≠ .decide now accrued estimate work := by
      intro now accrued estimate work heq
      exact hdecide ⟨now, accrued, estimate, work, heq⟩
    have hrestart : e ≠ .restart := by
      rintro rfl
      exact hgives
    -- the other steps charge nothing
    obtain ⟨hspend, hstopped⟩ := keeps_spend hd hrestart hother
    have hnear : |d.mem.spendUsd - (saved.spendUsd + m.charged)| ≤ m.loops / 20000 := by
      rw [hspend]
      exact hm.near
    have hkept : e ≠ .exit → ∀ why, d.point = .stopped why → why = .fleet := by
      intro hexit why hwhy
      exact (hstopped why hwhy).resolve_right fun h => hexit h.2
    cases e with
    | decide now accrued estimate work => exact absurd rfl (hother now accrued estimate work)
    | restart => exact absurd rfl hrestart
    | returned outcome =>
      exact ⟨hnear, hm.charged.trans hbill, le_rfl, fun why hwhy => .inl (hkept nofun why hwhy)⟩
    | exit =>
      refine ⟨hnear, hm.charged.trans hbill, hm.proved.trans hbill, ?_⟩
      intro why hwhy
      rcases hstopped why hwhy with hfleet | ⟨hold, -⟩
      · exact .inl hfleet
      · exact hm.stopped why hold
    | arm | start | record =>
      exact ⟨hnear, hm.charged.trans hbill, hm.proved.trans hbill,
        fun why hwhy => .inl (hkept nofun why hwhy)⟩

/-- Along a run. -/
theorem Billed.of_run {trace : List (Metered Rng × (SessionEvent Rng × ℚ) × Metered Rng)}
    (h : MeterRun cfg.rounded saved trace m) : Billed saved m := by
  induction h with
  | nil hinit =>
    rw [← hinit]
    refine ⟨?_, le_rfl, le_rfl, ?_⟩
    · simp [beginning]
    · intro why hwhy
      cases hwhy
  | snoc _ hstep ih => exact ih.step hstep

/-- **What is saved when a session returns covers its last block**, and is near what has accrued
when the loop began for the last time. -/
theorem saved_spend_near
    {trace : List (Metered Rng × (SessionEvent Rng × ℚ) × Metered Rng)} {bill : ℚ}
    (h : MeterRun cfg.rounded saved trace m) (hexit : MeterStep cfg.rounded m (.exit, bill) m')
    (hguard : m.driver.point ≠ .stopped .fleet) :
    |m'.driver.file.spendUsd - (saved.spendUsd + m'.charged)| ≤ m'.loops / 20000 ∧
      m'.proved ≤ m'.charged ∧ m'.charged ≤ m'.bill := by
  have hbilled := (Billed.of_run h).step hexit
  obtain ⟨-, -, d, hd, rfl⟩ := hexit
  unfold SessionStep Driver.next at hd
  dsimp only at hd
  split at hd
  · rename_i why hpoint
    obtain rfl := Option.some.inj hd
    refine ⟨hbilled.near, ?_, hbilled.charged⟩
    rcases hbilled.stopped why hpoint with hfleet | hle
    · rw [hfleet] at hpoint
      exact absurd hpoint hguard
    · exact hle
  · cases hd

end Session

/-! ## Small amounts -/

/-- Amounts of 0.00004, at any of which the file stays at 0. -/
def tiny : ℚ := 1 / 25000

/-- A session of an hour that has just begun. -/
def hour : Saved ℕ := newState 0 3600 true none

/-- A session that has been idle `n` times. -/
def idled (n : ℕ) : Metered ℕ where
  driver := { mem := hour, file := hour }
  bill := n * tiny
  charged := n * tiny
  loops := n

/-- Each reading gives one of these amounts. -/
theorem tiny_gives (n : ℕ) : tiny = ((n + 1 : ℕ) : ℚ) * tiny - n * tiny := by
  push_cast
  ring

/-- One more amount is charged, and nothing comes of it. -/
theorem decide_tiny {now : ℚ} {work : Option (Offer ℕ)} {d d' : Driver ℕ}
    (hspend : d.mem.spendUsd = 0)
    (h : d.next ({} : SessionConfig).rounded (.decide now none none work) = some d') :
    SessionStep ({} : SessionConfig).rounded d (.decide now (some tiny) none work) d' := by
  have hlost : Rounding.roundTo 10000 tiny = 0 :=
    Rounding.roundTo_of_small (by norm_num [tiny]) (by norm_num [tiny])
  have hcharge : d.charge ({} : SessionConfig).rounded (some tiny) = d.mem := by
    unfold Driver.charge Saved.addSpend SessionConfig.rounded
    dsimp only
    rw [hspend, zero_add, hlost, ← hspend]
  unfold SessionStep
  rw [← h]
  unfold Driver.next
  dsimp only
  unfold Driver.planned
  rw [hcharge]
  rfl

/-- An idle that reads nothing changes nothing. -/
theorem idle_next (n : ℕ) :
    (idled n).driver.next ({} : SessionConfig).rounded (.decide 0 none none none) =
      some (idled n).driver := by
  have hplan : planNext ({} : SessionConfig).rounded hour 0 none none = .idle false := by
    simp [planNext, hour, newState, Saved.remainingS, Saved.elapsedS, Saved.clockOrigin,
      overBudget, truthy, SessionConfig.rounded]
  unfold Driver.next
  dsimp only [idled]
  have hplanned : ({ mem := hour, file := hour } : Driver ℕ).planned
      ({} : SessionConfig).rounded 0 none none none = .idle false := hplan
  rw [hplanned]
  rfl

/-- A session can be idle so often. -/
theorem idled_run (n : ℕ) :
    ∃ trace, MeterRun ({} : SessionConfig).rounded hour trace (idled n) := by
  induction n with
  | zero =>
    refine ⟨[], .nil ?_⟩
    simp [beginning, idled]
  | succ n ih =>
    obtain ⟨trace, hrun⟩ := ih
    refine ⟨_, hrun.snoc (e := (.decide 0 (some tiny) none none, ((n + 1 : ℕ) : ℚ) * tiny)) ?_⟩
    refine ⟨?_, congrArg some (tiny_gives n), (idled n).driver, decide_tiny rfl (idle_next n), rfl⟩
    have hpos : (0 : ℚ) ≤ tiny := by norm_num [tiny]
    show (n : ℚ) * tiny ≤ ((n + 1 : ℕ) : ℚ) * tiny
    exact mul_le_mul_of_nonneg_right (by simp) hpos

/-- What is saved while the block 7 is proved. -/
def attempted : Saved ℕ := hour.recordAttempt 7

/-- And after it. -/
def done : Saved ℕ := attempted.recordBlock 7 true

/-- The choice of the block. -/
def seven : Choice ℕ := ⟨7, false, none, 0, none⟩

/-- The session at a point of its block, or after it. -/
def atPoint (s : Saved ℕ) (p : Point ℕ) (billed charged proved : ℚ) (loops : ℕ) : Metered ℕ where
  driver := { mem := s, file := s, point := p }
  bill := billed
  charged := charged
  proved := proved
  loops := loops

/-- A block is offered and chosen. -/
theorem choose_next (n : ℕ) :
    (idled n).driver.next ({} : SessionConfig).rounded
      (.decide 0 none none (some { range := some 7 })) =
      some { mem := hour, file := hour, point := .chosen seven } := by
  have hplan : planNext ({} : SessionConfig).rounded hour 0 (some { range := some 7 }) none =
      .prove 7 false none := by
    simp [planNext, hour, newState, Saved.remainingS, Saved.elapsedS, Saved.clockOrigin,
      overBudget, truthy, SessionConfig.rounded, tooLong, MAX_ATTEMPTS]
  unfold Driver.next
  dsimp only [idled]
  have hplanned : ({ mem := hour, file := hour } : Driver ℕ).planned
      ({} : SessionConfig).rounded 0 none none (some { range := some 7 }) =
      .prove 7 false none := hplan
  rw [hplanned]
  rfl

/-- The window closes. -/
theorem stop_next :
    ({ mem := done, file := done } : Driver ℕ).next ({} : SessionConfig).rounded
      (.decide 3600 none none none) =
      some { mem := done, file := done, point := .stopped .over } := by
  have hplan : planNext ({} : SessionConfig).rounded done 3600 none none = .stop .over := by
    simp [planNext, done, attempted, Saved.recordBlock, Saved.recordAttempt, hour, newState,
      Saved.remainingS, Saved.elapsedS, Saved.clockOrigin]
  unfold Driver.next
  dsimp only
  have hplanned : ({ mem := done, file := done } : Driver ℕ).planned
      ({} : SessionConfig).rounded 3600 none none none = .stop .over := hplan
  rw [hplanned]
  rfl

/-- After `n` idles a block is proved, and the window closes. -/
theorem quiet_run (n : ℕ) : ∃ trace m m' bill,
    MeterRun ({} : SessionConfig).rounded hour trace m ∧
    MeterStep ({} : SessionConfig).rounded m (.exit, bill) m' ∧
    m.driver.point ≠ .stopped .fleet ∧ m'.driver.file.spendUsd = 0 ∧
    m'.proved = ((n + 2 : ℕ) : ℚ) * tiny := by
  obtain ⟨trace, hidle⟩ := idled_run n
  have hpos : (0 : ℚ) ≤ tiny := by norm_num [tiny]
  have hmore : ∀ k : ℕ, (k : ℚ) * tiny ≤ ((k + 1 : ℕ) : ℚ) * tiny :=
    fun k => mul_le_mul_of_nonneg_right (by simp) hpos
  let one : ℚ := ((n + 1 : ℕ) : ℚ) * tiny
  let two : ℚ := ((n + 2 : ℕ) : ℚ) * tiny
  have hchosen : MeterStep ({} : SessionConfig).rounded (idled n)
      (.decide 0 (some tiny) none (some { range := some 7 }), one)
      (atPoint hour (.chosen seven) one one 0 (n + 1)) :=
    ⟨hmore n, congrArg some (tiny_gives n), _, decide_tiny rfl (choose_next n), rfl⟩
  have hstart : MeterStep ({} : SessionConfig).rounded
      (atPoint hour (.chosen seven) one one 0 (n + 1)) (.start, one)
      (atPoint attempted (.proving 7) one one 0 (n + 1)) := ⟨le_rfl, trivial, _, rfl, rfl⟩
  have hreturned : MeterStep ({} : SessionConfig).rounded
      (atPoint attempted (.proving 7) one one 0 (n + 1)) (.returned .verified, two)
      (atPoint attempted (.returned 7 .verified) two one two (n + 1)) :=
    ⟨hmore (n + 1), trivial, _, rfl, rfl⟩
  have hrecord : MeterStep ({} : SessionConfig).rounded
      (atPoint attempted (.returned 7 .verified) two one two (n + 1)) (.record, two)
      (atPoint done .top two one two (n + 1)) := ⟨le_rfl, trivial, _, rfl, rfl⟩
  have hstop : MeterStep ({} : SessionConfig).rounded (atPoint done .top two one two (n + 1))
      (.decide 3600 (some tiny) none none, two)
      (atPoint done (.stopped .over) two two two (n + 2)) :=
    ⟨le_rfl, congrArg some (tiny_gives (n + 1)), _, decide_tiny rfl stop_next, rfl⟩
  have hexit : MeterStep ({} : SessionConfig).rounded
      (atPoint done (.stopped .over) two two two (n + 2)) (.exit, two)
      (atPoint done (.stopped .over) two two two (n + 2)) := ⟨le_rfl, trivial, _, rfl, rfl⟩
  have hrun := ((((hidle.snoc hchosen).snoc hstart).snoc hreturned).snoc hrecord).snoc hstop
  exact ⟨_, _, _, two, hrun, hexit, nofun, rfl, rfl⟩

/-- No bound holds for what is lost. -/
theorem spend_lost_unbounded : ¬ ∃ bound : ℚ, ∀ trace (m m' : Metered ℕ) bill,
    MeterRun ({} : SessionConfig).rounded hour trace m →
    MeterStep ({} : SessionConfig).rounded m (.exit, bill) m' →
    m.driver.point ≠ .stopped .fleet → m'.proved ≤ m'.driver.file.spendUsd + bound := by
  intro ⟨bound, hbound⟩
  obtain ⟨n, hn⟩ := exists_nat_gt (bound * 25000)
  obtain ⟨trace, m, m', bill, hrun, hexit, hguard, hspend, hproved⟩ := quiet_run n
  have hle := hbound trace m m' bill hrun hexit hguard
  rw [hspend, hproved, zero_add] at hle
  unfold tiny at hle
  push_cast at hle
  linarith

/-- A session that ends after one block. -/
theorem saved_spend_near_quiet : ∃ m' : Metered ℕ,
    |m'.driver.file.spendUsd - (hour.spendUsd + m'.charged)| ≤ m'.loops / 20000 ∧
      m'.proved ≤ m'.charged ∧ m'.charged ≤ m'.bill := by
  obtain ⟨trace, m, m', bill, hrun, hexit, hguard, -⟩ := quiet_run 0
  exact ⟨m', saved_spend_near hrun hexit hguard⟩

end Tip
end Hazync
