import Hazync.Lib.Runs
import Mathlib.Algebra.Order.Ring.Rat
import Mathlib.Data.Rat.Defs
import Mathlib.Logic.Function.Basic

/-!
# A proving session (`coordinator/tip_session.py`)

A session proves one block after the other with one fleet, and stops. What it knows is saved after
every change, and a session that is started again has what was saved. Two counters are of the loop and
are not saved.

## What is saved

A session runs for hours on rented cards, and its driver may be killed at any time. So everything
that it must know is in a file: when it started, from when the window counts, what was proved, how
often each block was tried, and what it has spent. The file is written after each change, and a
driver that is started again reads it. What is not in it are the counters of failures and idles in a
row, which start again at 0.

The loop is a cycle through a few points. At the top it charges what has accrued, asks for work and
makes a plan: to prove a block, to idle, or to stop. A block that was chosen may first start the
window, which is saved; then its attempt is recorded, which is saved; then it is proved, and the
outcome is recorded and saved. `Point` has these places, and the driver may be restarted at each of
them.

Numbers and times are rationals, and rounding is a function, since the file has four decimals. A
number that Python takes for false, such as a budget of 0, is the same as none; this is `truthy`.
-/

namespace Hazync
namespace Tip

section Session

variable {Rng : Type} [DecidableEq Rng]

/-! ## The state -/

/-- So often is a block tried, if it fails each time. -/
def MAX_ATTEMPTS : ℕ := 3

/-- What is set for a session. `round` rounds to four decimals, as `add_spend` does. -/
structure SessionConfig where
  MAX_CONSECUTIVE_FAILS : ℕ := 3
  MAX_CONSECUTIVE_EXHAUSTED_IDLES : ℕ := 5
  budgetUsd : Option ℚ := none
  round : ℚ → ℚ := id

/-- The session file. `armedAt` is absent from an old one. Of a block it has whether it was proved. -/
structure Saved (Rng : Type) where
  startedAt : ℚ
  durationS : ℚ
  armedAt : Option (Option ℚ)
  armDeadlineS : Option ℚ := none
  blocks : Rng → Option Bool := fun _ => none
  attempts : Rng → ℕ := fun _ => 0
  spendUsd : ℚ := 0

/-- A number that Python takes for true, and its value. -/
def truthy (x : Option ℚ) : Option ℚ := x.filter (· ≠ 0)

/-- `new_state` -/
def newState (startedAt durationS : ℚ) (armed : Bool) (armDeadlineS : Option ℚ) : Saved Rng :=
  { startedAt
    durationS
    armedAt := some (if armed then some startedAt else none)
    armDeadlineS := truthy armDeadlineS }

namespace Saved

variable (s : Saved Rng)

/-- `clock_origin` -/
def clockOrigin : Option ℚ :=
  match s.armedAt with
  | none => some s.startedAt
  | some at_ => at_

/-- `arm_clock` -/
def armClock (at_ : ℚ) : Saved Rng :=
  match s.clockOrigin with
  | some _ => s
  | none => { s with armedAt := some (some at_) }

/-- `waited_s` -/
def waitedS (now : ℚ) : ℚ := max 0 (s.clockOrigin.getD now - s.startedAt)

/-- `elapsed_s` -/
def elapsedS (now : ℚ) : ℚ :=
  match s.clockOrigin with
  | none => 0
  | some origin => max 0 (now - origin)

/-- `remaining_s` -/
def remainingS (now : ℚ) : ℚ := s.durationS - s.elapsedS now

/-- `record_attempt` -/
def recordAttempt (rng : Rng) : Saved Rng :=
  { s with attempts := Function.update s.attempts rng (s.attempts rng + 1) }

/-- `undo_attempt`. A count of 0 is the same as none. -/
def undoAttempt (rng : Rng) : Saved Rng :=
  { s with attempts := Function.update s.attempts rng (s.attempts rng - 1) }

/-- `record_block` -/
def recordBlock (rng : Rng) (ok : Bool) : Saved Rng :=
  { s with blocks := Function.update s.blocks rng (some ok) }

/-- `add_spend` -/
def addSpend (cfg : SessionConfig) (usd : ℚ) : Saved Rng :=
  { s with spendUsd := cfg.round (s.spendUsd + usd) }

end Saved

/-! ## What comes next -/

/-- What `work_fn` offers. -/
structure Offer (Rng : Type) where
  range : Option Rng
  tip : Bool := false
  appearedAt : Option ℚ := none

/-- Why a session stops. -/
inductive Why where
  | over | deadline | budget | estimate | exhausted | fleet
  deriving DecidableEq

/-- What the loop is going to do. -/
inductive SessionPlan (Rng : Type) where
  | prove (range : Rng) (tip : Bool) (appearedAt : Option ℚ)
  | idle (exhausted : Bool)
  | stop (why : Why)
  deriving DecidableEq

/-- The budget is spent. -/
def overBudget (cfg : SessionConfig) (spent : ℚ) : Bool :=
  (truthy cfg.budgetUsd).any fun budget => budget ≤ spent

/-- The estimate is longer than what is left. -/
def tooLong (estimate : Option ℚ) (left : ℚ) : Bool := (truthy estimate).any fun est => left < est

/-- `plan_next` -/
def planNext (cfg : SessionConfig) (s : Saved Rng) (now : ℚ) (work : Option (Offer Rng))
    (estimate : Option ℚ) : SessionPlan Rng :=
  let left := s.remainingS now
  if left ≤ 0 then .stop .over
  else if s.clockOrigin = none ∧ (truthy s.armDeadlineS).any fun d => d ≤ s.waitedS now then
    .stop .deadline
  else if overBudget cfg s.spendUsd then .stop .budget
  else
    match work with
    | none => .idle false
    | some offer =>
      match offer.range with
      | none => .idle false
      | some rng =>
        if s.blocks rng = some true then .idle true
        else if MAX_ATTEMPTS ≤ s.attempts rng then .idle true
        else if tooLong estimate left then .stop .estimate
        else .prove rng offer.tip offer.appearedAt

/-! ## The loop -/

/-- How `prove` ends. One that raises has failed. -/
inductive ProveOutcome where
  | verified | failed | aborted
  deriving DecidableEq

/-- A block that is to be proved, with the reading of the clock and the estimate that it was chosen
    by. -/
structure Choice (Rng : Type) where
  range : Rng
  tip : Bool
  appearedAt : Option ℚ
  now : ℚ
  estimate : Option ℚ
  deriving DecidableEq

/-- The instant from which the window is to count, `_arm_at`. -/
def Choice.armAt (c : Choice Rng) : ℚ :=
  match c.appearedAt with
  | some appeared => min appeared c.now
  | none => c.now

/-- Where `run_session` is. -/
inductive Point (Rng : Type) where
  | top
  | chosen (choice : Choice Rng)
  | proving (range : Rng)
  | returned (range : Rng) (outcome : ProveOutcome)
  | stopped (why : Why)
  deriving DecidableEq

/-- A driver: what it has in memory, and what is in the file. -/
structure Driver (Rng : Type) where
  mem : Saved Rng
  file : Saved Rng
  consecutiveFails : ℕ := 0
  exhaustedIdles : ℕ := 0
  point : Point Rng := .top

/-- What happens next: the loop starts over, with what it charges, the estimate and the offer, or it
    goes on with what it chose, or the driver is started again from the file. -/
inductive SessionEvent (Rng : Type) where
  | decide (now : ℚ) (accrued : Option ℚ) (estimate : Option ℚ) (work : Option (Offer Rng))
  | arm
  | start
  | returned (outcome : ProveOutcome)
  | record
  | exit
  | restart

namespace Driver

variable (cfg : SessionConfig) (d : Driver Rng)

/-- `save` -/
def save : Driver Rng := { d with file := d.mem }

/-- The charge at the top of the loop, which is skipped where `spend_fn` raises. -/
def charge (accrued : Option ℚ) : Saved Rng :=
  match accrued with
  | none => d.mem
  | some usd => d.mem.addSpend cfg usd

/-- The plan that the loop makes at the top. -/
def planned (now : ℚ) (accrued estimate : Option ℚ) (work : Option (Offer Rng)) : SessionPlan Rng :=
  planNext cfg (d.charge cfg accrued) now work estimate

/-- The choice starts the window. -/
def arms (c : Choice Rng) : Bool := c.tip ∧ d.mem.clockOrigin = none

/-- The next step of `run_session`. -/
def next : SessionEvent Rng → Option (Driver Rng)
  | .decide now accrued estimate work =>
    match d.point with
    | .top =>
      let charged := { d with mem := d.charge cfg accrued }
      match d.planned cfg now accrued estimate work with
      | .stop why => some { charged with point := .stopped why }
      | .idle true =>
        if cfg.MAX_CONSECUTIVE_EXHAUSTED_IDLES ≤ d.exhaustedIdles + 1 then
          some { charged with exhaustedIdles := d.exhaustedIdles + 1, point := .stopped .exhausted }
        else some { charged with exhaustedIdles := d.exhaustedIdles + 1 }
      | .idle false => some { charged with exhaustedIdles := 0 }
      | .prove range tip appearedAt =>
        some { charged with point := .chosen { range, tip, appearedAt, now, estimate } }
    | _ => none
  | .arm =>
    match d.point with
    | .chosen c => if d.arms c then some { d with mem := d.mem.armClock c.armAt }.save else none
    | _ => none
  | .start =>
    match d.point with
    | .chosen c =>
      if d.arms c then none
      else some { d with mem := d.mem.recordAttempt c.range, point := .proving c.range }.save
    | _ => none
  | .returned outcome =>
    match d.point with
    | .proving rng => some { d with point := .returned rng outcome }
    | _ => none
  | .record =>
    match d.point with
    | .returned rng .aborted => some { d with mem := d.mem.undoAttempt rng, point := .top }.save
    | .returned rng .verified =>
      some { d with mem := d.mem.recordBlock rng true, consecutiveFails := 0, point := .top }.save
    | .returned rng .failed =>
      let recorded := { d with
        mem := d.mem.recordBlock rng false
        consecutiveFails := d.consecutiveFails + 1 }
      if cfg.MAX_CONSECUTIVE_FAILS ≤ d.consecutiveFails + 1 then
        some { recorded with point := .stopped .fleet }.save
      else some { recorded with point := .top }.save
    | _ => none
  | .exit =>
    match d.point with
    | .stopped _ => some d.save
    | _ => none
  | .restart => some { mem := d.file, file := d.file }

end Driver

/-- A step, as a relation. -/
def SessionStep (cfg : SessionConfig) (d : Driver Rng) (e : SessionEvent Rng) (d' : Driver Rng) : Prop :=
  d.next cfg e = some d'

/-- A session that starts with `new_state`, which is saved. -/
def fresh (startedAt durationS : ℚ) (armed : Bool) (armDeadlineS : Option ℚ) : Driver Rng :=
  { mem := newState startedAt durationS armed armDeadlineS
    file := newState startedAt durationS armed armDeadlineS }

/-- A run of the driver, with its restarts. -/
def SessionRun (cfg : SessionConfig) (start : Driver Rng) :
    List (Driver Rng × SessionEvent Rng × Driver Rng) → Driver Rng → Prop :=
  Runs.Run (start = ·) (SessionStep cfg)

end Session

end Tip
end Hazync
