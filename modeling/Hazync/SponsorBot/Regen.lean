import Hazync.Lib.KeyedTable
import Hazync.Lib.Runs
import Mathlib.Data.List.MinMax
import Mathlib.Data.List.Sort
import Mathlib.Data.Prod.Lex
import Mathlib.Data.Rat.Defs
import Mathlib.Algebra.Order.Ring.Rat

/-!
# The regeneration queue (`coordinator/sponsor_bot.py`)

A block that is paid for and has no bundle is queued, and the bot starts a replay for it, one at a
time. The queue is in the bot's database and outlives it, and so does a replay. A bot that starts
marks failed what an earlier one left in flight, unless a bridge has the pid that is recorded.

## What a replay is for

Bundles are made while the bridge walks the chain, and are pruned later. If somebody pays for a
block whose bundle is gone, the bridge has to be run again over that part of the chain, from an
archived state below it: a rung. `plan` chooses the highest rung below the lowest of the heights
that are wanted, and says which of them have none. The bot asks for one height at a time, and
refuses it if there is no rung, since the replay would have to start at the genesis block.

Only one bridge may run on the box, as it needs the memory. So the bot looks for other bridges
before it starts one, and there is at most one row in flight, whatever the number of rows that wait.

## What may go wrong

The processes of the box are a list; others than the bot's appear and exit as they like, with any
name, and pids are used again. The writes to the database may fail, with or without effect. A bot
may be stopped after any step. `BoxStep` has a constructor for each, and `Orderly` in `OneReplay` is
what is asked of them.
-/

namespace Hazync
namespace SponsorBot

open KeyedTable

/-- Seconds, as `time.time()` has them. -/
abbrev Time := ℚ

/-- How a replay ended. -/
inductive Outcome where
  | done | refused | failed
  deriving DecidableEq

/-- A row of `regen_queue`. -/
structure RegenRow where
  height : ℕ
  sponsorshipId : Option ℕ
  queuedAt : Time
  startedAt : Option Time := none
  finishedAt : Option Time := none
  pid : Option ℕ := none
  rung : Option ℕ := none
  outcome : Option Outcome := none
  detail : Option String := none
  deriving DecidableEq

/-! ## The processes -/

/-- A process of the box: the basename of its `argv[0]`, and for statements only the height, if it
    is the replay of a row. -/
structure Proc where
  pid : ℕ
  name : String
  replay : Option ℕ := none
  deriving DecidableEq

/-- `BRIDGE_BINARY` -/
def BRIDGE_BINARY : String := "hazync-host-bridge"

/-- `bridge_running`, from the process `me`. -/
def bridgeRunning (me : ℕ) (procs : List Proc) : List ℕ :=
  ((procs.filter fun p => p.pid ≠ me ∧ p.name = BRIDGE_BINARY).map Proc.pid).insertionSort (· ≤ ·)

/-! ## `regen_bundles.plan` -/

/-- `rung_below` -/
def rungBelow (height : ℕ) (rungs : List ℕ) : Option ℕ := (rungs.filter (· < height)).max?

/-- What a replay would walk, from which rung. -/
structure Plan where
  rung : Option ℕ
  lo : ℕ
  hi : ℕ
  missing : List ℕ
  deriving DecidableEq

/-- `plan` -/
def plan (heights rungs : List ℕ) : Option Plan :=
  let heights := heights.dedup.insertionSort (· ≤ ·)
  match heights.head?, heights.getLast? with
  | some lo, some hi =>
    let missing := heights.filter fun h => rungBelow h rungs = none
    if missing = [] then some ⟨(heights.filterMap fun h => rungBelow h rungs).min?, lo, hi, []⟩
    else some ⟨none, lo, hi, missing⟩
  | _, _ => none

/-! ## The queue -/

/-- The replay was started and has not finished. -/
def RegenRow.inFlight (r : RegenRow) : Bool := r.startedAt.isSome ∧ r.finishedAt = none

/-- `regen_enqueue` -/
def regenEnqueue (q : List RegenRow) (pairs : List (Option ℕ × ℕ)) (now : Time) : List RegenRow :=
  pairs.foldl (fun q p =>
    ignore RegenRow.height { height := p.2, sponsorshipId := p.1, queuedAt := now } q) q

/-- `regen_inflight` -/
def regenInflight (q : List RegenRow) : Option RegenRow :=
  (q.filter RegenRow.inFlight).argmin fun r => r.startedAt.getD 0

/-- `regen_next` -/
def regenNext (q : List RegenRow) : Option RegenRow :=
  (q.filter fun r => r.startedAt = none ∧ r.outcome = none).argmin fun r => toLex (r.queuedAt, r.height)

/-- The bot that started the replay is gone, and no process of `alive` has its pid. A pid of 0 is
    none. -/
def RegenRow.left (alive : List ℕ) (r : RegenRow) : Bool :=
  r.inFlight ∧ ¬ ∃ pid ∈ r.pid, pid ≠ 0 ∧ pid ∈ alive

/-- A row that is marked failed, since its bot is gone. -/
def RegenRow.reaped (now : Time) (r : RegenRow) : RegenRow :=
  { r with
    finishedAt := some now
    outcome := some .failed
    detail := some "the bot stopped while this replay was running" }

/-- `regen_reap` -/
def regenReap (q : List RegenRow) (alive : List ℕ) (now : Time) : List RegenRow :=
  q.map fun r => if r.left alive then r.reaped now else r

/-- A row whose replay has been started. -/
def RegenRow.started (pid rung : ℕ) (now : Time) (r : RegenRow) : RegenRow :=
  { r with startedAt := some now, pid := some pid, rung := some rung }

/-- `regen_start` -/
def regenStart (q : List RegenRow) (height pid rung : ℕ) (now : Time) : List RegenRow :=
  update RegenRow.height height (RegenRow.started pid rung now) q

/-- What an exit code of the replay says. -/
def exitOutcome (rc : ℤ) : Outcome := if rc = 0 then .done else if rc = 2 then .refused else .failed

/-- A row whose replay has ended, with the first 500 characters of its last words. -/
def RegenRow.finished (rc : ℤ) (detail : String) (now : Time) (r : RegenRow) : RegenRow :=
  { r with
    finishedAt := some now
    outcome := some (exitOutcome rc)
    detail := some (detail.take 500).toString }

/-- `regen_finish` -/
def regenFinish (q : List RegenRow) (height : ℕ) (rc : ℤ) (detail : String) (now : Time) :
    List RegenRow :=
  update RegenRow.height height (RegenRow.finished rc detail now) q

/-! ## The bot and the box -/

/-- A replay that `Popen` has started. -/
structure Launch where
  pid : ℕ
  height : ℕ
  rung : ℕ
  deriving DecidableEq

/-- A bot that runs. `reaped` and `looping` are how far it has come, `launch` is a replay that is
    started and not on record yet, and `proc` is `_regen_proc` with `_regen_height`. -/
structure Bot where
  pid : ℕ
  trial : Bool
  reaped : Bool := false
  looping : Bool := false
  launch : Option Launch := none
  proc : Option (ℕ × ℕ) := none
  deriving DecidableEq

/-- The queue, the processes that are alive, and the bot, if one runs. -/
structure Box where
  queue : List RegenRow
  procs : List Proc
  bot : Option Bot
  deriving DecidableEq

/-- No process has the pid. The bot's child keeps it until it is polled. -/
def Box.Fresh (x : Box) (pid : ℕ) : Prop :=
  (∀ p ∈ x.procs, p.pid ≠ pid) ∧ ∀ b ∈ x.bot, b.pid ≠ pid ∧ ∀ l ∈ b.proc, l.1 ≠ pid

/-- What happens in a step. `ok` is whether the write went through; where it did not, `written` is
    whether its change is there nevertheless. -/
inductive BoxAct where
  | appear (p : Proc)
  | exit (p : Proc)
  | boot (pid : ℕ) (trial : Bool)
  | enqueue (pairs : List (Option ℕ × ℕ))
  | reap
  | loop
  | finish (ok written : Bool)
  | refuse (height : ℕ) (written : Bool)
  | launch (height pid : ℕ)
  | record (ok written : Bool)
  | stop

variable (python : String)

/-- One step. A look of `_regen` is `finish`, `refuse`, or `launch` and `record`. -/
inductive BoxStep : Box → BoxAct → Box → Prop
  | appear {x : Box} {p : Proc} (hfresh : x.Fresh p.pid) (hreplay : p.replay = none) :
      BoxStep x (.appear p) { x with procs := p :: x.procs }
  | exit {x : Box} {p : Proc} (hp : p ∈ x.procs) :
      BoxStep x (.exit p) { x with procs := x.procs.erase p }
  | boot {x : Box} {pid : ℕ} (trial : Bool) (hbot : x.bot = none) (hfresh : x.Fresh pid) :
      BoxStep x (.boot pid trial) { x with bot := some { pid := pid, trial := trial } }
  | enqueue {x : Box} {b : Bot} (pairs : List (Option ℕ × ℕ)) (now : Time) (hbot : x.bot = some b)
      (htrial : b.trial = false) (hreaped : b.reaped = false) :
      BoxStep x (.enqueue pairs) { x with queue := regenEnqueue x.queue pairs now }
  | reap {x : Box} {b : Bot} (now : Time) (hbot : x.bot = some b) (htrial : b.trial = false)
      (hreaped : b.reaped = false) :
      BoxStep x .reap { x with
        queue := regenReap x.queue (bridgeRunning b.pid x.procs) now
        bot := some { b with reaped := true } }
  | loop {x : Box} {b : Bot} (hbot : x.bot = some b) (hready : b.trial = true ∨ b.reaped = true) :
      BoxStep x .loop { x with bot := some { b with looping := true } }
  | finish {x : Box} {b : Bot} {pid height : ℕ} (rc : ℤ) (detail : String) (now : Time)
      (ok written : Bool) (hbot : x.bot = some b) (hproc : b.proc = some (pid, height))
      (hdead : ∀ p ∈ x.procs, p.pid ≠ pid) :
      BoxStep x (.finish ok written) { x with
        queue := if ok ∨ written then regenFinish x.queue height rc detail now else x.queue
        bot := some (if ok then { b with proc := none } else b) }
  | refuse {x : Box} {b : Bot} {r : RegenRow} {rungs : List ℕ} (now : Time) (written : Bool)
      (hbot : x.bot = some b) (hlooping : b.looping = true) (hproc : b.proc = none)
      (hlaunch : b.launch = none) (hinflight : regenInflight x.queue = none)
      (hnext : regenNext x.queue = some r) (hbusy : bridgeRunning b.pid x.procs = [])
      (hplan : ∀ p ∈ plan [r.height] rungs, p.missing ≠ []) :
      BoxStep x (.refuse r.height written) { x with
        queue := if written then
          regenFinish x.queue r.height 2
            "no archived checkpoint below it; a replay would start at genesis" now
          else x.queue }
  | launch {x : Box} {b : Bot} {r : RegenRow} {pid rung lo hi : ℕ} {rungs : List ℕ}
      (hbot : x.bot = some b) (hlooping : b.looping = true) (hproc : b.proc = none)
      (hlaunch : b.launch = none) (hinflight : regenInflight x.queue = none)
      (hnext : regenNext x.queue = some r) (hbusy : bridgeRunning b.pid x.procs = [])
      (hplan : plan [r.height] rungs = some ⟨some rung, lo, hi, []⟩) (hfresh : x.Fresh pid) :
      BoxStep x (.launch r.height pid) { x with
        procs := ⟨pid, python, some r.height⟩ :: x.procs
        bot := some { b with launch := some ⟨pid, r.height, rung⟩ } }
  | record {x : Box} {b : Bot} {l : Launch} (now : Time) (ok written : Bool) (hbot : x.bot = some b)
      (hlaunch : b.launch = some l) :
      BoxStep x (.record ok written) { x with
        queue := if ok ∨ written then regenStart x.queue l.height l.pid l.rung now else x.queue
        bot := some { b with
          launch := none, proc := if ok then some (l.pid, l.height) else b.proc } }
  | stop {x : Box} (hbot : x.bot.isSome) : BoxStep x .stop { x with bot := none }

/-- Nothing is queued, and no bot runs. -/
def Box.Empty (x : Box) : Prop := x.queue = [] ∧ x.bot = none ∧ ∀ p ∈ x.procs, p.replay = none

/-- A run of steps that all meet `ok`. -/
abbrev BoxRun (ok : Box → BoxAct → Prop) : List (Box × BoxAct × Box) → Box → Prop :=
  Runs.Run Box.Empty fun x a x' => BoxStep python x a x' ∧ ok x a

end SponsorBot
end Hazync
