import Hazync.Lib.Runs
import Mathlib.Data.List.Basic

/-!
# Growing the fleet (`coordinator/tip_recruit.py`, and its use in `coordinator/tip_smoke.py`)

A thread polls the target and rents pods, a thread for each pod puts it through the gates, and the
session takes over the pods that passed. What one thread does under the lock is one step here, and the
steps of all threads interleave: a pod whose gate has said yes is counted out in one section and made
ready in the next, and a pod that was drained is admitted in a section of the session's own.

## Threads and locks

The recruiter has a lock for its counters and for the pods that are ready; a pod that a thread is
about to move is under no lock. So the step of the model is a section under the lock, or a call to
RunPod outside of it, and between two steps of one thread any steps of the others may come. `hand`
is what the polling thread has rented and not put anywhere. `passed` and `failed` are the pods whose
gate has given its verdict, before the gate's thread has acted on it; the code has no lists for
them, they are where the threads are.

Three threads meet here. The polling thread wakes up, compares what it counts with the target, and
rents the difference, as many at a time as there are places at the gates. The thread of a gate gives
its verdict and then makes the pod ready, or releases it. The driver sets the target, takes what is
ready, and at the end stops the recruiter, sweeps what was recruited and terminates it. A target
that is raised while the polling thread rents counts for the pods that it has not yet rented; `high`
is there to say so.

A call to rent may fail in two ways besides being refused. The answer may be lost, with the pod
there. Or the pod is known, and the file in which it is to be recorded cannot be written; then the
exception ends the tick.
-/

namespace Hazync
namespace Tip

/-- What is set when the recruiter starts. The session has `fleet` cards of its own by then. -/
structure RecruiterConfig where
  fleet : ℕ
  maxParallel : ℕ := 4

/-- The polling thread. While it rents it has pods left to rent, and `high` is the highest target in
    force since it counted. A pod that it has rented is in its hand until the gate is started. -/
inductive PollThread where
  | sleeping
  | ticking
  | renting (left high : ℕ)
  | rented (pod left high : ℕ)
  | ended
  deriving DecidableEq

/-- The driver: the session, and what its teardown has done. -/
inductive Stage where
  | session
  | stopping
  | stopped
  | swept
  | ended
  deriving DecidableEq

/-- The recruiter and the driver. The pods are numbered as RunPod rents them. `made`, the pods that
    RunPod was `asked` to terminate, and `lastHigh` are not kept by the code: `lastHigh` is the
    highest target in force when the last pod was rented. -/
structure Recruiter where
  target : ℕ
  pending : ℕ := 0
  gating : ℕ := 0
  polling : PollThread := .sleeping
  gate : List ℕ := []
  passed : List ℕ := []
  failed : List ℕ := []
  ready : List ℕ := []
  drained : List ℕ := []
  created : List ℕ := []
  recruited : List ℕ := []
  stage : Stage := .session
  made : ℕ := 0
  asked : List ℕ := []
  lastHigh : ℕ := 0
  deriving DecidableEq

/-- What comes of a call to rent. A pod that exists is recorded, and then the file may fail to be
    written. -/
inductive Rental where
  | refused
  | recorded
  | unwritten
  deriving DecidableEq

/-- What happens next. A rental may be carried out and its answer be `lost`. -/
inductive RecruiterEvent where
  | setTarget (n : ℕ)
  | wake
  | count
  | lost
  | rent (answer : Rental)
  | spawn
  | verdict (pod : ℕ) (ok : Bool)
  | publish (pod : ℕ)
  | release (pod : ℕ)
  | drain
  | append
  | stop
  | stopDrain
  | sweep
  | terminate
  deriving DecidableEq

namespace PollThread

/-- The pod that is rented and whose gate has not started. -/
def hand : PollThread → List ℕ
  | rented pod _ _ => [pod]
  | _ => []

/-- A target that is set while pods are rented is in force. -/
def raised (n : ℕ) : PollThread → PollThread
  | renting left high => renting left (max high n)
  | rented pod left high => rented pod left (max high n)
  | p => p

/-- What is left to rent fits under the target on top of `n` pods. -/
def Fits (n : ℕ) : PollThread → Prop
  | renting left high | rented _ left high => n + left ≤ high
  | _ => True

end PollThread

/-- The sweep over the recruits is done. -/
def Stage.isSwept : Stage → Bool
  | swept | ended => true
  | _ => false

namespace Recruiter

section Steps

variable (cfg : RecruiterConfig) (s : Recruiter)

/-- How many more to start renting: never fewer than none. -/
def wanted (held pending ready target : ℕ) : ℕ := target - held - pending - ready

/-- `len(order)` -/
def held : ℕ := cfg.fleet + s.created.length

/-- How many more are wanted than are counted. -/
def need : ℕ := wanted (s.held cfg) s.pending s.ready.length s.target

/-- How many a tick rents: as many as are wanted and have a place at the gates. -/
def startN : ℕ := min (s.need cfg) (max 1 cfg.maxParallel - s.gating)

/-- RunPod rents a pod. -/
def deployed (high : ℕ) : Recruiter := { s with made := s.made + 1, lastHigh := high }

/-- The step of the threads and of the driver. -/
def next : RecruiterEvent → Option Recruiter
  | .setTarget n => some { s with target := n, polling := s.polling.raised n }
  -- the thread looks at `_stop` here and nowhere else
  | .wake =>
    if s.polling = .sleeping then
      some { s with polling := if s.stage = .session then .ticking else .ended }
    else none
  | .count =>
    if s.polling = .ticking then
      some { s with
        polling := if s.startN cfg = 0 then .sleeping else .renting (s.startN cfg) s.target }
    else none
  | .lost =>
    match s.polling with
    | .renting (_ + 1) high => some (s.deployed high)
    | _ => none
  | .rent answer =>
    match s.polling with
    | .renting (left + 1) high =>
      match answer with
      | .refused => some { s with polling := .sleeping }
      | .recorded =>
        some { s.deployed high with
          recruited := s.recruited ++ [s.made]
          polling := .rented s.made left high }
      | .unwritten =>
        some { s.deployed high with
          recruited := s.recruited ++ [s.made]
          polling := .sleeping }
    | _ => none
  | .spawn =>
    match s.polling with
    | .rented pod left high =>
      some { s with
        pending := s.pending + 1
        gating := s.gating + 1
        gate := s.gate ++ [pod]
        polling := if left = 0 then .sleeping else .renting left high }
    | _ => none
  | .verdict pod ok =>
    if pod ∈ s.gate then
      some { s with
        pending := s.pending - 1
        gating := s.gating - 1
        gate := s.gate.erase pod
        passed := if ok then s.passed ++ [pod] else s.passed
        failed := if ok then s.failed else s.failed ++ [pod] }
    else none
  | .publish pod =>
    if pod ∈ s.passed then
      some { s with passed := s.passed.erase pod, ready := s.ready ++ [pod] }
    else none
  | .release pod =>
    if pod ∈ s.failed then
      some { s with failed := s.failed.erase pod, asked := s.asked ++ [pod] }
    else none
  | .drain =>
    if s.stage = .session then some { s with ready := [], drained := s.drained ++ s.ready } else none
  | .append =>
    if s.stage = .session then
      match s.drained with
      | pod :: rest => some { s with drained := rest, created := s.created ++ [pod] }
      | [] => none
    else none
  | .stop => if s.stage = .session then some { s with stage := .stopping } else none
  | .stopDrain =>
    if s.stage = .stopping then
      some { s with stage := .stopped, ready := [], asked := s.asked ++ s.ready }
    else none
  | .sweep =>
    if s.stage = .stopped then
      some { s with
        stage := .swept
        asked := s.asked ++ s.recruited.filter (· ∉ s.created) }
    else none
  | .terminate =>
    if s.stage = .swept then some { s with stage := .ended, asked := s.asked ++ s.created } else none

end Steps

/-! ## Moves -/

/-- What a step does, with what it is known to start from. -/
inductive Move (cfg : RecruiterConfig) (s : Recruiter) : RecruiterEvent → Recruiter → Prop
  | retargets {n : ℕ} :
      Move cfg s (.setTarget n) { s with target := n, polling := s.polling.raised n }
  | polls {e : RecruiterEvent} {p : PollThread} (hfrom : s.polling.hand = []) (hto : p.hand = [])
      (hfits : ∀ n, p.Fits n) : Move cfg s e { s with polling := p }
  | counts (hfrom : s.polling = .ticking) (hsome : s.startN cfg ≠ 0) :
      Move cfg s .count { s with polling := .renting (s.startN cfg) s.target }
  | loses {left high : ℕ} (hfrom : s.polling = .renting (left + 1) high) :
      Move cfg s .lost (s.deployed high)
  | records {left high : ℕ} (hfrom : s.polling = .renting (left + 1) high) :
      Move cfg s (.rent .recorded)
        { s.deployed high with
          recruited := s.recruited ++ [s.made]
          polling := .rented s.made left high }
  | forgets {left high : ℕ} (hfrom : s.polling = .renting (left + 1) high) :
      Move cfg s (.rent .unwritten)
        { s.deployed high with
          recruited := s.recruited ++ [s.made]
          polling := .sleeping }
  | spawns {pod left high : ℕ} {p : PollThread} (hfrom : s.polling = .rented pod left high)
      (hto : p.hand = []) (hfits : ∀ n, n + left ≤ high → p.Fits n) :
      Move cfg s .spawn
        { s with
          pending := s.pending + 1
          gating := s.gating + 1
          gate := s.gate ++ [pod]
          polling := p }
  | passes {pod : ℕ} (hmem : pod ∈ s.gate) :
      Move cfg s (.verdict pod true)
        { s with
          pending := s.pending - 1
          gating := s.gating - 1
          gate := s.gate.erase pod
          passed := s.passed ++ [pod] }
  | fails {pod : ℕ} (hmem : pod ∈ s.gate) :
      Move cfg s (.verdict pod false)
        { s with
          pending := s.pending - 1
          gating := s.gating - 1
          gate := s.gate.erase pod
          failed := s.failed ++ [pod] }
  | publishes {pod : ℕ} (hmem : pod ∈ s.passed) :
      Move cfg s (.publish pod) { s with passed := s.passed.erase pod, ready := s.ready ++ [pod] }
  | releases {pod : ℕ} (hmem : pod ∈ s.failed) :
      Move cfg s (.release pod) { s with failed := s.failed.erase pod, asked := s.asked ++ [pod] }
  | drains (hstage : s.stage = .session) :
      Move cfg s .drain { s with ready := [], drained := s.drained ++ s.ready }
  | admits {pod : ℕ} {rest : List ℕ} (hstage : s.stage = .session) (hfrom : s.drained = pod :: rest) :
      Move cfg s .append { s with drained := rest, created := s.created ++ [pod] }
  | stops (hstage : s.stage = .session) : Move cfg s .stop { s with stage := .stopping }
  | stopDrains (hstage : s.stage = .stopping) :
      Move cfg s .stopDrain { s with stage := .stopped, ready := [], asked := s.asked ++ s.ready }
  | sweeps (hstage : s.stage = .stopped) :
      Move cfg s .sweep
        { s with
          stage := .swept
          asked := s.asked ++ s.recruited.filter (· ∉ s.created) }
  | terminates (hstage : s.stage = .swept) :
      Move cfg s .terminate { s with stage := .ended, asked := s.asked ++ s.created }

/-- Each step is one of the moves. -/
theorem Move.of_next {cfg : RecruiterConfig} {s s' : Recruiter} {e : RecruiterEvent}
    (h : s.next cfg e = some s') : Move cfg s e s' := by
  -- one case per event; those of the poll thread also say what it holds then
  cases e with
  | setTarget n =>
    obtain rfl := Option.some.inj h
    exact .retargets
  | wake =>
    obtain ⟨hfrom, heq⟩ := Option.ite_none_right_eq_some.mp h
    obtain rfl := Option.some.inj heq
    have hhand : s.polling.hand = [] := by rw [hfrom]; rfl
    refine .polls hhand ?_ fun n => ?_
    · split <;> rfl
    · split <;> trivial
  | count =>
    obtain ⟨hfrom, heq⟩ := Option.ite_none_right_eq_some.mp h
    obtain rfl := Option.some.inj heq
    by_cases hsome : s.startN cfg = 0
    · have hhand : s.polling.hand = [] := by rw [hfrom]; rfl
      rw [if_pos hsome]
      exact .polls hhand rfl fun _ => trivial
    · rw [if_neg hsome]
      exact .counts hfrom hsome
  | lost =>
    simp only [next] at h
    split at h
    case h_1 hfrom =>
      obtain rfl := Option.some.inj h
      exact .loses hfrom
    case h_2 => exact absurd h (by simp)
  | rent answer =>
    simp only [next] at h
    split at h
    case h_1 hfrom =>
      cases answer with
      | refused =>
        obtain rfl := Option.some.inj h
        have hhand : s.polling.hand = [] := by rw [hfrom]; rfl
        exact .polls hhand rfl fun _ => trivial
      | recorded =>
        obtain rfl := Option.some.inj h
        exact .records hfrom
      | unwritten =>
        obtain rfl := Option.some.inj h
        exact .forgets hfrom
    case h_2 => exact absurd h (by simp)
  | spawn =>
    simp only [next] at h
    split at h
    case h_1 hfrom =>
      obtain rfl := Option.some.inj h
      refine .spawns hfrom ?_ fun n hn => ?_
      · split <;> rfl
      · split
        · trivial
        · exact hn
    case h_2 => exact absurd h (by simp)
  | verdict pod ok =>
    obtain ⟨hmem, heq⟩ := Option.ite_none_right_eq_some.mp h
    obtain rfl := Option.some.inj heq
    cases ok with
    | true => exact .passes hmem
    | false => exact .fails hmem
  | publish pod =>
    obtain ⟨hmem, heq⟩ := Option.ite_none_right_eq_some.mp h
    obtain rfl := Option.some.inj heq
    exact .publishes hmem
  | release pod =>
    obtain ⟨hmem, heq⟩ := Option.ite_none_right_eq_some.mp h
    obtain rfl := Option.some.inj heq
    exact .releases hmem
  | drain =>
    obtain ⟨hstage, heq⟩ := Option.ite_none_right_eq_some.mp h
    obtain rfl := Option.some.inj heq
    exact .drains hstage
  | append =>
    obtain ⟨hstage, heq⟩ := Option.ite_none_right_eq_some.mp h
    split at heq
    case h_1 hfrom =>
      obtain rfl := Option.some.inj heq
      exact .admits hstage hfrom
    case h_2 => exact absurd heq (by simp)
  | stop =>
    obtain ⟨hstage, heq⟩ := Option.ite_none_right_eq_some.mp h
    obtain rfl := Option.some.inj heq
    exact .stops hstage
  | stopDrain =>
    obtain ⟨hstage, heq⟩ := Option.ite_none_right_eq_some.mp h
    obtain rfl := Option.some.inj heq
    exact .stopDrains hstage
  | sweep =>
    obtain ⟨hstage, heq⟩ := Option.ite_none_right_eq_some.mp h
    obtain rfl := Option.some.inj heq
    exact .sweeps hstage
  | terminate =>
    obtain ⟨hstage, heq⟩ := Option.ite_none_right_eq_some.mp h
    obtain rfl := Option.some.inj heq
    exact .terminates hstage

end Recruiter

end Tip
end Hazync
