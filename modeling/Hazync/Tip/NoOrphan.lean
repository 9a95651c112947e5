import Hazync.Tip.Recruit
import Mathlib.Order.MinMax
import Mathlib.Order.Nat

/-!
# The recruiter rents no pod too many and leaves none behind

The pods of the fleet, those at the gates, those that passed and those that the session is about to
admit fit under the target. When the driver and the threads are done, RunPod was asked to terminate
each pod. Two windows are in the way. Between two sections a pod is counted nowhere, and the polling
thread may count then. And the polling thread looks at `_stop` once a tick, so that it may rent after
the sweep a pod that then passes its gates.

## Two bounds

A pod costs money for as long as it exists, so there are two things to get right. While the session
runs there should be no more pods than are wanted; and when it is over there should be none. Pods
are rented by a thread that wakes up from time to time, and each goes through a gate of its own, on
a thread of its own, before the session gets it. Four lists are shared under locks, and a pod that
moves from one to the next is in none of them for a moment.

The first bound is `Counts`. A tick of the polling thread rents the difference between the target
and what it counts. It counts the pods that the session holds, those at their gates and those that
are ready. A pod that has passed its gate and is not ready yet, or has been drained and not been
admitted, is counted nowhere. If the tick falls into that window it rents one too many; `Clean` asks
that then there is still room for it.

The second bound is `Owned`. The teardown sweeps the list of recruits once. A pod that is rented
after the sweep must be terminated by its own gate, when it fails there, or is left otherwise. So
from the sweep on every recruit has to be accounted for (`Accounted`), and a verdict of yes after it
is what `Clean` excludes.
-/

namespace Hazync
namespace Tip
namespace Recruiter

variable {cfg : RecruiterConfig} {s s' : Recruiter} {e : RecruiterEvent}

/-! ## What is meant -/

/-- The pods that are held, at the gates, ready, or drained and not yet admitted. -/
def settled (cfg : RecruiterConfig) (s : Recruiter) : ℕ :=
  s.held cfg + s.gate.length + s.passed.length + s.ready.length + s.drained.length

/-- With the pod that is on its way to the gates. -/
def counted (cfg : RecruiterConfig) (s : Recruiter) : ℕ := s.settled cfg + s.polling.hand.length

/-- The teardown is over, and no thread runs. -/
structure Ended (s : Recruiter) : Prop where
  stage : s.stage = .ended
  /-- The thread that rents is over, -/
  polling : s.polling = .ended
  /-- no gate is open, -/
  gate : s.gate = []
  /-- and no pod is on its way from one place to the next. -/
  passed : s.passed = []
  failed : s.failed = []

/-- No more pods are counted than are held, or were wanted at the last rental; and at the end each
    of them has been asked to terminate. -/
structure NoneTooManyNoneLost (cfg : RecruiterConfig) (s : Recruiter) : Prop where
  bounded : s.counted cfg ≤ max (s.held cfg) s.lastHigh
  released : s.Ended → ∀ pod < s.made, pod ∈ s.asked

/-- What is asked of a step, in the state before it. -/
def Clean (cfg : RecruiterConfig) (s : Recruiter) : RecruiterEvent → Prop
  -- the pods that are counted nowhere have a place beside those that are about to be rented
  | .count => s.startN cfg = 0 ∨ s.startN cfg + s.passed.length + s.drained.length ≤ s.need cfg
  -- RunPod answers for each pod that it rents
  | .lost => False
  -- after the sweep no pod is rented that its gate does not release
  | .rent .unwritten => s.stage.isSwept = false
  | .verdict pod true => s.stage.isSwept → pod ∈ s.asked
  | _ => True

instance : DecidablePred (Clean cfg s)
  | .count => inferInstanceAs (Decidable (_ ∨ _))
  | .lost => instDecidableFalse
  | .rent .unwritten => inferInstanceAs (Decidable (_ = _))
  | .verdict _ true => inferInstanceAs (Decidable (_ → _))
  | .setTarget _ | .wake | .rent .refused | .rent .recorded | .spawn | .verdict _ false | .publish _
  | .release _ | .drain | .append | .stop | .stopDrain | .sweep | .terminate => instDecidableTrue

/-! ## None too many -/

/-- The counts that the target is compared with. -/
structure Counts (cfg : RecruiterConfig) (s : Recruiter) : Prop where
  /-- `pending` counts the gates that are open. -/
  pending : s.pending = s.gate.length
  /-- The pods that are counted stay under what the fleet holds, or under the target of the last
      rental. -/
  bounded : s.counted cfg ≤ max (s.held cfg) s.lastHigh
  /-- While it rents, the thread still has room for what it has in hand. -/
  fits : s.polling.Fits (s.counted cfg)

/-- A target that is raised meanwhile does not touch what is in hand. -/
@[simp]
theorem hand_raised {p : PollThread} {n : ℕ} : (p.raised n).hand = p.hand := by
  cases p <;> rfl

/-- Where fewer are counted there is room still. -/
theorem Fits.mono {p : PollThread} {m n : ℕ} (h : p.Fits n) (hle : m ≤ n) : p.Fits m := by
  cases p with
  | renting | rented => exact (Nat.add_le_add_right hle _).trans h
  | sleeping | ticking | ended => trivial

/-- With a higher target there is room still. -/
theorem Fits.raised {p : PollThread} {m n : ℕ} (h : p.Fits n) : (p.raised m).Fits n := by
  cases p with
  | renting | rented => exact le_max_of_le_left h
  | sleeping | ticking | ended => trivial

/-- At the start nothing is rented. -/
theorem Counts.starts {target : ℕ} : Counts cfg { target } :=
  ⟨rfl, le_max_of_le_left le_rfl, trivial⟩

/-- A step that leaves the polling thread alone, and after which no more pods are counted. -/
theorem Counts.of_le (hs : Counts cfg s) (hpolling : s'.polling = s.polling)
    (hhigh : s'.lastHigh = s.lastHigh) (hheld : s.held cfg ≤ s'.held cfg)
    (hsettled : s'.settled cfg ≤ s.settled cfg) (hpending : s'.pending = s'.gate.length) :
    Counts cfg s' := by
  have hcounted : s'.counted cfg ≤ s.counted cfg := by
    rw [counted, counted, hpolling]
    exact Nat.add_le_add_right hsettled _
  refine ⟨hpending, ?_, ?_⟩
  · rw [hhigh]
    exact hcounted.trans (hs.bounded.trans (max_le_max_right _ hheld))
  · rw [hpolling]
    exact Fits.mono hs.fits hcounted

/-- A step of the polling thread that rents nothing. -/
theorem Counts.poll (hs : Counts cfg s) {p : PollThread} {target : ℕ} (hhand : p.hand = s.polling.hand)
    (hfits : p.Fits (s.counted cfg)) : Counts cfg { s with target := target, polling := p } := by
  have hcounted : counted cfg { s with target := target, polling := p } = s.counted cfg :=
    congrArg (s.settled cfg + List.length ·) hhand
  exact ⟨hs.pending, hcounted ▸ hs.bounded, hcounted ▸ hfits⟩

/-- The pods that a tick starts to rent fit under the target. -/
theorem Counts.tick (hs : Counts cfg s) (hfrom : s.polling = .ticking) (hsome : s.startN cfg ≠ 0)
    (hclean : s.startN cfg + s.passed.length + s.drained.length ≤ s.need cfg) :
    s.counted cfg + s.startN cfg ≤ s.target := by
  have hneed : s.need cfg = s.target - s.held cfg - s.gate.length - s.ready.length := by
    rw [need, wanted, hs.pending]
  have hcounted : s.counted cfg = s.held cfg + s.gate.length + s.passed.length + s.ready.length +
      s.drained.length := by
    rw [counted, hfrom]
    rfl
  omega

/-- A pod is rented. It is in the hand of the polling thread, or in nobody's. -/
theorem Counts.rent (hs : Counts cfg s) {left high : ℕ} {p : PollThread} {recruited : List ℕ}
    (hfrom : s.polling = .renting (left + 1) high)
    (hhand : s.settled cfg + left + 1 ≤ high → s.settled cfg + p.hand.length ≤ high)
    (hfits : s.settled cfg + left + 1 ≤ high → p.Fits (s.settled cfg + p.hand.length)) :
    Counts cfg { s.deployed high with recruited := recruited, polling := p } := by
  have hleft : s.settled cfg + left + 1 ≤ high := by
    have hfits := hs.fits
    rwa [counted, hfrom] at hfits
  exact ⟨hs.pending, le_max_of_le_right (hhand hleft), hfits hleft⟩

/-- A pod goes from the hand of the polling thread to its gate. -/
theorem Counts.spawn (hs : Counts cfg s) {pod left high gating : ℕ} {p : PollThread}
    (hfrom : s.polling = .rented pod left high) (hhand : p.hand = [])
    (hfits : ∀ n, n + left ≤ high → p.Fits n) :
    Counts cfg
      { s with
        pending := s.pending + 1
        gating := gating
        gate := s.gate ++ [pod]
        polling := p } := by
  have hcounted : counted cfg
      { s with pending := s.pending + 1, gating := gating, gate := s.gate ++ [pod], polling := p } =
        s.counted cfg := by
    have hpod : s.polling.hand = [pod] := by rw [hfrom]; rfl
    simp only [counted, settled, held, hhand, hpod, List.length_append, List.length_singleton,
      List.length_nil]
    omega
  have hleft : s.counted cfg + left ≤ high := by
    have hfits := hs.fits
    rwa [hfrom] at hfits
  refine ⟨?_, hcounted ▸ hs.bounded, hcounted ▸ hfits _ hleft⟩
  simp [hs.pending]

/-- A clean step. -/
theorem Counts.step (hs : Counts cfg s) (hclean : Clean cfg s e) (h : Move cfg s e s') :
    Counts cfg s' := by
  cases h with
  | retargets => exact hs.poll hand_raised (Fits.raised hs.fits)
  | polls hfrom hto hfits => exact hs.poll (hto.trans hfrom.symm) (hfits _)
  | counts hfrom hsome =>
    have htick := hs.tick hfrom hsome (hclean.resolve_left hsome)
    exact hs.poll (by rw [hfrom]; rfl) htick
  | @loses left high hfrom => exact hclean.elim
  -- one fewer is left to rent, and one more is counted
  | @records left high hfrom =>
    refine hs.rent hfrom (fun hle => ?_) fun hle => ?_
    · exact (Nat.add_le_add_right (Nat.le_add_right _ left) 1).trans hle
    · exact (Nat.add_right_comm _ 1 left).trans_le hle
  | @forgets left high hfrom =>
    refine hs.rent hfrom (fun hle => ?_) fun _ => trivial
    exact (Nat.le_add_right _ (left + 1)).trans hle
  | spawns hfrom hto hfits => exact hs.spawn hfrom hto hfits
  -- a pod leaves one list for another
  | @passes pod hmem =>
    have hlength := List.length_erase_add_one hmem
    refine hs.of_le rfl rfl le_rfl ?_ ?_
    · simp only [settled, held, List.length_append, List.length_singleton]
      omega
    · simp only [hs.pending]
      omega
  | @fails pod hmem =>
    have hlength := List.length_erase_add_one hmem
    refine hs.of_le rfl rfl le_rfl ?_ ?_
    · simp only [settled, held]
      omega
    · simp only [hs.pending]
      omega
  | @publishes pod hmem =>
    have hlength := List.length_erase_add_one hmem
    refine hs.of_le rfl rfl le_rfl ?_ hs.pending
    simp only [settled, held, List.length_append, List.length_singleton]
    omega
  | drains hstage =>
    refine hs.of_le rfl rfl le_rfl ?_ hs.pending
    simp only [settled, held, List.length_append, List.length_nil]
    omega
  -- what was drained is admitted to the session
  | @admits pod rest hstage hfrom =>
    refine hs.of_le rfl rfl ?_ ?_ hs.pending
    · simp [held]
    · simp only [settled, held, hfrom, List.length_append, List.length_cons, List.length_nil]
      omega
  | stopDrains hstage =>
    refine hs.of_le rfl rfl le_rfl ?_ hs.pending
    simp only [settled, held, List.length_nil]
    omega
  | releases hmem | stops hstage | sweeps hstage | terminates hstage =>
    exact hs.of_le rfl rfl le_rfl le_rfl hs.pending

/-! ## None lost -/

/-- Once the sweep is done, RunPod was asked about a recruit, or somebody is still going to ask, or to
    start its gate. -/
def Accounted (s : Recruiter) (pod : ℕ) : Prop :=
  pod ∈ s.asked ∨ pod ∈ s.created ∨ pod ∈ s.polling.hand ∨ pod ∈ s.gate ∨ pod ∈ s.failed

/-- No pod is forgotten: from the moment it exists somebody has to answer for it, and at the end it
    is terminated. -/
structure Owned (s : Recruiter) : Prop where
  /-- Each pod that RunPod has made is on the list of rented ones. -/
  recorded : ∀ pod < s.made, pod ∈ s.recruited
  /-- After the sweep RunPod was asked about each of those, or somebody is still going to ask, or to
      start its gate. -/
  accounted : s.stage.isSwept → ∀ pod ∈ s.recruited, s.Accounted pod
  /-- And at the end every pod that exists has been asked to terminate. -/
  terminated : s.stage = .ended → ∀ pod ∈ s.created, pod ∈ s.asked

/-- At the start there is nothing to answer for. -/
theorem Owned.starts {target : ℕ} : Owned { target } where
  recorded _ h := absurd h (Nat.not_lt_zero _)
  accounted h := absurd h Bool.false_ne_true
  terminated h := absurd h (by simp)

/-- A step that rents nothing and leaves the stage alone. -/
theorem Owned.of_imp (hs : Owned s) (hmade : s'.made = s.made) (hrecruited : s'.recruited = s.recruited)
    (hstage : s'.stage = s.stage) (hcreated : s.stage.isSwept → s'.created = s.created)
    (hasked : ∀ pod ∈ s.asked, pod ∈ s'.asked)
    (haccounted : s.stage.isSwept → ∀ pod, s.Accounted pod → s'.Accounted pod) : Owned s' where
  recorded := by
    rw [hmade, hrecruited]
    exact hs.recorded
  accounted h pod hpod := by
    rw [hstage] at h
    exact haccounted h pod (hs.accounted h pod (hrecruited ▸ hpod))
  terminated h pod hpod := by
    rw [hstage] at h
    have hswept : s.stage.isSwept := by rw [h]; rfl
    exact hasked pod (hs.terminated h pod (hcreated hswept ▸ hpod))

/-- A pod is rented and recorded. After the sweep it is in the hand of the polling thread. -/
theorem Owned.rent (hs : Owned s) {high : ℕ} {p : PollThread} (hfrom : s.polling.hand = [])
    (hhand : s.stage.isSwept → p.hand = [s.made]) :
    Owned { s.deployed high with recruited := s.recruited ++ [s.made], polling := p } where
  recorded pod hpod := by
    obtain hlt | rfl := Nat.lt_succ_iff_lt_or_eq.mp hpod
    · exact List.mem_append_left _ (hs.recorded pod hlt)
    · exact List.mem_append_right _ (List.mem_singleton.mpr rfl)
  accounted h pod hpod := by
    obtain hpod | hpod := List.mem_append.mp hpod
    · obtain hasked | hcreated | hinhand | hleft := hs.accounted h pod hpod
      · exact .inl hasked
      · exact .inr (.inl hcreated)
      · rw [hfrom] at hinhand
        exact absurd hinhand List.not_mem_nil
      · exact .inr (.inr (.inr hleft))
    · exact .inr (.inr (.inl (hhand h ▸ hpod)))
  terminated := hs.terminated

/-- A clean step. -/
theorem Owned.step (hs : Owned s) (hclean : Clean cfg s e) (h : Move cfg s e s') : Owned s' := by
  cases h with
  | retargets =>
    refine hs.of_imp rfl rfl rfl (fun _ => rfl) (fun _ => id) fun _ pod hpod => ?_
    simpa only [Accounted, hand_raised] using hpod
  | polls hfrom hto hfits =>
    refine hs.of_imp rfl rfl rfl (fun _ => rfl) (fun _ => id) fun _ pod hpod => ?_
    simpa only [Accounted, hfrom, hto] using hpod
  | counts hfrom hsome =>
    have hhand : s.polling.hand = [] := by rw [hfrom]; rfl
    have hto : (PollThread.renting (s.startN cfg) s.target).hand = [] := rfl
    refine hs.of_imp rfl rfl rfl (fun _ => rfl) (fun _ => id) fun _ pod hpod => ?_
    simpa only [Accounted, hhand, hto] using hpod
  | loses hfrom => exact hclean.elim
  | records hfrom => exact hs.rent (by rw [hfrom]; rfl) fun _ => rfl
  | forgets hfrom =>
    exact hs.rent (by rw [hfrom]; rfl) fun h => absurd (hclean.symm.trans h) Bool.false_ne_true
  -- the pod in hand goes to its gate
  | @spawns pod left high p hfrom hto hfits =>
    have hhand : s.polling.hand = [pod] := by rw [hfrom]; rfl
    refine hs.of_imp rfl rfl rfl (fun _ => rfl) (fun _ => id) fun _ q hq => ?_
    simp only [Accounted, hhand, hto, List.mem_append] at hq ⊢
    tauto
  | @passes pod hmem =>
    refine hs.of_imp rfl rfl rfl (fun _ => rfl) (fun _ => id) fun hswept q hq => ?_
    obtain rfl | hne := eq_or_ne q pod
    · exact .inl (hclean hswept)
    · simpa only [Accounted, List.mem_erase_of_ne hne] using hq
  | @fails pod hmem =>
    refine hs.of_imp rfl rfl rfl (fun _ => rfl) (fun _ => id) fun _ q hq => ?_
    simp only [Accounted, List.mem_append, List.mem_singleton]
    obtain rfl | hne := eq_or_ne q pod
    · tauto
    · rw [List.mem_erase_of_ne hne]
      exact hq.imp id (Or.imp id (Or.imp id (Or.imp id .inl)))
  | @releases pod hmem =>
    refine hs.of_imp rfl rfl rfl (fun _ => rfl) (fun _ => List.mem_append_left _) fun _ q hq => ?_
    simp only [Accounted, List.mem_append, List.mem_singleton]
    obtain rfl | hne := eq_or_ne q pod
    · tauto
    · rw [List.mem_erase_of_ne hne]
      exact hq.imp .inl id
  | publishes hmem | drains hstage =>
    exact hs.of_imp rfl rfl rfl (fun _ => rfl) (fun _ => id) fun _ _ => id
  -- a pod is admitted only before the sweep
  | admits hstage hfrom =>
    have hnot (h : s.stage.isSwept) : False := by simp [hstage, Stage.isSwept] at h
    exact hs.of_imp rfl rfl rfl (fun h => (hnot h).elim) (fun _ => id) fun h => (hnot h).elim
  | stops hstage | stopDrains hstage =>
    exact ⟨hs.recorded, fun h => absurd h Bool.false_ne_true, fun h => absurd h (by simp)⟩
  -- the sweep asks about every rented pod that the session has not admitted
  | sweeps hstage =>
    refine ⟨hs.recorded, fun _ pod hpod => ?_, fun h => absurd h (by simp)⟩
    by_cases hcreated : pod ∈ s.created
    · exact .inr (.inl hcreated)
    · refine .inl (List.mem_append_right _ (List.mem_filter.mpr ⟨hpod, ?_⟩))
      exact decide_eq_true hcreated
  | terminates hstage =>
    have hswept : s.stage.isSwept := by rw [hstage]; rfl
    refine ⟨hs.recorded, fun _ pod hpod => ?_, fun _ pod => List.mem_append_right _⟩
    exact (hs.accounted hswept pod hpod).imp (List.mem_append_left _) id

/-! ## Runs -/

/-- A recruiter that starts with a target. -/
def Starts (target : ℕ) (s : Recruiter) : Prop := s = { target }

/-- A run from the start. -/
def RecruiterRun (cfg : RecruiterConfig) (target : ℕ) :
    List (Recruiter × RecruiterEvent × Recruiter) → Recruiter → Prop :=
  Runs.Run (Starts target) fun s e s' => s.next cfg e = some s'

variable {trace : List (Recruiter × RecruiterEvent × Recruiter)} {target : ℕ}

/-- In a run whose steps are clean, never more pods are counted than are held or were wanted when the
    last one was rented, and at the end RunPod was asked to terminate each of them. -/
theorem none_too_many_none_lost (hrun : RecruiterRun cfg target trace s)
    (hclean : ∀ t ∈ trace, Clean cfg t.1 t.2.1) : NoneTooManyNoneLost cfg s := by
  have hrun := Runs.Run.restrict (q := fun s e _ => Clean cfg s e) hrun hclean
  obtain ⟨hcounts, howned⟩ : Counts cfg s ∧ Owned s := by
    refine hrun.invariant (p := fun s => Counts cfg s ∧ Owned s) ?_ fun s e s' hs h => ?_
    · rintro s rfl
      exact ⟨.starts, .starts⟩
    · have hmove := Move.of_next h.1
      exact ⟨hs.1.step h.2 hmove, hs.2.step h.2 hmove⟩
  refine ⟨hcounts.bounded, fun hended pod hpod => ?_⟩
  have hswept : s.stage.isSwept := by rw [hended.stage]; rfl
  obtain hasked | hcreated | hhand | hgate | hfailed :=
    howned.accounted hswept pod (howned.recorded pod hpod)
  · exact hasked
  · exact howned.terminated hended.stage pod hcreated
  · simp [hended.polling, PollThread.hand] at hhand
  · simp [hended.gate] at hgate
  · simp [hended.failed] at hfailed

/-! ## Two windows -/

/-- A session of two cards that is to have three. -/
def small : RecruiterConfig := { fleet := 2 }

/-- The run of a script. -/
def grown (script : List RecruiterEvent) : List (Recruiter × RecruiterEvent × Recruiter) × Recruiter :=
  Runs.play (next small) { target := 3 } script

/-- It is a run. -/
theorem grown_run (script : List RecruiterEvent) :
    RecruiterRun small 3 (grown script).1 (grown script).2 := by
  have hstarts : Starts 3 { target := 3 } := rfl
  exact Runs.Run.play (fun _ _ _ h => h) hstarts script

/-- A tick that rents a pod and starts its gate. -/
def rents : List RecruiterEvent := [.wake, .count, .rent .recorded, .spawn]

/-- The end of a session. -/
def teardown : List RecruiterEvent := [.stop, .stopDrain, .sweep, .terminate]

/-- One pod fails, the next is admitted, and a third, for which the target was raised, is at its gate
    when the session ends. -/
def orderly : List RecruiterEvent :=
  rents ++ [.verdict 0 false, .release 0] ++ rents ++ [.verdict 1 true, .publish 1, .drain, .append,
    .setTarget 4] ++ rents ++ teardown ++ [.verdict 2 true, .publish 2, .wake]

/-- The gate has said yes and the pod is not ready yet when the polling thread counts. -/
def unseen : List RecruiterEvent := rents ++ [.verdict 0 true, .wake, .count, .rent .recorded]

/-- The pod is rented after the sweep, and its gate says yes. -/
def late : List RecruiterEvent :=
  [.wake, .count] ++ teardown ++ [.rent .recorded, .spawn, .verdict 0 true, .publish 0, .wake]

/-- In this run the session ends, after three pods. -/
theorem none_too_many_none_lost_orderly :
    ((grown orderly).2.Ended ∧ (grown orderly).2.made = 3) ∧
      NoneTooManyNoneLost small (grown orderly).2 :=
  ⟨⟨⟨by decide, by decide, by decide, by decide, by decide⟩, by decide⟩,
    none_too_many_none_lost (grown_run orderly) (by decide)⟩

/-- A fourth pod is counted where three are wanted, and a pod that was rented after the sweep is left. -/
theorem a_pod_is_rented_unseen_and_another_left :
    (RecruiterRun small 3 (grown unseen).1 (grown unseen).2 ∧
        ¬ NoneTooManyNoneLost small (grown unseen).2) ∧
      (RecruiterRun small 3 (grown late).1 (grown late).2 ∧
        ¬ NoneTooManyNoneLost small (grown late).2) := by
  refine ⟨⟨grown_run _, fun h => ?_⟩, grown_run _, fun h => ?_⟩
  · have hmany : (grown unseen).2.counted small = 4 := by decide
    have hmost : max ((grown unseen).2.held small) (grown unseen).2.lastHigh = 3 := by decide
    have hbounded := h.bounded
    omega
  · have hended : (grown late).2.Ended :=
      ⟨by decide, by decide, by decide, by decide, by decide⟩
    have hleft : 0 < (grown late).2.made ∧ 0 ∉ (grown late).2.asked := by decide
    exact hleft.2 (h.released hended 0 hleft.1)

end Recruiter
end Tip
end Hazync
