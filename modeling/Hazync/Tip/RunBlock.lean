import Hazync.Lib.Runs
import Hazync.Tip.Fleet
import Mathlib.Data.Finset.Card

/-!
# The chunk phase of a block (`coordinator/tip_run.py`, `run_block`)

A tick probes the cards, plans, and then acts on the plan, one action after the other. The
assignments, what is collected and which cards have taken another's chunk change as it acts; the plan
was made before.

## A plan and its actions

The plan of a tick is a list of actions, and the loop carries them out in turn. Some of them take
long, as copying a receipt does. When the last one is done, what the plan was made from may be out
of date; the state that the actions change is not looked at again until the next tick. So a state of
the model has the actions that are left (`todo`), and an `act` step carries out the first of them,
with the result that the cards give.

A card is asked once for each chunk that it has. The replies are put into a dict by card, so that of
two replies of one card one is lost, whichever comes first. This matters as soon as a card has two
chunks, and is why the module has `reported`, which says for each chunk what its own directory has
said. The code does not have it.
-/

namespace Hazync
namespace Tip

variable {Card : Type} [DecidableEq Card]

/-- What the loop of `run_block` keeps from tick to tick. -/
structure RunState (Card : Type) where
  cards : Assignments Card
  staged : Finset ℕ := ∅
  busy : Finset Card := ∅
  reassigned : Finset ℕ := ∅
  lastSize : ℕ → Option ℤ := fun _ => none
  lastChange : ℕ → Option Time

/-- The state in which the polling starts, at `t0`. -/
def RunState.launched (cards : Assignments Card) (t0 : Time) : RunState Card :=
  { cards, lastChange := fun c => if c ∈ cards.chunks then some t0 else none }

/-- `cards[chunk] = card` -/
def Assignments.assign (a : Assignments Card) (chunk : ℕ) (card : Card) : Assignments Card :=
  { a with card := Function.update a.card chunk card }

/-- What acting on an action changes in `run_block`, where `ok` is what `stage_receipt` returned. -/
def RunState.perform (s : RunState Card) (ok : Bool) : Action Card → RunState Card
  | .stage c _ => if ok then { s with staged := insert c s.staged } else s
  | .reassign c target =>
    { s with
      cards := s.cards.assign c target
      busy := insert target s.busy
      reassigned := insert c s.reassigned }
  | .restartInPlace c _ => { s with reassigned := insert c s.reassigned }

/-- `probe_all`. Each reply, the last line that a card printed, comes from the directory of one chunk,
    and they come in any order. A card is looked up by itself. -/
def probeAll (cards : Assignments Card) (replies : List (ℕ × Option String)) : Card → Option String :=
  replies.foldl (fun out r => Function.update out (cards.card r.1) r.2) fun _ => none

/-- What `plan_tick` is given in the state. -/
def RunState.input (s : RunState Card) (replies : List (ℕ × Option String)) (now : Time) :
    TickInput Card :=
  { assignments := s.cards
    probes := probeAll s.cards replies
    staged := s.staged
    busy := s.busy
    lastSize := s.lastSize
    lastChange := s.lastChange
    now }

/-! ## Steps -/

/-- A run between two actions. `todo` is what is left of a tick's plan. `reported` is not kept by the
    code: it has the chunks whose own directory was seen to have the receipt since they were last
    launched. -/
structure Polling (Card : Type) where
  run : RunState Card
  todo : List (Action Card) := []
  reported : Finset ℕ := ∅

inductive Event (Card : Type) where
  | tick (replies : List (ℕ × Option String)) (now : Time)
  | act (a : Action Card) (ok : Bool)

/-- The chunks whose own reply says that the receipt is there. -/
def doneReplies (cfg : Settings) (replies : List (ℕ × Option String)) : Finset ℕ :=
  ((replies.filter fun r => cardState cfg r.2 = .done).map Prod.fst).toFinset

/-- The chunks that an action launches again. -/
def Action.relaunched : Action Card → Finset ℕ
  | .stage _ _ => ∅
  | .reassign c _ | .restartInPlace c _ => {c}

inductive PollStep (cfg : Settings) : Polling Card → Event Card → Polling Card → Prop
  /-- Every chunk is probed once, and the plan is made. -/
  | tick {s : Polling Card} {replies : List (ℕ × Option String)} {now : Time} {plan : Plan Card}
      (htodo : s.todo = []) (hopen : s.run.staged.card < s.run.cards.chunks.length)
      (hreplies : (replies.map Prod.fst).Perm s.run.cards.chunks)
      (hplan : planTick cfg (s.run.input replies now) = some plan) :
      PollStep cfg s (.tick replies now)
        { run := { s.run with lastSize := plan.lastSize, lastChange := plan.lastChange }
          todo := plan.actions
          reported := s.reported ∪ doneReplies cfg replies }
  /-- The next action of the plan. -/
  | act {s : Polling Card} {a : Action Card} {rest : List (Action Card)} (htodo : s.todo = a :: rest)
      (ok : Bool) :
      PollStep cfg s (.act a ok)
        { run := s.run.perform ok a, todo := rest, reported := s.reported \ a.relaunched }

/-- The step, computed. -/
def Polling.next (cfg : Settings) (s : Polling Card) : Event Card → Option (Polling Card)
  | .tick replies now =>
    if s.todo = [] ∧ s.run.staged.card < s.run.cards.chunks.length ∧
        (replies.map Prod.fst).Perm s.run.cards.chunks then
      (planTick cfg (s.run.input replies now)).map fun plan =>
        { run := { s.run with lastSize := plan.lastSize, lastChange := plan.lastChange }
          todo := plan.actions
          reported := s.reported ∪ doneReplies cfg replies }
    else none
  | .act a ok =>
    match s.todo with
    | [] => none
    | b :: rest =>
      if a = b then
        some { run := s.run.perform ok a, todo := rest, reported := s.reported \ a.relaunched }
      else none

/-- The next action, carried out. -/
theorem Polling.next_act {cfg : Settings} {s : Polling Card} {a : Action Card} {rest : List (Action Card)}
    (htodo : s.todo = a :: rest) (ok : Bool) :
    s.next cfg (.act a ok) =
      some { run := s.run.perform ok a, todo := rest, reported := s.reported \ a.relaunched } := by
  simp [Polling.next, htodo]

/-- What is computed is a step. -/
theorem PollStep.of_next {cfg : Settings} :
    ∀ (s : Polling Card) e s', s.next cfg e = some s' → PollStep cfg s e s' := by
  intro s e s' h
  cases e with
  | tick replies now =>
    simp only [Polling.next] at h
    split_ifs at h with hcond
    obtain ⟨plan, hplan, rfl⟩ := Option.map_eq_some_iff.mp h
    exact .tick hcond.1 hcond.2.1 hcond.2.2 hplan
  | act a ok =>
    unfold Polling.next at h
    cases htodo : s.todo with
    | nil =>
      rw [htodo] at h
      exact absurd h (by simp)
    | cons b rest =>
      simp only [htodo] at h
      split_ifs at h with hab
      obtain rfl := hab
      obtain rfl := Option.some.inj h
      exact .act htodo ok

/-- A run of the chunk phase on a fleet in which every chunk has a card of its own. -/
def PollRun (cfg : Settings) (home : Assignments Card) (t0 : Time) :
    List (Polling Card × Event Card × Polling Card) → Polling Card → Prop :=
  Runs.Run (fun s => home.cards.Nodup ∧ s = { run := .launched home t0 }) (PollStep cfg)

end Tip
end Hazync
