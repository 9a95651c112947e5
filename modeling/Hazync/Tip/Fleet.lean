import Mathlib.Algebra.Order.Ring.Rat
import Mathlib.Data.Finset.Image
import Mathlib.Data.Rat.Defs
import Mathlib.Logic.Function.Basic

/-!
# One poll of a fleet (`coordinator/tip_fleet.py`)

Each chunk of a block is with a card, and each card is asked, in every tick, how it does. The plan of
a tick says what to collect, what to move to another card and what to restart. It is worked out from
the replies and from what the earlier ticks left, and nothing is done while it is.

## What a card can say

A probe is a line of text from a shell command that was run on the card: the size of the log, the
use of the GPU, the memory in use, and how many provers there are, with `DONE` in front if the
receipt is there. It may be missing, cut off, or nonsense. A card is judged by it in each tick:
done, working, idle or unreachable, and a card that is not wedged may only be slow. A chunk counts
as wedged when its card is idle and the size has not moved for some time, which takes memory from
tick to tick, of the last size and of when it changed.

The reading of the numbers is that of Python's `float`, a parameter here, and of `int`, which
truncates. It matters that some texts raise. `float` reads "nan" and "inf" and compares them in its
own way, so a part may be such a value; and `int` of an infinity raises what the code does not
catch, so that a tick can end without a plan. That is the `none` of `planTick`.

## A plan, chunk by chunk

The loop goes over the chunks with the plan as its accumulator, and could make what it plans for one
chunk depend on those before it. It does not (`planTick_actions`), and this is also where its
weakness lies: two wedged chunks are decided on separately, and may be sent to the same card.
-/

namespace Hazync
namespace Tip

/-- Seconds, as `time.time()` has them. -/
abbrev Time := ℚ

/-! ## Texts -/

/-- What `float` reads in a text. -/
inductive Reading where
  | nan
  | inf (negative : Bool)
  | num (q : ℚ)
  deriving DecidableEq

namespace Reading

/-- `<` of a float and a number, which a `nan` is not. -/
def lt : Reading → ℚ → Bool
  | .nan, _ => false
  | .inf negative, _ => negative
  | .num r, q => r < q

/-- `== 0` -/
def isZero : Reading → Bool
  | .num r => r = 0
  | _ => false

/-- `int` of it, which truncates. There is none of a `nan`, and that of an infinity raises what
    `probe_size` does not catch. -/
def toInt : Reading → Option (Option ℤ)
  | .nan => some none
  | .inf _ => none
  | .num r => some (some (r.num.tdiv r.den))

end Reading

/-- `str.isspace` -/
def isSpace (c : Char) : Bool :=
  let n := c.toNat
  (9 ≤ n ∧ n ≤ 13) ∨ (28 ≤ n ∧ n ≤ 32) ∨ n = 0x85 ∨ n = 0xa0 ∨ n = 0x1680 ∨
    (0x2000 ≤ n ∧ n ≤ 0x200a) ∨ n = 0x2028 ∨ n = 0x2029 ∨ n = 0x202f ∨ n = 0x205f ∨ n = 0x3000

/-- `str.strip` -/
def strip (s : String) : String :=
  String.ofList (((s.toList.dropWhile isSpace).reverse.dropWhile isSpace).reverse)

/-- `s.split(":")` -/
def splitColons (s : String) : List String := (s.toList.splitOn ':').map String.ofList

/-- What the environment sets, and how `float` reads a text. -/
structure Settings where
  float : String → Option Reading
  IDLE_UTIL_PCT : ℚ := 5
  IDLE_VRAM_MIB : ℚ := 2000
  STALL_S : ℚ := 100

/-! ## Cards -/

inductive CardState where
  | done | working | idle | unreachable
  deriving DecidableEq

/-- The four parts of a reply. -/
structure Metrics where
  size : Reading
  util : Reading
  vram : Reading
  nproc : Reading

section Probe

variable (cfg : Settings)

/-- `float(p) if p else 0.0` -/
def number (p : String) : Option Reading := if p = "" then some (.num 0) else cfg.float p

/-- The four numbers of a reply. -/
def metrics : List String → Option Metrics
  | [size, util, vram, nproc] => do
    pure ⟨← number cfg size, ← number cfg util, ← number cfg vram, ← number cfg nproc⟩
  | _ => none

/-- `card_state` -/
def cardState : Option String → CardState
  | none => .unreachable
  | some probe =>
    let probe := strip probe
    if probe = "" then .unreachable
    else if probe = "DONE" ∨ "DONE:".toList.isPrefixOf probe.toList then .done
    else
      match metrics cfg (splitColons probe) with
      | none => .unreachable
      | some m =>
        if m.nproc.lt 1 then .idle
        else if m.util.lt cfg.IDLE_UTIL_PCT ∧ m.vram.lt cfg.IDLE_VRAM_MIB then .idle
        else .working

/-- `is_wedged` -/
def isWedged (state : CardState) (static : Time) : Bool := state = .idle ∧ cfg.STALL_S < static

/-- `can_accept_reassignment` -/
def canAcceptReassignment (probe : Option String) : Bool :=
  if cardState cfg probe = .unreachable then false
  else
    let parts := splitColons (strip (probe.getD ""))
    let parts := if parts.head? = some "DONE" then parts.tail else parts
    match metrics cfg parts with
    | none => false
    | some m => m.nproc.isZero ∧ m.vram.lt cfg.IDLE_VRAM_MIB

/-- `probe_size`, or nothing where it raises. -/
def probeSize (probe : Option String) : Option (Option ℤ) :=
  match cardState cfg probe with
  | .working | .idle =>
    match (splitColons (strip (probe.getD ""))).head? >>= cfg.float with
    | none => some none
    | some r => r.toInt
  | _ => some none

end Probe

/-! ## The plan of a tick -/

/-- What a tick has done about a chunk. -/
inductive Action (Card : Type) where
  | stage (chunk : ℕ) (card : Card)
  | reassign (chunk : ℕ) (card : Card)
  | restartInPlace (chunk : ℕ) (card : Card)
  deriving DecidableEq

def Action.chunk {Card : Type} : Action Card → ℕ
  | .stage c _ | .reassign c _ | .restartInPlace c _ => c

/-- The dict from the chunks of a run to their cards. -/
structure Assignments (Card : Type) where
  chunks : List ℕ
  nodup : chunks.Nodup
  card : ℕ → Card

def Assignments.cards {Card : Type} (a : Assignments Card) : List Card := a.chunks.map a.card

variable {Card : Type} [DecidableEq Card] (cfg : Settings)

/-- `plan_recovery` -/
def planRecovery (chunk : ℕ) (owner : Card) (candidates : List Card) (finished busy : Finset Card)
    (probes : Card → Option String) : Action Card :=
  match candidates.find? fun card =>
    card ≠ owner ∧ card ∉ busy ∧ card ∈ finished ∧ canAcceptReassignment cfg (probes card) with
  | some card => .reassign chunk card
  | none => .restartInPlace chunk owner

/-- What `plan_tick` is given. -/
structure TickInput (Card : Type) where
  assignments : Assignments Card
  probes : Card → Option String
  staged : Finset ℕ
  busy : Finset Card
  lastSize : ℕ → Option ℤ
  lastChange : ℕ → Option Time
  now : Time

namespace TickInput

variable (t : TickInput Card)

/-- How the card of the chunk does. -/
def state (chunk : ℕ) : CardState := cardState cfg (t.probes (t.assignments.card chunk))

/-- The chunks that are collected, or whose card says that it is done. -/
def finished : Finset ℕ :=
  t.staged ∪ (t.assignments.chunks.filter fun c => t.state cfg c = .done).toFinset

/-- The cards that may take another's chunk. -/
def finishedCards : Finset Card :=
  (t.assignments.chunks.filter fun c => c ∈ t.finished cfg).toFinset.image t.assignments.card

/-- What is done about a chunk whose card is wedged. -/
def recovery (chunk : ℕ) : Action Card :=
  planRecovery cfg chunk (t.assignments.card chunk) t.assignments.cards (t.finishedCards cfg) t.busy
    t.probes

end TickInput

/-- What `plan_tick` returns. -/
structure Plan (Card : Type) where
  actions : List (Action Card)
  lastSize : ℕ → Option ℤ
  lastChange : ℕ → Option Time

/-- A size that has moved starts the chunk's clock again. -/
def Plan.noted (p : Plan Card) (chunk : ℕ) (sz : Option ℤ) (now : Time) : Plan Card :=
  if sz.isSome ∧ sz ≠ p.lastSize chunk then
    { p with
      lastSize := Function.update p.lastSize chunk sz
      lastChange := Function.update p.lastChange chunk (some now) }
  else p

/-- The loop of `plan_tick` at a chunk whose card answered and has not finished. -/
def planAsked (t : TickInput Card) (state : CardState) (p : Plan Card) (chunk : ℕ) :
    Option (Plan Card) := do
  let sz ← probeSize cfg (t.probes (t.assignments.card chunk))
  let p := p.noted chunk sz t.now
  if isWedged cfg state (t.now - (p.lastChange chunk).getD t.now) then
    some
      { actions := p.actions ++ [t.recovery cfg chunk]
        lastSize := Function.update p.lastSize chunk (some 0)
        lastChange := Function.update p.lastChange chunk (some t.now) }
  else some p

/-- The loop of `plan_tick` at one chunk. -/
def planChunk (t : TickInput Card) (p : Plan Card) (chunk : ℕ) : Option (Plan Card) :=
  if chunk ∈ t.staged then some p
  else
    match t.state cfg chunk with
    | .done => some { p with actions := p.actions ++ [.stage chunk (t.assignments.card chunk)] }
    | .unreachable => some p
    | state => planAsked cfg t state p chunk

/-- `plan_tick`, or nothing where it raises. -/
def planTick (t : TickInput Card) : Option (Plan Card) :=
  t.assignments.chunks.foldlM (planChunk cfg t) ⟨[], t.lastSize, t.lastChange⟩

/-! ## The plan, chunk by chunk

A chunk comes once, and what is kept about it is read and set then. So what is planned for it
depends on what the tick is given, and not on the chunks before it.
-/

namespace TickInput

variable (t : TickInput Card)

/-- How long the chunk has been static. -/
def staticFor (chunk : ℕ) : Time :=
  match probeSize cfg (t.probes (t.assignments.card chunk)) with
  | some (some sz) =>
    if some sz ≠ t.lastSize chunk then 0 else t.now - (t.lastChange chunk).getD t.now
  | _ => t.now - (t.lastChange chunk).getD t.now

/-- The tick takes the chunk for wedged. -/
def wedged (chunk : ℕ) : Bool :=
  chunk ∉ t.staged ∧ isWedged cfg (t.state cfg chunk) (t.staticFor cfg chunk)

/-- Another's chunk can be moved to the card. -/
def accepts (card : Card) : Bool :=
  card ∈ t.assignments.cards ∧ card ∉ t.busy ∧ card ∈ t.finishedCards cfg ∧
    canAcceptReassignment cfg (t.probes card)

/-- What the tick plans for the chunk. -/
def decided (chunk : ℕ) : Option (Action Card) :=
  if chunk ∈ t.staged then none
  else if t.state cfg chunk = .done then some (.stage chunk (t.assignments.card chunk))
  else if t.wedged cfg chunk then some (t.recovery cfg chunk)
  else none

end TickInput

variable {cfg} {t : TickInput Card} {p p' : Plan Card} {c : ℕ} {card : Card} {a : Action Card}

/-- A card that can take it, or the same card. -/
theorem planRecovery_cases {owner : Card} {candidates : List Card} {finished busy : Finset Card}
    {probes : Card → Option String}
    (h : planRecovery cfg c owner candidates finished busy probes = a) :
    (∃ card, a = .reassign c card ∧ card ∈ candidates ∧ card ≠ owner ∧ card ∉ busy ∧
      card ∈ finished ∧ canAcceptReassignment cfg (probes card)) ∨
    (a = .restartInPlace c owner ∧ ∀ card ∈ candidates, card ≠ owner → card ∉ busy →
      card ∈ finished → canAcceptReassignment cfg (probes card) = false) := by
  unfold planRecovery at h
  split at h
  · rename_i card hfind
    have hcard := List.find?_some hfind
    simp only [decide_eq_true_eq] at hcard
    exact .inl ⟨card, h.symm, List.mem_of_find?_eq_some hfind, hcard⟩
  · rename_i hfind
    refine .inr ⟨h.symm, fun card hmem howner hbusy hfin => ?_⟩
    have hcard := List.find?_eq_none.mp hfind card hmem
    simp only [decide_eq_true_eq] at hcard
    exact Bool.eq_false_iff.mpr fun haccept => hcard ⟨howner, hbusy, hfin, haccept⟩

/-- It is about the chunk. -/
theorem recovery_chunk : (t.recovery cfg c).chunk = c := by
  obtain ⟨card, h, -⟩ | ⟨h, -⟩ := planRecovery_cases (rfl : t.recovery cfg c = t.recovery cfg c)
  all_goals exact h ▸ rfl

omit [DecidableEq Card] in
/-- A wedged chunk is not collected, and its card is idle. -/
theorem wedged_state (h : t.wedged cfg c) : c ∉ t.staged ∧ t.state cfg c = .idle := by
  simp only [TickInput.wedged, isWedged, decide_eq_true_eq] at h
  exact ⟨h.1, h.2.1⟩

/-- What is decided for a chunk is about it. -/
theorem decided_chunk (h : t.decided cfg c = some a) : a.chunk = c := by
  unfold TickInput.decided at h
  split_ifs at h
  · obtain rfl := Option.some.inj h
    rfl
  · obtain rfl := Option.some.inj h
    exact recovery_chunk

/-- It is collected, or recovered. -/
theorem decided_cases (h : t.decided cfg c = some a) :
    (a = .stage c (t.assignments.card c) ∧ t.state cfg c = .done ∧ c ∉ t.staged) ∨
    (a = t.recovery cfg c ∧ t.wedged cfg c) := by
  unfold TickInput.decided at h
  split_ifs at h with hstaged hdone hwedged
  · exact .inl ⟨(Option.some.inj h).symm, hdone, hstaged⟩
  · exact .inr ⟨(Option.some.inj h).symm, hwedged⟩

/-- A wedged chunk is recovered. -/
theorem decided_of_wedged (h : t.wedged cfg c) : t.decided cfg c = some (t.recovery cfg c) := by
  obtain ⟨hstaged, hstate⟩ := wedged_state h
  have hdone : t.state cfg c ≠ .done := by simp [hstate]
  simp [TickInput.decided, hstaged, hdone, h]

omit [DecidableEq Card] in
/-- A size that is noted plans nothing. -/
theorem Plan.noted_actions (p : Plan Card) (sz : Option ℤ) (now : Time) :
    (p.noted c sz now).actions = p.actions := by
  unfold Plan.noted
  split_ifs <;> rfl

omit [DecidableEq Card] in
/-- It is of one chunk. -/
theorem Plan.noted_of_ne (p : Plan Card) (sz : Option ℤ) (now : Time) : ∀ c' ≠ c,
    (p.noted c sz now).lastSize c' = p.lastSize c' ∧
      (p.noted c sz now).lastChange c' = p.lastChange c' := by
  intro c' hc'
  unfold Plan.noted
  split_ifs <;> simp [Function.update_of_ne hc']

/-- A chunk whose card answered is recovered if it has been static for too long, by what the card has
    just said. -/
theorem planAsked_spec {state : CardState} (h : planAsked cfg t state p c = some p')
    (hsize : p.lastSize c = t.lastSize c) (hchange : p.lastChange c = t.lastChange c) :
    p'.actions = p.actions ++
        (if isWedged cfg state (t.staticFor cfg c) then some (t.recovery cfg c) else none).toList ∧
      ∀ c' ≠ c, p'.lastSize c' = p.lastSize c' ∧ p'.lastChange c' = p.lastChange c' := by
  obtain ⟨sz, hsz, h⟩ := Option.bind_eq_some_iff.mp h
  have hstatic : t.staticFor cfg c = t.now - ((p.noted c sz t.now).lastChange c).getD t.now := by
    unfold TickInput.staticFor Plan.noted
    rw [hsz, ← hsize, ← hchange]
    cases sz with
    | none => simp
    | some sz => by_cases hmoved : some sz = p.lastSize c <;> simp [hmoved]
  simp only [← hstatic] at h
  have hnoted := p.noted_of_ne (c := c) sz t.now
  split_ifs at h ⊢ with hwedged
  · obtain rfl := Option.some.inj h
    refine ⟨by simp [p.noted_actions], fun c' hc' => ?_⟩
    simp [Function.update_of_ne hc', hnoted c' hc']
  · obtain rfl := Option.some.inj h
    exact ⟨by simp [p.noted_actions], hnoted⟩

/-- The loop plans for a chunk what is decided for it, and leaves the others' sizes and times. -/
theorem planChunk_spec (h : planChunk cfg t p c = some p') (hsize : p.lastSize c = t.lastSize c)
    (hchange : p.lastChange c = t.lastChange c) :
    p'.actions = p.actions ++ (t.decided cfg c).toList ∧
      ∀ c' ≠ c, p'.lastSize c' = p.lastSize c' ∧ p'.lastChange c' = p.lastChange c' := by
  unfold planChunk at h
  by_cases hstaged : c ∈ t.staged
  · rw [if_pos hstaged] at h
    obtain rfl := Option.some.inj h
    simp [TickInput.decided, hstaged]
  rw [if_neg hstaged] at h
  cases hstate : t.state cfg c with
  | done =>
    rw [hstate] at h
    obtain rfl := Option.some.inj h
    simp [TickInput.decided, hstaged, hstate]
  | unreachable =>
    rw [hstate] at h
    obtain rfl := Option.some.inj h
    simp [TickInput.decided, TickInput.wedged, isWedged, hstaged, hstate]
  | _ =>
    rw [hstate] at h
    simpa [TickInput.decided, TickInput.wedged, hstaged, hstate] using planAsked_spec h hsize hchange

/-- So the loop plans what is decided for each. -/
theorem foldlM_planChunk {l : List ℕ} (hl : l.Nodup) (h : l.foldlM (planChunk cfg t) p = some p')
    (hold : ∀ c ∈ l, p.lastSize c = t.lastSize c ∧ p.lastChange c = t.lastChange c) :
    p'.actions = p.actions ++ l.filterMap (t.decided cfg) := by
  induction l generalizing p with
  | nil =>
    obtain rfl := Option.some.inj h
    simp
  | cons c l ih =>
    obtain ⟨hc, hl⟩ := List.nodup_cons.mp hl
    rw [List.foldlM_cons] at h
    obtain ⟨q, hq, h⟩ := Option.bind_eq_some_iff.mp h
    have hhead := hold c List.mem_cons_self
    obtain ⟨hactions, hothers⟩ := planChunk_spec hq hhead.1 hhead.2
    have hkept : ∀ c' ∈ l, q.lastSize c' = t.lastSize c' ∧ q.lastChange c' = t.lastChange c' := by
      intro c' hc'
      have hne : c' ≠ c := fun heq => hc (heq ▸ hc')
      obtain ⟨hsize, hchange⟩ := hothers c' hne
      obtain ⟨hsize', hchange'⟩ := hold c' (List.mem_cons_of_mem _ hc')
      exact ⟨hsize.trans hsize', hchange.trans hchange'⟩
    rw [ih hl h hkept, hactions, List.append_assoc, List.filterMap_cons]
    cases t.decided cfg c <;> rfl

/-- **What a tick plans for a chunk does not depend on the others.** -/
theorem planTick_actions {plan : Plan Card} (h : planTick cfg t = some plan) :
    plan.actions = t.assignments.chunks.filterMap (t.decided cfg) :=
  (foldlM_planChunk t.assignments.nodup h fun _ _ => ⟨rfl, rfl⟩).trans (List.nil_append _)

end Tip
end Hazync
