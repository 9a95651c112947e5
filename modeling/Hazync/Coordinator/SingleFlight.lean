import Hazync.Lib.Runs
import Mathlib.Algebra.Group.Int.Defs
import Mathlib.Algebra.Order.Ring.Int
import Mathlib.Logic.Function.Basic

/-!
# A cache that one thread rebuilds (`_single_flight`, `coordinator/server.py`)

Threads that ask for one key share an entry and a mark. Who finds the entry old and no mark sets the
mark, builds the value, itself or on a thread of its own, and takes the mark away. Who finds a mark
gets the previous value, and waits where there is none. An invalidation takes the entry away, and
leaves the mark.

A thread steps from one use of the lock to the next. Times are in seconds, of any ordered group.

## The steps of a thread

A thread uses the lock a few times and does its long work between the uses, so its life is a list of
places (`Pc`): it has called, has set the mark and leads, waits for somebody else's event, is woken,
builds, has built, takes the mark away, signals, has its answer. A step takes one thread from one
place to the next; whatever else there is may happen in between. The entry does not hold a value,
which would be the builder's; it holds when it was stored, and the steps at which its build began
and it went in, which is all that the questions about it need.

`next` is written as the source is, by what a thread does next. `Moves` says the same by what
happens to the shared state, and is what the proofs go by: most moves (`Goes`) change nothing that
is shared.

## What is not promised

A caller who waits for a build does so for a minute at most, and then builds for itself, so two
builds at a time can come about (`twoBuilds`); and so can an answer that is older than any caller
asks for, where a build does not come back and the value before it is served behind its mark
(`oldValue`). Both are the source's intention: a slow answer is better than none. `CacheKept` says
exactly which answers can be old and which builds can be second.
-/

namespace Hazync
namespace Coordinator
namespace SingleFlight

/-- `CACHE_MAX_STALE`, and the time that `ev.wait` takes at most. -/
structure CacheConfig (α : Type) where
  maxStale : α
  patience : α

/-- An entry: when it was stored, and the steps in which its build began and it was stored. -/
structure Entry (α : Type) where
  t : α
  began : ℕ
  stored : ℕ

/-- A call: the clock it has read, its arguments, and the last invalidation before it. -/
structure Call (α : Type) where
  now : α
  ttl : α
  background : Bool
  dropped : ℕ

/-- Who builds: the call that has set the mark, or the thread it has started, or a call that has
waited since a time for another's mark. -/
inductive Job (α : Type) where
  | lead (call : Call α) (mark : ℕ)
  | refresh (mark : ℕ)
  | alone (call : Call α) (mark : ℕ) (since : α)

/-- Where a thread is. A value is absent where the builder has raised. An answer may have been taken
behind the mark of another. -/
inductive Pc (α : Type) where
  | idle
  | called (call : Call α)
  | waiting (call : Call α) (mark : ℕ) (since : α)
  | woken (call : Call α) (mark : ℕ) (since : α)
  | led (call : Call α) (seen : Option (Entry α))
  | building (job : Job α) (began : ℕ)
  | built (job : Job α) (began : ℕ)
  | releasing (job : Job α) (value : Option (Entry α))
  | signalling (job : Job α) (value : Option (Entry α))
  | answered (call : Call α) (value : Option (Entry α)) (behind : Option ℕ)
  | gone

/-- The entry and the mark of a key, the marks whose event is set, and the threads, each of which
makes one call. `steps` counts the steps, and `dropped` is the last of them that was an
invalidation. -/
structure Cache (α : Type) where
  clock : α
  steps : ℕ := 1
  dropped : ℕ := 0
  entry : Option (Entry α) := none
  busy : Option ℕ := none
  signalled : ℕ → Bool := fun _ => false
  pcs : ℕ → Pc α := fun _ => .idle

/-- What happens next. The clock goes on, a thread takes a step, or the entry is taken away. -/
inductive Act (α : Type) where
  | tick (clock : α)
  | call (i : ℕ) (ttl : α) (background : Bool)
  | look (i : ℕ)
  | wake (i : ℕ)
  | lookAgain (i : ℕ)
  | launch (i : ℕ) (thread : Option ℕ)
  | returns (i : ℕ)
  | raises (i : ℕ)
  | store (i : ℕ)
  | free (i : ℕ)
  | signal (i : ℕ)
  | invalidate

section Model

variable {α : Type} [AddCommGroup α] [LinearOrder α] (cfg : CacheConfig α)

/-- `now - e["t"] < ttl` -/
def Call.fresh (call : Call α) (e : Entry α) : Bool := call.now - e.t < call.ttl

/-- The previous value will do while another thread builds. -/
def Call.servable (call : Call α) (e : Entry α) : Bool :=
  call.background && call.now - e.t < call.ttl + cfg.maxStale

/-- The mark that the builder takes away. -/
def Job.mark : Job α → Option ℕ
  | .lead _ mark => some mark
  | .refresh mark => some mark
  | .alone .. => none

namespace Cache

variable (s : Cache α)

/-- A thread goes on. -/
def go (i : ℕ) (pc : Pc α) : Cache α :=
  { s with steps := s.steps + 1, pcs := Function.update s.pcs i pc }

/-- The first look at the entry and the mark. -/
def looked (i : ℕ) (call : Call α) : Cache α :=
  match s.entry.filter call.fresh with
  | some e => s.go i (.answered call (some e) none)
  | none =>
    match s.busy, s.entry with
    | none, seen => { s with busy := some i }.go i (.led call seen)
    | some mark, some e => s.go i (.answered call (some e) (some mark))
    | some mark, none => s.go i (.waiting call mark s.clock)

/-- Who has set the mark starts a thread, or builds where there is nothing to serve or no thread. -/
def launched (i : ℕ) (call : Call α) (seen : Option (Entry α)) (thread : Option ℕ) :
    Option (Cache α) :=
  match seen.filter (call.servable cfg), thread with
  | some e, some j =>
    match s.pcs j with
    | .idle =>
      let s' := s.go i (.answered call (some e) none)
      some { s' with pcs := Function.update s'.pcs j (.building (.refresh i) s.steps) }
    | _ => none
  | _, none => some (s.go i (.building (.lead call i) s.steps))
  | none, some _ => none

/-- The builder has raised. -/
def raised (i : ℕ) : Job α → Cache α
  | .alone call _ _ => s.go i (.answered call none none)
  | job => s.go i (.releasing job none)

/-- `_sf_store` -/
def stored (i : ℕ) (job : Job α) (began : ℕ) : Cache α :=
  let e : Entry α := ⟨s.clock, began, s.steps⟩
  { s with entry := some e }.go i
    (match job with
    | .alone call _ _ => .answered call (some e) none
    | job => .releasing job (some e))

/-- `ev.set()` -/
def signal (i mark : ℕ) (pc : Pc α) : Cache α :=
  { s with signalled := Function.update s.signalled mark true }.go i pc

/-- One step of the cache, if it can be taken: a tick of the clock, a thread's next use of the lock,
    or an invalidation. -/
def next (act : Act α) : Option (Cache α) :=
  match act with
  | .tick clock => if s.clock ≤ clock then some { s with clock, steps := s.steps + 1 } else none
  | .invalidate => some { s with entry := none, dropped := s.steps, steps := s.steps + 1 }
  | .call i ttl background =>
    match s.pcs i with
    | .idle => some (s.go i (.called ⟨s.clock, ttl, background, s.dropped⟩))
    | _ => none
  | .look i =>
    match s.pcs i with
    | .called call => some (s.looked i call)
    | _ => none
  | .wake i =>
    match s.pcs i with
    | .waiting call mark since =>
      if s.signalled mark = true ∨ since + cfg.patience ≤ s.clock then
        some (s.go i (.woken call mark since))
      else none
    | _ => none
  | .lookAgain i =>
    match s.pcs i, s.entry with
    | .woken call _ _, some e => some (s.go i (.answered call (some e) none))
    | .woken call mark since, none => some (s.go i (.building (.alone call mark since) s.steps))
    | _, _ => none
  | .launch i thread =>
    match s.pcs i with
    | .led call seen => s.launched cfg i call seen thread
    | _ => none
  | .returns i =>
    match s.pcs i with
    | .building job began => some (s.go i (.built job began))
    | _ => none
  | .raises i =>
    match s.pcs i with
    | .building job _ => some (s.raised i job)
    | _ => none
  | .store i =>
    match s.pcs i with
    | .built job began => some (s.stored i job began)
    | _ => none
  | .free i =>
    match s.pcs i with
    | .releasing job value => some ({ s with busy := none }.go i (.signalling job value))
    | _ => none
  | .signal i =>
    match s.pcs i with
    | .signalling (.lead call mark) value => some (s.signal i mark (.answered call value none))
    | .signalling (.refresh mark) _ => some (s.signal i mark .gone)
    | _ => none

end Cache

/-- A step. -/
def CacheStep (s : Cache α) (act : Act α) (s' : Cache α) : Prop := s.next cfg act = some s'

/-- The key has not been asked for. -/
def Unused (s : Cache α) : Prop := s = { clock := s.clock }

abbrev CacheRun := Runs.Run (Unused (α := α)) (CacheStep cfg)

/-! ## What a step does -/

variable {cfg} {s s' : Cache α} {act : Act α} {i j m : ℕ} {pc pc' : Pc α} {call : Call α}
  {job : Job α} {e : Entry α}

/-- The event of a mark is set, or the wait for it is over. -/
def Waited (cfg : CacheConfig α) (s : Cache α) (mark : ℕ) (since : α) : Prop :=
  s.signalled mark = true ∨ since + cfg.patience ≤ s.clock

/-- Where a thread gets to that changes nothing that is shared. -/
inductive Goes (cfg : CacheConfig α) (s : Cache α) (i : ℕ) : Pc α → Pc α → Prop where
  | call {ttl : α} {background : Bool} :
      Goes cfg s i .idle (.called ⟨s.clock, ttl, background, s.dropped⟩)
  | fresh {call : Call α} {e : Entry α} (he : s.entry = some e) (h : call.fresh e = true) :
      Goes cfg s i (.called call) (.answered call (some e) none)
  | behind {call : Call α} {e : Entry α} {mark : ℕ} (he : s.entry = some e) :
      Goes cfg s i (.called call) (.answered call (some e) (some mark))
  | wait {call : Call α} {mark : ℕ} (he : s.entry = none) :
      Goes cfg s i (.called call) (.waiting call mark s.clock)
  | wake {call : Call α} {mark : ℕ} {since : α} (h : Waited cfg s mark since) :
      Goes cfg s i (.waiting call mark since) (.woken call mark since)
  | found {call : Call α} {mark : ℕ} {since : α} {e : Entry α} (he : s.entry = some e) :
      Goes cfg s i (.woken call mark since) (.answered call (some e) none)
  | alone {call : Call α} {mark : ℕ} {since : α} :
      Goes cfg s i (.woken call mark since) (.building (.alone call mark since) s.steps)
  | inLine {call : Call α} {seen : Option (Entry α)} :
      Goes cfg s i (.led call seen) (.building (.lead call i) s.steps)
  | returns {job : Job α} {began : ℕ} : Goes cfg s i (.building job began) (.built job began)
  | fails {call : Call α} {mark began : ℕ} {since : α} :
      Goes cfg s i (.building (.alone call mark since) began) (.answered call none none)
  | raises {job : Job α} {began : ℕ} (h : job.mark ≠ none) :
      Goes cfg s i (.building job began) (.releasing job none)

/-- What a step does. -/
inductive Moves (cfg : CacheConfig α) (s : Cache α) : Cache α → Prop where
  | tick {clock : α} (h : s.clock ≤ clock) : Moves cfg s { s with clock, steps := s.steps + 1 }
  | invalidate : Moves cfg s { s with entry := none, dropped := s.steps, steps := s.steps + 1 }
  | go {i : ℕ} {pc' : Pc α} (h : Goes cfg s i (s.pcs i) pc') : Moves cfg s (s.go i pc')
  | lead {i : ℕ} {call : Call α} (hpc : s.pcs i = .called call) (hbusy : s.busy = none) :
      Moves cfg s ({ s with busy := some i }.go i (.led call s.entry))
  | spawn {i j : ℕ} {call : Call α} {seen : Option (Entry α)} {e : Entry α}
      (hpc : s.pcs i = .led call seen) (hidle : s.pcs j = .idle) (he : seen = some e)
      (h : call.servable cfg e = true) :
      Moves cfg s { s with
        steps := s.steps + 1
        pcs := Function.update (Function.update s.pcs i (.answered call (some e) none)) j
          (.building (.refresh i) s.steps) }
  | store {i began : ℕ} {job : Job α} (hpc : s.pcs i = .built job began) :
      Moves cfg s (s.stored i job began)
  | free {i : ℕ} {job : Job α} {value : Option (Entry α)} (hpc : s.pcs i = .releasing job value) :
      Moves cfg s ({ s with busy := none }.go i (.signalling job value))
  | answer {i mark : ℕ} {call : Call α} {value : Option (Entry α)}
      (hpc : s.pcs i = .signalling (.lead call mark) value) :
      Moves cfg s (s.signal i mark (.answered call value none))
  | end_ {i mark : ℕ} {value : Option (Entry α)}
      (hpc : s.pcs i = .signalling (.refresh mark) value) : Moves cfg s (s.signal i mark .gone)

/-- The first look at the entry answers from it, waits, or sets the mark. -/
theorem moves_looked (hpc : s.pcs i = .called call) : Moves cfg s (s.looked i call) := by
  have hgo : ∀ {pc'}, Goes cfg s i (.called call) pc' → Moves cfg s (s.go i pc') := by
    intro pc' h
    rw [← hpc] at h
    exact .go h
  unfold Cache.looked
  split
  · rename_i e hfresh
    obtain ⟨he, hlt⟩ := Option.filter_eq_some_iff.mp hfresh
    exact hgo (.fresh he hlt)
  · split
    · rename_i hbusy
      exact .lead hpc hbusy
    · rename_i mark e hbusy he
      exact hgo (.behind he)
    · rename_i mark hbusy he
      exact hgo (.wait he)

/-- Who leads builds in line, or starts a thread and answers from what there is. -/
theorem moves_launched {seen : Option (Entry α)} {thread : Option ℕ}
    (hpc : s.pcs i = .led call seen) (h : s.launched cfg i call seen thread = some s') :
    Moves cfg s s' := by
  unfold Cache.launched at h
  split at h
  · rename_i e j hserve
    obtain ⟨he, hlt⟩ := Option.filter_eq_some_iff.mp hserve
    split at h
    · rename_i hidle
      obtain rfl := Option.some.inj h
      exact .spawn hpc hidle he hlt
    · cases h
  · obtain rfl := Option.some.inj h
    refine .go ?_
    rw [hpc]
    exact .inLine
  · cases h

/-- **A step is one of the moves**, by the places from which it can be taken. -/
theorem CacheStep.moves (h : CacheStep cfg s act s') : Moves cfg s s' := by
  have hgo : ∀ {i pc pc'}, s.pcs i = pc → Goes cfg s i pc pc' → Moves cfg s (s.go i pc') := by
    intro i pc pc' hpc hgoes
    rw [← hpc] at hgoes
    exact .go hgoes
  -- one lock section or one build each, by what the thread is at
  unfold CacheStep Cache.next at h
  cases act with
  | tick clock =>
    dsimp only at h
    split_ifs at h with hle
    obtain rfl := Option.some.inj h
    exact .tick hle
  | invalidate =>
    obtain rfl := Option.some.inj h
    exact .invalidate
  | call i ttl background =>
    dsimp only at h
    split at h
    · rename_i hpc
      obtain rfl := Option.some.inj h
      exact hgo hpc .call
    · cases h
  | look i =>
    dsimp only at h
    split at h
    · rename_i call hpc
      obtain rfl := Option.some.inj h
      exact moves_looked hpc
    · cases h
  | wake i =>
    dsimp only at h
    split at h
    · rename_i call mark since hpc
      split_ifs at h with hwaited
      obtain rfl := Option.some.inj h
      exact hgo hpc (.wake hwaited)
    · cases h
  | lookAgain i =>
    dsimp only at h
    split at h
    · rename_i hpc he
      obtain rfl := Option.some.inj h
      exact hgo hpc (.found he)
    · rename_i hpc he
      obtain rfl := Option.some.inj h
      exact hgo hpc .alone
    · cases h
  | launch i thread =>
    dsimp only at h
    split at h
    · rename_i hpc
      exact moves_launched hpc h
    · cases h
  | returns i =>
    dsimp only at h
    split at h
    · rename_i hpc
      obtain rfl := Option.some.inj h
      exact hgo hpc .returns
    · cases h
  | raises i =>
    dsimp only at h
    split at h
    · rename_i job began hpc
      obtain rfl := Option.some.inj h
      -- a build that leads or refreshes has its mark to take back
      cases job with
      | alone call mark since => exact hgo hpc .fails
      | lead call mark => exact hgo hpc (.raises (Option.some_ne_none mark))
      | refresh mark => exact hgo hpc (.raises (Option.some_ne_none mark))
    · cases h
  | store i =>
    dsimp only at h
    split at h
    · rename_i hpc
      obtain rfl := Option.some.inj h
      exact .store hpc
    · cases h
  | free i =>
    dsimp only at h
    split at h
    · rename_i hpc
      obtain rfl := Option.some.inj h
      exact .free hpc
    · cases h
  | signal i =>
    dsimp only at h
    split at h
    · rename_i hpc
      obtain rfl := Option.some.inj h
      exact .answer hpc
    · rename_i hpc
      obtain rfl := Option.some.inj h
      exact .end_ hpc
    · cases h

/-! ## What holds of the threads -/

/-- The call was made no later than now, and knows of no later invalidation. -/
def CallOk (s : Cache α) (call : Call α) : Prop := call.now ≤ s.clock ∧ call.dropped ≤ s.dropped

/-- What holds of who builds: a call that leads is in order, and one that builds for itself has
    waited. -/
def JobOk (cfg : CacheConfig α) (s : Cache α) : Job α → Prop
  | .lead call _ => CallOk s call
  | .refresh _ => True
  | .alone call mark since => CallOk s call ∧ Waited cfg s mark since

/-- The value was stored after the last invalidation that the call knows of. -/
def Since (call : Call α) (e : Entry α) : Prop := call.dropped < e.stored

/-- The value was stored after the call, or not long before it. -/
def Recent (cfg : CacheConfig α) (call : Call α) (e : Entry α) : Prop :=
  call.now ≤ e.t ∨ call.now - e.t < max call.ttl (call.ttl + cfg.maxStale)

/-- What a builder in line has built is for its call. -/
def Job.Made (job : Job α) (e : Entry α) : Prop :=
  match job with
  | .lead call _ => Since call e ∧ call.now ≤ e.t
  | .refresh _ | .alone .. => True

/-- What holds where a thread is. One that waits has found no entry. -/
def PcOk (cfg : CacheConfig α) (s : Cache α) : Pc α → Prop
  | .called call => CallOk s call
  | .waiting call _ _ => CallOk s call ∧ ∀ e ∈ s.entry, call.now ≤ e.t
  | .woken call mark since =>
    CallOk s call ∧ (∀ e ∈ s.entry, call.now ≤ e.t) ∧ Waited cfg s mark since
  | .led call seen => CallOk s call ∧ ∀ e ∈ seen, Since call e
  | .building job _ | .built job _ => JobOk cfg s job
  | .releasing job value => job.mark ≠ none ∧ ∀ e ∈ value, job.Made e
  | .signalling job value => ∀ e ∈ value, job.Made e
  | .answered call value behind => ∀ e ∈ value, Since call e ∧ (behind = none → Recent cfg call e)
  | .idle | .gone => True

/-- The mark that a thread has to take away. -/
def Pc.mark (i : ℕ) : Pc α → Option ℕ
  | .led .. => some i
  | .building job _ | .built job _ | .releasing job _ => job.mark
  | _ => none

/-- The invariant of the cache. `busy` is the mark of a build; a caller keeps it from when it sets
    it to when it takes it off, and everybody else reads the entry or waits. -/
structure CacheInv (cfg : CacheConfig α) (s : Cache α) : Prop where
  /-- The counters: a drop happened before now. -/
  before : s.dropped < s.steps
  /-- An entry that is there came after the last drop. -/
  entry : ∀ e ∈ s.entry, s.dropped < e.stored
  /-- What each caller knows, where it is. -/
  pcs : ∀ i, PcOk cfg s (s.pcs i)
  /-- A caller that has a mark has the one that is up. -/
  marked : ∀ i m, (s.pcs i).mark i = some m → s.busy = some m
  /-- And a mark that is up is some caller's. -/
  owner : ∀ m, s.busy = some m → ∃ i, (s.pcs i).mark i = some m
  /-- So no two callers have one. -/
  single : ∀ i j, (s.pcs i).mark i ≠ none → (s.pcs j).mark j ≠ none → i = j

/-- What never goes back. An entry that comes in is stored now. -/
structure Later (s s' : Cache α) : Prop where
  clock : s.clock ≤ s'.clock
  dropped : s.dropped ≤ s'.dropped
  /-- A build that is over stays over for those that wait. -/
  signalled : ∀ m, s.signalled m = true → s'.signalled m = true
  entry : ∀ e ∈ s'.entry, s.entry = some e ∨ s.clock ≤ e.t

omit [AddCommGroup α] in
/-- A call stays in order. -/
theorem CallOk.later (h : CallOk s call) (hl : Later s s') : CallOk s' call :=
  ⟨h.1.trans hl.clock, h.2.trans hl.dropped⟩

theorem Waited.later {mark : ℕ} {since : α} (h : Waited cfg s mark since) (hl : Later s s') :
    Waited cfg s' mark since := by
  rcases h with hset | hover
  · exact .inl (hl.signalled mark hset)
  · exact .inr (hover.trans hl.clock)

theorem JobOk.later (h : JobOk cfg s job) (hl : Later s s') : JobOk cfg s' job := by
  cases job with
  | lead call mark => exact CallOk.later h hl
  | refresh mark => trivial
  | alone call mark since => exact ⟨h.1.later hl, h.2.later hl⟩

/-- What holds of a thread holds after a step of another. -/
theorem PcOk.later (h : PcOk cfg s pc) (hl : Later s s') : PcOk cfg s' pc := by
  have hentry : ∀ {call : Call α}, CallOk s call → (∀ e ∈ s.entry, call.now ≤ e.t) →
      ∀ e ∈ s'.entry, call.now ≤ e.t := by
    intro call hcall hold e he
    rcases hl.entry e he with hsame | hnow
    · exact hold e hsame
    · exact hcall.1.trans hnow
  cases pc with
  | called call => exact CallOk.later h hl
  | waiting call mark since => exact ⟨h.1.later hl, hentry h.1 h.2⟩
  | woken call mark since => exact ⟨h.1.later hl, hentry h.1 h.2.1, h.2.2.later hl⟩
  | led call seen => exact ⟨h.1.later hl, h.2⟩
  | building job began => exact JobOk.later h hl
  | built job began => exact JobOk.later h hl
  | releasing job value => exact h
  | signalling job value => exact h
  | answered call value behind => exact h
  | idle | gone => trivial

/-- **What a thread knows where it goes to.** What it has read of the entry is fresh, stored since,
    or somebody else's for now. -/
theorem CacheInv.goes (hs : CacheInv cfg s) (hpc : PcOk cfg s pc) (h : Goes cfg s i pc pc') :
    PcOk cfg s pc' := by
  cases h with
  | call => exact ⟨le_rfl, le_rfl⟩
  | fresh he hfresh =>
    intro e' he'
    obtain rfl := Option.some.inj he'
    refine ⟨lt_of_le_of_lt hpc.2 (hs.entry _ he), ?_⟩
    intro _
    exact .inr (lt_of_lt_of_le (of_decide_eq_true hfresh) (le_max_left _ _))
  | behind he =>
    intro e' he'
    obtain rfl := Option.some.inj he'
    refine ⟨lt_of_le_of_lt hpc.2 (hs.entry _ he), ?_⟩
    intro hnone
    cases hnone
  | wait he =>
    refine ⟨hpc, ?_⟩
    intro e he'
    rw [he] at he'
    cases he'
  | wake hwaited => exact ⟨hpc.1, hpc.2, hwaited⟩
  | found he =>
    intro e' he'
    obtain rfl := Option.some.inj he'
    refine ⟨lt_of_le_of_lt hpc.1.2 (hs.entry _ he), ?_⟩
    intro _
    exact .inl (hpc.2.1 _ he)
  | alone => exact ⟨hpc.1, hpc.2.2⟩
  | inLine => exact hpc.1
  | returns => exact hpc
  | fails =>
    intro e he
    cases he
  | raises hmark =>
    refine ⟨hmark, ?_⟩
    intro e he
    cases he

/-- A move that changes nothing shared leaves a thread the mark that it has to take away. -/
theorem Goes.mark_eq (h : Goes cfg s i pc pc') : pc'.mark i = pc.mark i := by
  cases h <;> rfl

/-- A thread goes on that keeps its mark, and so do the others. -/
theorem CacheInv.keep (hs : CacheInv cfg s) (hl : Later s s') (hbefore : s'.dropped < s'.steps)
    (hentry : ∀ e ∈ s'.entry, s'.dropped < e.stored) (hbusy : s'.busy = s.busy)
    (hpcs : s'.pcs = Function.update s.pcs i pc') (hpc : PcOk cfg s' pc')
    (hmark : pc'.mark i = (s.pcs i).mark i) : CacheInv cfg s' := by
  have hmarks : ∀ j, (s'.pcs j).mark j = (s.pcs j).mark j := by
    intro j
    rw [hpcs]
    by_cases hj : j = i
    · rw [hj, Function.update_self]
      exact hmark
    · rw [Function.update_of_ne hj]
  refine ⟨hbefore, hentry, ?_, ?_, ?_, ?_⟩
  · intro j
    rw [hpcs]
    by_cases hj : j = i
    · rw [hj, Function.update_self]
      exact hpc
    · rw [Function.update_of_ne hj]
      exact (hs.pcs j).later hl
  · intro j m hm
    rw [hmarks] at hm
    rw [hbusy]
    exact hs.marked j m hm
  · intro m hm
    rw [hbusy] at hm
    obtain ⟨j, hj⟩ := hs.owner m hm
    exact ⟨j, (hmarks j).trans hj⟩
  · intro j k hj hk
    rw [hmarks] at hj hk
    exact hs.single j k hj hk

omit [AddCommGroup α] in
theorem later_go (s : Cache α) (i : ℕ) (pc : Pc α) : Later s (s.go i pc) :=
  ⟨le_rfl, le_rfl, fun _ h => h, fun _ he => .inl he⟩

theorem CacheInv.go (hs : CacheInv cfg s) (h : Goes cfg s i (s.pcs i) pc') :
    CacheInv cfg (s.go i pc') := by
  refine hs.keep (later_go s i pc') (Nat.lt_succ_of_lt hs.before) hs.entry rfl rfl ?_ h.mark_eq
  exact (hs.goes (hs.pcs i) h).later (later_go s i pc')

/-- A value that is stored is stored now, and after every invalidation. -/
theorem CacheInv.store {began : ℕ} (hs : CacheInv cfg s) (hpc : s.pcs i = .built job began) :
    CacheInv cfg (s.stored i job began) := by
  have hjob : JobOk cfg s job := by
    have hold := hs.pcs i
    rw [hpc] at hold
    exact hold
  have hl : Later s (s.stored i job began) := by
    refine ⟨le_rfl, le_rfl, fun _ h => h, ?_⟩
    intro e he
    obtain rfl := Option.some.inj he
    exact .inr le_rfl
  refine hs.keep hl (Nat.lt_succ_of_lt hs.before) ?_ rfl rfl ?_ ?_
  · intro e he
    obtain rfl := Option.some.inj he
    exact hs.before
  · cases job with
    | lead call mark =>
      refine ⟨Option.some_ne_none mark, ?_⟩
      intro e he
      obtain rfl := Option.some.inj he
      exact ⟨lt_of_le_of_lt hjob.2 hs.before, hjob.1⟩
    | refresh mark => exact ⟨Option.some_ne_none mark, fun _ _ => trivial⟩
    | alone call mark since =>
      intro e he
      obtain rfl := Option.some.inj he
      refine ⟨lt_of_le_of_lt hjob.1.2 hs.before, ?_⟩
      intro _
      exact .inl hjob.1.1
  · rw [hpc]
    cases job <;> rfl

/-- A signal is the last that is done with a mark. -/
theorem CacheInv.signal {value : Option (Entry α)} (hs : CacheInv cfg s)
    (hpc : s.pcs i = .signalling job value) (hnew : PcOk cfg s pc') (hmark : pc'.mark i = none)
    (mark : ℕ) : CacheInv cfg (s.signal i mark pc') := by
  have hl : Later s (s.signal i mark pc') := by
    refine ⟨le_rfl, le_rfl, ?_, fun _ he => .inl he⟩
    intro m hm
    unfold Cache.signal Cache.go
    dsimp only
    by_cases hmark : m = mark
    · rw [hmark, Function.update_self]
    · rw [Function.update_of_ne hmark]
      exact hm
  refine hs.keep hl (Nat.lt_succ_of_lt hs.before) hs.entry rfl rfl (hnew.later hl) ?_
  rw [hpc, hmark]
  rfl

/-- With the mark away nobody has to take it away. -/
theorem CacheInv.free {value : Option (Entry α)} (hs : CacheInv cfg s)
    (hpc : s.pcs i = .releasing job value) :
    CacheInv cfg ({ s with busy := none }.go i (.signalling job value)) := by
  have hold := hs.pcs i
  rw [hpc] at hold
  obtain ⟨hmark, hmade⟩ := hold
  have hmarked : (s.pcs i).mark i ≠ none := by
    rw [hpc]
    exact hmark
  have hl : Later s ({ s with busy := none }.go i (.signalling job value)) :=
    ⟨le_rfl, le_rfl, fun _ h => h, fun _ he => .inl he⟩
  have hnone : ∀ j, (Function.update s.pcs i (.signalling job value) j).mark j = none := by
    intro j
    by_cases hj : j = i
    · rw [hj, Function.update_self]
      rfl
    · rw [Function.update_of_ne hj]
      by_contra hother
      exact hj (hs.single j i hother hmarked)
  refine ⟨Nat.lt_succ_of_lt hs.before, hs.entry, ?_, ?_, ?_, ?_⟩
  · intro j
    show PcOk cfg _ (Function.update s.pcs i (.signalling job value) j)
    by_cases hj : j = i
    · rw [hj, Function.update_self]
      exact hmade
    · rw [Function.update_of_ne hj]
      exact (hs.pcs j).later hl
  · intro j m hm
    exact absurd ((hnone j).symm.trans hm) (Option.some_ne_none m).symm
  · intro m hm
    cases hm
  · intro j k hj
    exact absurd (hnone j) hj

/-- Where there is no mark nobody has to take one away, but for the one that sets it. -/
theorem CacheInv.lead (hs : CacheInv cfg s) (hpc : s.pcs i = .called call)
    (hbusy : s.busy = none) :
    CacheInv cfg ({ s with busy := some i }.go i (.led call s.entry)) := by
  have hcall : CallOk s call := by
    have hold := hs.pcs i
    rw [hpc] at hold
    exact hold
  have hl : Later s ({ s with busy := some i }.go i (.led call s.entry)) :=
    ⟨le_rfl, le_rfl, fun _ h => h, fun _ he => .inl he⟩
  have hmark : ∀ j m, (Function.update s.pcs i (.led call s.entry) j).mark j = some m →
      j = i ∧ m = i := by
    intro j m hm
    by_cases hj : j = i
    · rw [hj, Function.update_self] at hm
      exact ⟨hj, (Option.some.inj hm).symm⟩
    · rw [Function.update_of_ne hj] at hm
      have hset := hs.marked j m hm
      rw [hbusy] at hset
      cases hset
  refine ⟨Nat.lt_succ_of_lt hs.before, hs.entry, ?_, ?_, ?_, ?_⟩
  · intro j
    show PcOk cfg _ (Function.update s.pcs i (.led call s.entry) j)
    by_cases hj : j = i
    · rw [hj, Function.update_self]
      exact ⟨hcall.later hl, fun e he => lt_of_le_of_lt hcall.2 (hs.entry e he)⟩
    · rw [Function.update_of_ne hj]
      exact (hs.pcs j).later hl
  · intro j m hm
    obtain ⟨-, rfl⟩ := hmark j m hm
    rfl
  · intro m hm
    obtain rfl := Option.some.inj hm
    refine ⟨i, ?_⟩
    show (Function.update s.pcs i (.led call s.entry) i).mark i = some i
    rw [Function.update_self]
    rfl
  · intro j k hj hk
    obtain ⟨m, hm⟩ := Option.ne_none_iff_exists'.mp hj
    obtain ⟨m', hm'⟩ := Option.ne_none_iff_exists'.mp hk
    exact (hmark j m hm).1.trans (hmark k m' hm').1.symm

/-- The mark goes from the call to the thread that it starts. -/
theorem CacheInv.spawn {seen : Option (Entry α)} (hs : CacheInv cfg s)
    (hpc : s.pcs i = .led call seen) (hidle : s.pcs j = .idle) (he : seen = some e)
    (h : call.servable cfg e = true) : CacheInv cfg { s with
      steps := s.steps + 1
      pcs := Function.update (Function.update s.pcs i (.answered call (some e) none)) j
        (.building (.refresh i) s.steps) } := by
  have hold := hs.pcs i
  rw [hpc] at hold
  have hled : (s.pcs i).mark i = some i := by
    rw [hpc]
    rfl
  have hbusy : s.busy = some i := hs.marked i i hled
  have hne : i ≠ j := by
    rintro rfl
    rw [hpc] at hidle
    cases hidle
  have hlater : call.now - e.t < call.ttl + cfg.maxStale := by
    unfold Call.servable at h
    rw [Bool.and_eq_true] at h
    exact of_decide_eq_true h.2
  have hmark : ∀ k m, (Function.update (Function.update s.pcs i (.answered call (some e) none)) j
      (.building (.refresh i) s.steps) k).mark k = some m → k = j ∧ m = i := by
    intro k m hm
    by_cases hk : k = j
    · rw [hk, Function.update_self] at hm
      exact ⟨hk, (Option.some.inj hm).symm⟩
    · rw [Function.update_of_ne hk] at hm
      by_cases hi : k = i
      · rw [hi, Function.update_self] at hm
        cases hm
      · rw [Function.update_of_ne hi] at hm
        have hsome : (s.pcs k).mark k ≠ none := by
          rw [hm]
          exact Option.some_ne_none m
        have hled' : (s.pcs i).mark i ≠ none := by
          rw [hled]
          exact Option.some_ne_none i
        exact absurd (hs.single k i hsome hled') hi
  refine ⟨Nat.lt_succ_of_lt hs.before, hs.entry, ?_, ?_, ?_, ?_⟩
  · intro k
    dsimp only
    by_cases hk : k = j
    · rw [hk, Function.update_self]
      trivial
    · rw [Function.update_of_ne hk]
      by_cases hi : k = i
      · rw [hi, Function.update_self]
        intro e' he'
        obtain rfl := Option.some.inj he'
        refine ⟨hold.2 _ he, ?_⟩
        intro _
        exact .inr (lt_of_lt_of_le hlater (le_max_right _ _))
      · rw [Function.update_of_ne hi]
        exact (hs.pcs k).later ⟨le_rfl, le_rfl, fun _ h => h, fun _ he => .inl he⟩
  · intro k m hm
    obtain ⟨-, rfl⟩ := hmark k m hm
    exact hbusy
  · intro m hm
    have hm : s.busy = some m := hm
    rw [hbusy] at hm
    obtain rfl := Option.some.inj hm
    refine ⟨j, ?_⟩
    dsimp only
    rw [Function.update_self]
    rfl
  · intro k k' hk hk'
    obtain ⟨m, hm⟩ := Option.ne_none_iff_exists'.mp hk
    obtain ⟨m', hm'⟩ := Option.ne_none_iff_exists'.mp hk'
    exact (hmark k m hm).1.trans (hmark k' m' hm').1.symm

/-- The threads stay where they are. -/
theorem CacheInv.stay (hs : CacheInv cfg s) (hl : Later s s') (hbefore : s'.dropped < s'.steps)
    (hentry : ∀ e ∈ s'.entry, s'.dropped < e.stored) (hbusy : s'.busy = s.busy)
    (hpcs : s'.pcs = s.pcs) : CacheInv cfg s' := by
  have hsame : s'.pcs = Function.update s.pcs 0 (s.pcs 0) := by
    rw [Function.update_eq_self]
    exact hpcs
  exact hs.keep hl hbefore hentry hbusy hsame ((hs.pcs 0).later hl) rfl

/-- **A step keeps the invariant**, by the moves. -/
theorem CacheInv.step (hs : CacheInv cfg s) (h : CacheStep cfg s act s') : CacheInv cfg s' := by
  cases h.moves with
  | tick hle =>
    exact hs.stay ⟨hle, le_rfl, fun _ h => h, fun _ he => .inl he⟩ (Nat.lt_succ_of_lt hs.before)
      hs.entry rfl rfl
  | invalidate =>
    refine hs.stay ⟨le_rfl, hs.before.le, fun _ h => h, ?_⟩ (Nat.lt_succ_self _) ?_ rfl rfl
    · intro e he
      cases he
    · intro e he
      cases he
  | go hgoes => exact hs.go hgoes
  | lead hpc hbusy => exact hs.lead hpc hbusy
  | spawn hpc hidle he hserve => exact hs.spawn hpc hidle he hserve
  | store hpc => exact hs.store hpc
  | free hpc => exact hs.free hpc
  | @answer i mark call value hpc =>
    have hold := hs.pcs i
    rw [hpc] at hold
    refine hs.signal hpc ?_ rfl mark
    intro e he
    obtain ⟨hsince, hnow⟩ := hold e he
    refine ⟨hsince, ?_⟩
    intro _
    exact .inl hnow
  | end_ hpc =>
    have hgone : PcOk cfg s .gone := trivial
    exact hs.signal hpc hgone rfl _

/-- The invariant holds in every state of a run. -/
theorem CacheInv.of_run {trace : List (Cache α × Act α × Cache α)} (h : CacheRun cfg trace s) :
    CacheInv cfg s := by
  induction h with
  | nil hinit =>
    rw [hinit]
    refine ⟨Nat.zero_lt_one, ?_, fun _ => trivial, ?_, ?_, ?_⟩
    · intro e he
      cases he
    · intro i m hm
      cases hm
    · intro m hm
      cases hm
    · intro i j hi
      exact absurd rfl hi
  | snoc _ hstep ih => exact ih.step hstep

/-! ## What a run keeps -/

/-- The thread is in the builder. -/
def Pc.builds : Pc α → Bool
  | .building .. => true
  | _ => false

/-- The builder has returned or raised, and the mark is not yet away. -/
def Pc.finished : Pc α → Bool
  | .built .. | .releasing .. => true
  | _ => false

/-- A call that builds for itself: it has found no entry and another's mark, has waited until the
event of the mark was set or the wait was over, and has found no entry again. -/
def GaveUp (cfg : CacheConfig α) (s : Cache α) (pc : Pc α) : Prop :=
  ∃ call mark since began, pc = .building (.alone call mark since) began ∧ Waited cfg s mark since

/-- One build at a time but for those that have given up, a mark that comes off, and values that are
not too old. An answer behind a mark is the entry that was there beside another's mark. -/
structure CacheKept (cfg : CacheConfig α) (s : Cache α) : Prop where
  /-- A second build is that of a caller who has waited and found nothing. -/
  oneBuild : ∀ i j, i ≠ j → (s.pcs i).builds = true → (s.pcs j).builds = true →
    GaveUp cfg s (s.pcs i) ∨ GaveUp cfg s (s.pcs j)
  /-- The mark has one owner. -/
  owner : ∀ m, s.busy = some m → ∃ i, (s.pcs i).mark i = some m ∧
    ∀ j, (s.pcs j).mark j ≠ none → j = i
  /-- A build that is finished takes its mark off within two steps, with a value or without. -/
  freed : ∀ i m, (s.pcs i).mark i = some m → (s.pcs i).finished = true →
    ∃ acts ∈ [[.free i], [.store i, .free i]], ∃ s', acts.foldlM (Cache.next cfg) s = some s' ∧
      s'.busy = none
  /-- An answer that is not behind a mark is of this call, or as fresh as the caller asks for. -/
  recent : ∀ i call e, s.pcs i = .answered call (some e) none → Recent cfg call e
  /-- And it was stored after the last drop that there was when the call came. -/
  since : ∀ i call e behind, s.pcs i = .answered call (some e) behind → Since call e

/-- A build without a mark to take away is that of a call that has given up. -/
theorem gaveUp_of_mark {began : ℕ} (hpc : PcOk cfg s pc) (heq : pc = .building job began)
    (h : job.mark = none) : GaveUp cfg s pc := by
  cases job with
  | lead call mark => cases h
  | refresh mark => cases h
  | alone call mark since =>
    rw [heq] at hpc
    exact ⟨call, mark, since, began, heq, hpc.2⟩

/-- Once its builder is done, a thread takes its mark away in two steps. -/
theorem CacheInv.freed (h : (s.pcs i).mark i = some m) (hdone : (s.pcs i).finished = true) :
    ∃ acts ∈ [[Act.free i], [.store i, .free i]], ∃ s', acts.foldlM (Cache.next cfg) s = some s' ∧
      s'.busy = none := by
  generalize hpc : s.pcs i = pc at h hdone
  cases pc with
  | built job began =>
    refine ⟨_, .tail _ (.head _), ?_⟩
    have hreleasing : ∃ value, (s.stored i job began).pcs i = .releasing job value := by
      unfold Cache.stored Cache.go
      dsimp only
      rw [Function.update_self]
      cases job with
      | alone call mark since => cases h
      | lead call mark => exact ⟨_, rfl⟩
      | refresh mark => exact ⟨_, rfl⟩
    obtain ⟨value, hvalue⟩ := hreleasing
    have hstore : s.next cfg (.store i) = some (s.stored i job began) := by
      unfold Cache.next
      dsimp only
      rw [hpc]
    have hfree : (s.stored i job began).next cfg (.free i) =
        some ({ s.stored i job began with busy := none }.go i (.signalling job value)) := by
      unfold Cache.next
      dsimp only
      rw [hvalue]
    refine ⟨{ s.stored i job began with busy := none }.go i (.signalling job value), ?_, rfl⟩
    rw [List.foldlM_cons, hstore]
    show (Cache.next cfg (s.stored i job began) (.free i) >>= fun s' => pure s') = _
    rw [hfree]
    rfl
  | releasing job value =>
    have hfree : s.next cfg (.free i) =
        some ({ s with busy := none }.go i (.signalling job value)) := by
      unfold Cache.next
      dsimp only
      rw [hpc]
    refine ⟨_, .head _, { s with busy := none }.go i (.signalling job value), ?_, rfl⟩
    rw [List.foldlM_cons, hfree]
    rfl
  | idle | called | waiting | woken | led | building | signalling | answered | gone => cases hdone

/-- **The cache under every order of steps**: one build at a time but for the callers who gave up, a
    mark that always comes off, and answers that are fresh, of this call, or taken behind a mark. -/
theorem cache_kept {trace : List (Cache α × Act α × Cache α)} (h : CacheRun cfg trace s) :
    CacheKept cfg s := by
  have hs := CacheInv.of_run h
  refine ⟨?_, ?_, ?_, ?_, ?_⟩
  · intro i j hne hi hj
    have hbuild : ∀ k, (s.pcs k).builds = true → ∃ job began, s.pcs k = .building job began := by
      intro k hk
      generalize s.pcs k = pc at hk
      cases pc with
      | building job began => exact ⟨job, began, rfl⟩
      | idle | called | waiting | woken | led | built | releasing | signalling | answered | gone =>
        cases hk
    obtain ⟨job, began, hjob⟩ := hbuild i hi
    obtain ⟨job', began', hjob'⟩ := hbuild j hj
    by_cases hmark : job.mark = none
    · exact .inl (gaveUp_of_mark (hs.pcs i) hjob hmark)
    by_cases hmark' : job'.mark = none
    · exact .inr (gaveUp_of_mark (hs.pcs j) hjob' hmark')
    · refine absurd (hs.single i j ?_ ?_) hne
      · rw [hjob]
        exact hmark
      · rw [hjob']
        exact hmark'
  · intro m hm
    obtain ⟨i, hi⟩ := hs.owner m hm
    refine ⟨i, hi, ?_⟩
    intro j hj
    refine hs.single j i hj ?_
    rw [hi]
    exact Option.some_ne_none m
  · intro i m hm hdone
    exact CacheInv.freed hm hdone
  · intro i call e heq
    have hpc := hs.pcs i
    rw [heq] at hpc
    exact (hpc e rfl).2 rfl
  · intro i call e behind heq
    have hpc := hs.pcs i
    rw [heq] at hpc
    exact (hpc e rfl).1

end Model

/-! ## Slow builders -/

/-- What holds where the environment sets nothing. -/
def seconds : CacheConfig ℤ := ⟨60, 60⟩

/-- The run of a script from a key that nobody has asked for, as far as it goes. -/
def played (script : List (Act ℤ)) : List (Cache ℤ × Act ℤ × Cache ℤ) × Cache ℤ :=
  Runs.play (Cache.next seconds) { clock := 0 } script

theorem played_run (script : List (Act ℤ)) :
    CacheRun seconds (played script).1 (played script).2 := by
  have hunused : Unused ({ clock := 0 } : Cache ℤ) := rfl
  exact Runs.Run.play (fun _ _ _ h => h) hunused script

/-- A call that builds, and finishes. -/
def asks (i : ℕ) : List (Act ℤ) := [.call i 2 false, .look i, .launch i none]

/-- The builder of the thread `i` returns, and its mark comes off. -/
def finishes (i : ℕ) : List (Act ℤ) := [.returns i, .store i, .free i, .signal i]

/-- The first build is slow, a second call gives up and builds, and a third finds the value old. -/
def twoBuilds : List (Act ℤ) :=
  asks 0 ++ [.call 1 2 false, .look 1, .tick 60, .wake 1, .lookAgain 1] ++ finishes 0 ++
    [.tick 100] ++ asks 2

/-- A second build does not come back, and a third call gets the first value after it. -/
def oldValue : List (Act ℤ) :=
  asks 0 ++ finishes 0 ++ [.tick 10] ++ asks 1 ++ [.tick 1000, .call 2 2 false, .look 2]

/-- The value is built before the invalidation, and stored after it. -/
def lateValue : List (Act ℤ) :=
  asks 0 ++ [.invalidate, .call 1 2 false, .look 1] ++ finishes 0 ++ [.wake 1, .lookAgain 1]

theorem cache_lapses :
    (∃ trace s, CacheRun seconds trace s ∧ s.entry ≠ none ∧
      ∃ i j, i ≠ j ∧ (s.pcs i).builds = true ∧ (s.pcs j).builds = true) ∧
    (∃ trace s, CacheRun seconds trace s ∧
      ∃ i call e behind, s.pcs i = .answered call (some e) behind ∧
        call.ttl + seconds.maxStale < call.now - e.t) ∧
    (∃ trace s, CacheRun seconds trace s ∧
      ∃ i call e behind, s.pcs i = .answered call (some e) behind ∧ e.began < call.dropped) := by
  refine ⟨⟨_, _, played_run twoBuilds, ?_, 1, 2, by decide, rfl, rfl⟩,
    ⟨_, _, played_run oldValue, 2, ⟨1000, 2, false, 0⟩, ⟨0, 3, 5⟩, some 1, rfl, by decide⟩,
    ⟨_, _, played_run lateValue, 1, ⟨0, 2, false, 4⟩, ⟨0, 3, 8⟩, none, rfl, by decide⟩⟩
  exact Option.some_ne_none _

theorem cache_kept_twoBuilds : CacheKept seconds (played twoBuilds).2 :=
  cache_kept (played_run twoBuilds)

end SingleFlight
end Coordinator
end Hazync
