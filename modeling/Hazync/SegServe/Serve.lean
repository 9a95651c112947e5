import Hazync.Lib.Runs
import Hazync.SegServe.JoinTree

/-!
# The segment coordinator

`seg_serve_cmd` shares six structures between its threads: `wire` and `queue` for the segments,
`out` and `last_out` for their receipts, `jobs` and `jout` for joins, resolves and the last lift.
The main thread runs the executor, which publishes each segment one segment late, waits for the
receipts, and then drives the lift, the join tree and the resolves. A connection has a writer thread,
which takes work off `queue` and `jobs`, and a reader thread, which routes what comes back by its tag.

A step is one stretch of a thread between two of its locks, so a piece of work that has left one
structure and not reached the next is in the hand of the thread that moves it. The order in which a
writer polls `queue` and `jobs` is left open, and its deadline may pass whenever it holds work.

## How the threads are modelled

Every mutex of the source guards one of the structures, and what happens between two locks is the
thread's own. So a thread is a small state machine, whose states are the places where it can be
between two locks and what it has in hand there. Its steps are relations and not functions, because
the source has choices that depend on time, on the network or on the order in which threads run. A
writer may find either queue first, a send may fail, a deadline may pass; each is a step that is
allowed whenever it is possible at all.

Panics are part of it. A thread that indexes out of bounds poisons the lock that it holds. Here it
sets `crashed`, and no step follows. That this never happens is proved, not assumed.

The peers are not modelled. What they send is the argument of a `receive` step, any index with any
bytes, and a property of the peers is a condition on the events of a run (`Event.Answers`,
`Event.InOrder`). Whether a receipt is good is decided by the functions of `Setup`, which stand for
the library's verification.

Times, progress lines and the names of cards have no effect on the work, and are left out, but for
the name itself, which comes from the network and is filtered.
-/

namespace Hazync.SegServe

open ByteStrings

variable {R S : Type*}

/-- `hello_card_name`: the bytes of a hello that can stand in a name, forty of them at most.

Decoding the body as UTF-8 first changes nothing: what is no ASCII byte decodes to nothing the
filter lets through. -/
def helloCardName (body : Bytes) : Option Bytes :=
  let name := (body.filter fun b =>
    (48 ≤ b && b ≤ 57) || (65 ≤ b && b ≤ 90) || (97 ≤ b && b ≤ 122) || b == 45 || b == 95 || b == 46).take 40
  if name.isEmpty then none else some name

/-- What the coordinator works with: `R` is a lifted receipt, `S` an unlifted one. -/
structure Setup (R S : Type*) where
  depth : ℕ
  /-- `bincode::deserialize` to a `SuccinctReceipt`, then `verify_integrity_with_context`. -/
  succinct : Bytes → Option R
  /-- The same for a `SegmentReceipt`. -/
  segment : Bytes → Option S
  /-- The session's output merged into the last receipt, serialised. -/
  merged : S → Bytes
  /-- `pack_pair` of two serialised receipts. -/
  pair : R → R → Bytes
  join : R → R → R
  joinLocalMax : ℕ
  /-- How many assumptions the session has. -/
  nres : ℕ
  resolveLocal : Bool
  /-- The pair a resolve job carries. -/
  resolveBody : R → ℕ → Bytes
  resolve : R → ℕ → R

/-- A job and its number in the order of publication, which is not on the wire. -/
structure Job where
  id : ℕ
  tag : UInt32
  body : Bytes
  deriving DecidableEq

/-- The writer thread of a connection. -/
inductive Writer
  | idle
  | took (i : ℕ)
  | sending (i : ℕ) (tag : UInt32)
  | unsent (i : ℕ)
  | tookJob (j : Job)
  | sendingJob (j : Job)
  | unsentJob (j : Job)
  | closing
  | drained
  | gone

/-- The reader thread of a connection. -/
inductive Reader
  | idle
  | segment (i : UInt32) (body : Bytes)
  | job (i : UInt32) (body : Bytes) (owed : Option Job)
  | ended

/-- A connection: the lists of the writer, with what is known of the peer, and the two threads. -/
structure Conn where
  inflight : List ℕ
  injobs : List Job
  card : Option Bytes
  stop : Bool
  writer : Writer
  reader : Reader
  /-- The tags of the frames that are on the wire or with the worker. -/
  unanswered : List UInt32

/-- A connection that has just been accepted. -/
def Conn.opened : Conn := ⟨[], [], none, false, .idle, .idle, []⟩

/-- What the threads share. The last fields are the history: how many segments and which jobs have
been published, which segments have been sent under which tag, which jobs have been accepted, of
which job the result under a tag of `jout` is, and of which jobs the driver has taken it. The code
keys `jout` by the tag alone, so two jobs of one tag share a place there; the history tells them
apart. -/
structure Shared (R S : Type*) where
  wire : List Bytes
  out : List (Option R)
  lastOut : Option S
  queue : List ℕ
  jobs : List Job
  jout : UInt32 → Option R
  totalKnown : Option ℕ
  /-- `unnamed_conns`; the code's counter wraps where this one turns negative. -/
  unnamed : ℤ
  alldone : Bool
  /-- A thread has indexed out of bounds, and poisoned what it held. -/
  crashed : Bool
  published : ℕ
  lastAccepted : Bool
  sent : List (ℕ × UInt32)
  posted : List Job
  accepted : List Job
  whose : UInt32 → Option Job
  taken : Job → Bool

/-- The main thread. -/
inductive Main (R : Type*)
  /-- The executor: what it has still to produce, the segment held back, the one to be queued. -/
  | executing (rest : List Bytes) (pending due : Option ℕ)
  | executed
  | waiting
  | lifting (lifted : List R)
  | joining (widths : List ℕ) (d : Driver R)
  | resolving (k : ℕ) (conditional : R)
  | awaiting (k : ℕ)
  | finished (receipt : R)

/-- The shared structures, the main thread and the connections. -/
structure State (R S : Type*) where
  shared : Shared R S
  main : Main R
  conns : List Conn

namespace Shared

/-- `jobs.push_back((tag, body))`, for the jobs published in one go. -/
def post (sh : Shared R S) (work : List (UInt32 × Bytes)) : Shared R S :=
  let new := work.mapIdx fun k w => ⟨sh.posted.length + k, w.1, w.2⟩
  { sh with jobs := sh.jobs ++ new, posted := sh.posted ++ new }

/-- The driver takes results out of `jout`. -/
def consume (sh : Shared R S) (jout : UInt32 → Option R) : Shared R S :=
  { sh with
    jout := jout
    taken := fun j => sh.taken j ||
      decide (sh.whose j.tag = some j ∧ (sh.jout j.tag).isSome ∧ (jout j.tag).isNone) }

end Shared

section Steps

variable (cfg : Setup R S)

/-- A step of the main thread. -/
inductive MainStep : Shared R S → Main R → Shared R S → Main R → Prop
  | produce (sh b rest pending) : MainStep sh (.executing (b :: rest) pending none)
      { sh with wire := sh.wire ++ [b], out := sh.out ++ [none] }
      (.executing rest (some sh.wire.length) pending)
  | publish (sh rest pending i) : MainStep sh (.executing rest pending (some i))
      { sh with queue := sh.queue ++ [i], published := sh.published + 1 }
      (.executing rest pending none)
  | execute (sh pending) : MainStep sh (.executing [] pending none)
      { sh with totalKnown := some sh.wire.length } .executed
  | publishLast (sh) (h : 0 < sh.wire.length) : MainStep sh .executed
      { sh with queue := sh.queue ++ [sh.wire.length - 1], published := sh.published + 1 } .waiting
  | publishNone (sh) (h : sh.wire.length = 0) : MainStep sh .executed sh .waiting
  | collect (sh sr lifted) (htotal : 0 < sh.wire.length) (hlast : sh.lastOut = some sr)
      (hhave : sh.wire.length - 1 ≤ sh.out.countP Option.isSome)
      (h : (sh.out.take (sh.wire.length - 1)).mapM id = some lifted) : MainStep sh .waiting
      (Shared.post { sh with lastOut := none } [(LIFT_TAG, cfg.merged sr)]) (.lifting lifted)
  /-- `expect("missing lift")` -/
  | missingLift (sh sr) (htotal : 0 < sh.wire.length) (hlast : sh.lastOut = some sr)
      (hhave : sh.wire.length - 1 ≤ sh.out.countP Option.isSome)
      (h : (sh.out.take (sh.wire.length - 1)).mapM id = none) : MainStep sh .waiting
      { sh with crashed := true } .waiting
  | lift (sh lifted r) (h : sh.jout LIFT_TAG = some r) : MainStep sh (.lifting lifted)
      (sh.consume (Function.update sh.jout LIFT_TAG none))
      (.joining (joinTreeWidths (lifted.length + 1)) (Driver.start (lifted ++ [r])))
  | sweep (sh widths) (d : Driver R) (h : ¬Driver.Done widths d) : MainStep sh (.joining widths d)
      (sh.post (((Driver.todo widths cfg.joinLocalMax d).filter fun j => !j.stays).map fun j =>
        (j.tag, cfg.pair j.left j.right)))
      (.joining widths (Driver.sweep cfg.join widths cfg.joinLocalMax d))
  | harvest (sh widths) (d : Driver R) : MainStep sh (.joining widths d)
      (sh.consume (Driver.harvest widths { d with jout := sh.jout }).jout)
      (.joining widths { Driver.harvest widths { d with jout := sh.jout } with jout := d.jout })
  | root (sh widths) (d : Driver R) (r) (h : Driver.Done widths d)
      (hr : Driver.root widths d = some r) : MainStep sh (.joining widths d) sh (.resolving 0 r)
  | resolveHere (sh k c) (h : k < cfg.nres) (hlocal : cfg.resolveLocal = true) :
      MainStep sh (.resolving k c) sh (.resolving (k + 1) (cfg.resolve c k))
  | resolveAway (sh k c) (h : k < cfg.nres) (hlocal : cfg.resolveLocal = false) :
      MainStep sh (.resolving k c) (sh.post [(resolveTag k, cfg.resolveBody c k)]) (.awaiting k)
  | resolved (sh k r) (h : sh.jout (resolveTag k) = some r) : MainStep sh (.awaiting k)
      (sh.consume (Function.update sh.jout (resolveTag k) none)) (.resolving (k + 1) r)
  | finish (sh k c) (h : cfg.nres ≤ k) : MainStep sh (.resolving k c)
      { sh with alldone := true } (.finished c)

/-- A step of the writer thread of a connection. -/
inductive WriterStep : Shared R S → Conn → Shared R S → Conn → Prop
  | take (sh c i q) (h : c.writer = .idle) (hroom : c.inflight.length < cfg.depth)
      (hq : sh.queue = i :: q) : WriterStep sh c { sh with queue := q } { c with writer := .took i }
  | record (sh c i) (h : c.writer = .took i) (hi : i < sh.wire.length) : WriterStep sh c sh
      { c with inflight := c.inflight ++ [i], writer := .sending i (segTag sh.totalKnown i) }
  /-- `wire[i]` -/
  | overrun (sh c i) (h : c.writer = .took i) (hi : sh.wire.length ≤ i) : WriterStep sh c
      { sh with crashed := true } c
  | sent (sh c i t) (h : c.writer = .sending i t) : WriterStep sh c
      { sh with sent := sh.sent ++ [(i, t)] }
      { c with writer := .idle, unanswered := c.unanswered ++ [t] }
  | unsent (sh c i t) (h : c.writer = .sending i t) : WriterStep sh c sh
      { c with inflight := c.inflight.filter (· ≠ i), writer := .unsent i }
  | requeue (sh c i) (h : c.writer = .unsent i) : WriterStep sh c
      { sh with queue := i :: sh.queue } { c with stop := true, writer := .closing }
  | takeJob (sh c j q) (h : c.writer = .idle) (hq : sh.jobs = j :: q) : WriterStep sh c
      { sh with jobs := q } { c with writer := .tookJob j }
  | recordJob (sh c j) (h : c.writer = .tookJob j) : WriterStep sh c sh
      { c with injobs := c.injobs ++ [j], writer := .sendingJob j }
  | sentJob (sh c j) (h : c.writer = .sendingJob j) : WriterStep sh c sh
      { c with writer := .idle, unanswered := c.unanswered ++ [j.tag] }
  | unsentJob (sh c j) (h : c.writer = .sendingJob j) : WriterStep sh c sh
      { c with injobs := c.injobs.dropLast, writer := .unsentJob j }
  | requeueJob (sh c j) (h : c.writer = .unsentJob j) : WriterStep sh c
      { sh with jobs := j :: sh.jobs } { c with stop := true, writer := .closing }
  /-- The loop ends; past its deadline a peer that holds work is dropped. -/
  | leave (sh c) (h : c.writer = .idle) (hwhy : c.stop = true ∨ sh.alldone = true) :
      WriterStep sh c sh { c with writer := .closing }
  | breach (sh c) (h : c.writer = .idle) (howes : c.inflight ≠ [] ∨ c.injobs ≠ []) :
      WriterStep sh c sh { c with stop := true, writer := .closing }
  /-- The reader has been joined; what the connection owes is returned. -/
  | drain (sh c) (h : c.writer = .closing) (hr : c.reader = .ended) : WriterStep sh c
      { sh with queue := c.inflight.reverse ++ sh.queue } { c with inflight := [], writer := .drained }
  | drainJobs (sh c) (h : c.writer = .drained) : WriterStep sh c
      { sh with jobs := c.injobs.reverse ++ sh.jobs } { c with injobs := [], writer := .gone }

/-- The reader thread of a connection takes a frame. -/
inductive ReceiveStep (i : UInt32) (body : Bytes) : Shared R S → Conn → Shared R S → Conn → Prop
  | hello (sh c name) (h : c.reader = .idle) (hi : i = HELLO_TAG)
      (hname : helloCardName body = some name) : ReceiveStep i body sh c
      { sh with unnamed := sh.unnamed - 1 } { c with card := some name }
  | anonymous (sh c) (h : c.reader = .idle) (hi : i = HELLO_TAG) (hname : helloCardName body = none) :
      ReceiveStep i body sh c sh c
  | job (sh c) (h : c.reader = .idle) (hi : i ≠ HELLO_TAG) (hjob : isJob i = true) :
      ReceiveStep i body sh c sh
      { c with
        injobs := c.injobs.tail
        reader := .job i body c.injobs.head?
        unanswered := c.unanswered.tail }
  | segment (sh c) (h : c.reader = .idle) (hi : i ≠ HELLO_TAG) (hjob : isJob i = false) :
      ReceiveStep i body sh c sh
      { c with
        inflight := c.inflight.erase (plain i)
        reader := .segment i body
        unanswered := c.unanswered.tail }

/-- The reader thread of a connection judges the frame it has taken, or its connection breaks. -/
inductive JudgeStep : Shared R S → Conn → Shared R S → Conn → Prop
  | acceptJob (sh c i body owed r) (h : c.reader = .job i body owed)
      (hr : cfg.succinct body = some r) : JudgeStep sh c
      { sh with
        jout := Function.update sh.jout i (some r)
        whose := Function.update sh.whose i owed
        accepted := sh.accepted ++ owed.toList }
      { c with reader := .idle }
  | refuseJob (sh c i body owed) (h : c.reader = .job i body owed)
      (hr : cfg.succinct body = none) : JudgeStep sh c
      { sh with jobs := sh.jobs ++ owed.toList } { c with reader := .idle }
  | acceptLast (sh c i body sr) (h : c.reader = .segment i body) (hlast : i &&& NOLIFT_TAG ≠ 0)
      (hr : cfg.segment body = some sr) : JudgeStep sh c
      { sh with lastOut := some sr, lastAccepted := true } { c with reader := .idle }
  | refuseLast (sh c i body) (h : c.reader = .segment i body) (hlast : i &&& NOLIFT_TAG ≠ 0)
      (hr : cfg.segment body = none) : JudgeStep sh c
      { sh with queue := sh.queue ++ [plain i] } { c with reader := .idle }
  | accept (sh c i body r) (h : c.reader = .segment i body) (hlast : i &&& NOLIFT_TAG = 0)
      (hr : cfg.succinct body = some r) (hi : plain i < sh.out.length) : JudgeStep sh c
      { sh with out := sh.out.set (plain i) (some r) } { c with reader := .idle }
  /-- `out[plain]` -/
  | overrun (sh c i body r) (h : c.reader = .segment i body) (hlast : i &&& NOLIFT_TAG = 0)
      (hr : cfg.succinct body = some r) (hi : sh.out.length ≤ plain i) : JudgeStep sh c
      { sh with crashed := true } c
  | refuse (sh c i body) (h : c.reader = .segment i body) (hlast : i &&& NOLIFT_TAG = 0)
      (hr : cfg.succinct body = none) : JudgeStep sh c
      { sh with queue := sh.queue ++ [plain i] } { c with reader := .idle }
  | hangUp (sh c) (h : c.reader = .idle) : JudgeStep sh c sh { c with stop := true, reader := .ended }

end Steps

/-- Whose step it is. -/
inductive Event
  | main
  | accept
  | write (k : ℕ)
  | receive (k : ℕ) (i : UInt32) (body : Bytes)
  | judge (k : ℕ)

variable (cfg : Setup R S)

/-- A step of the coordinator, as long as no thread has crashed. -/
inductive Step : State R S → Event → State R S → Prop
  | main {s sh m} (hs : s.shared.crashed = false) (h : MainStep cfg s.shared s.main sh m) :
      Step s .main { s with shared := sh, main := m }
  | accept {s} (hs : s.shared.crashed = false) (h : s.shared.alldone = false) :
      Step s .accept
        { s with
          shared := { s.shared with unnamed := s.shared.unnamed + 1 }
          conns := s.conns ++ [.opened] }
  | write {s k c sh c'} (hs : s.shared.crashed = false) (hc : s.conns[k]? = some c)
      (h : WriterStep cfg s.shared c sh c') :
      Step s (.write k) { s with shared := sh, conns := s.conns.set k c' }
  | receive {s k c i body sh c'} (hs : s.shared.crashed = false) (hc : s.conns[k]? = some c)
      (h : ReceiveStep i body s.shared c sh c') :
      Step s (.receive k i body) { s with shared := sh, conns := s.conns.set k c' }
  | judge {s k c sh c'} (hs : s.shared.crashed = false) (hc : s.conns[k]? = some c)
      (h : JudgeStep cfg s.shared c sh c') :
      Step s (.judge k) { s with shared := sh, conns := s.conns.set k c' }

/-- Before the executor has produced anything, with no one connected. -/
def State.Start (segments : List Bytes) (s : State R S) : Prop :=
  s = { shared :=
          { wire := [], out := [], lastOut := none, queue := [], jobs := [], jout := fun _ => none
            totalKnown := none, unnamed := 0, alldone := false, crashed := false, published := 0
            lastAccepted := false, sent := [], posted := [], accepted := [], whose := fun _ => none
            taken := fun _ => false }
        main := .executing segments none none
        conns := [] }

/-- A run of the coordinator whose executor produces `segments`. -/
abbrev ServeRun (segments : List Bytes) (trace : List (State R S × Event × State R S))
    (s : State R S) : Prop := Runs.Run (State.Start segments) (Step cfg) trace s

end Hazync.SegServe
