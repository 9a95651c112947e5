import Hazync.Lib.Tally
import Hazync.SegServe.Serve

/-!
# How a connection moves work

A connection holds what it lists as sent and what its two threads have in hand. Each step of a
thread moves work between the shared structures and what the connection holds, and no step copies
or drops any, as long as the peer answers what it was sent.

## Between two locks

The source takes a lock for each structure it touches, and between two locks a piece of work is in a
local variable of a thread. To a reader of the structures it is nowhere at that moment. In the model
it is in the hand of the thread (`Writer.segments`, `Reader.jobs` and so on), and counts as held by
the connection. With this, each step moves work from one holder to another.

Two things are needed of a connection for the moves to be right, and they are its invariant
`ConnInv`. The writer puts a piece of work on its list before it sends the frame, and takes it off
again if the send fails; so while it is sending, the last of the list is not yet the peer's. And the
reader finds the work that a frame answers by the tag, for segments, or by taking the oldest, for
jobs; so a frame has to answer what the peer was sent (`Conn.Owes`). A peer that names other work
could make the reader take something off the list that is then neither queued again nor accepted.
Replies of that kind are excluded here and are the subject of `InOrder`.

A connection that ends hands back everything it has, and a step that fails puts the work back in
front of the queue, where it will be the next to be taken.
-/

namespace Hazync.SegServe

open ByteStrings Tally

variable {R S : Type*} {cfg : Setup R S}

/-! ## What a connection holds -/

/-- The segment in the writer's hand. -/
def Writer.segments : Writer → List ℕ
  | .took i | .unsent i => [i]
  | _ => []

/-- The job in the writer's hand. -/
def Writer.jobs : Writer → List Job
  | .tookJob j | .unsentJob j => [j]
  | _ => []

/-- The segment whose receipt the reader is judging. -/
def Reader.segments : Reader → List ℕ
  | .segment i _ => [plain i]
  | _ => []

/-- The job whose result the reader is judging. -/
def Reader.jobs : Reader → List Job
  | .job _ _ owed => owed.toList
  | _ => []

namespace Conn

/-- What a connection holds of the segments. -/
def segments (c : Conn) : List ℕ := c.inflight ++ c.writer.segments ++ c.reader.segments

/-- What it holds of the jobs. -/
def jobs (c : Conn) : List Job := c.injobs ++ c.writer.jobs ++ c.reader.jobs

/-- The segments whose frames the peer has been sent and has not answered. -/
def sentSegments (c : Conn) : List ℕ :=
  match c.writer with
  | .sending _ _ => c.inflight.dropLast
  | _ => c.inflight

/-- The jobs whose frames the peer has been sent and has not answered. -/
def sentJobs (c : Conn) : List Job :=
  match c.writer with
  | .sendingJob _ => c.injobs.dropLast
  | _ => c.injobs

end Conn

/-- A receipt for the segment has been accepted. -/
def Shared.segmentDone (sh : Shared R S) (i : ℕ) : Bool :=
  (sh.out.getD i none).isSome || (sh.totalKnown == some (i + 1) && sh.lastAccepted)

/-- In how many places a segment is. -/
def State.segmentPlaces (s : State R S) (i : ℕ) : ℕ :=
  s.shared.queue.count i + tally Conn.segments s.conns i + (s.shared.segmentDone i).toNat

/-- In how many places a job is. -/
def State.jobPlaces (s : State R S) (j : Job) : ℕ :=
  s.shared.jobs.count j + tally Conn.jobs s.conns j + s.shared.accepted.count j

/-! ## What the main thread has published -/

/-- The executor publishes each segment one segment late. -/
def Layout (n : ℕ) (sh : Shared R S) : Main R → Prop
  | .executing rest pending due =>
    sh.wire.length + rest.length = n ∧ sh.totalKnown = none ∧
      sh.wire.length = sh.published + due.toList.length + pending.toList.length ∧
      (∀ i, due = some i → i = sh.published ∧ pending.isSome) ∧
      (∀ i, pending = some i → i + 1 = sh.wire.length) ∧ (pending = none → sh.published = 0)
  | .executed => sh.wire.length = n ∧ sh.totalKnown = some n ∧ sh.published = n - 1
  | _ => sh.wire.length = n ∧ sh.totalKnown = some n ∧ sh.published = n

/-- The main thread's part of the shared state. -/
theorem Layout.congr {n : ℕ} {sh sh' : Shared R S} {m : Main R} (h : Layout n sh m)
    (hwire : sh'.wire = sh.wire) (hknown : sh'.totalKnown = sh.totalKnown)
    (hpub : sh'.published = sh.published) : Layout n sh' m := by
  cases m <;> simpa only [Layout, hwire, hknown, hpub] using h

/-- What the threads of a connection rely on. -/
structure Bounds (n : ℕ) (sh : Shared R S) : Prop where
  published : sh.published ≤ sh.wire.length
  wire : sh.wire.length ≤ n
  /-- A total that is known is the number of segments there are. -/
  known : ∀ m, sh.totalKnown = some m → m = sh.wire.length
  /-- Until then the newest segment is kept back, since it may be the last. -/
  unknown : sh.totalKnown = none → sh.published = 0 ∨ sh.published < sh.wire.length

/-- What the main thread has published lies within what there is. -/
theorem Layout.bounds {n : ℕ} {sh : Shared R S} {m : Main R} (h : Layout n sh m) : Bounds n sh := by
  cases m with
  | executing rest pending due =>
    obtain ⟨hn, hknown, hlen, -, -, hnone⟩ := h
    refine ⟨by omega, by omega, by simp [hknown], fun _ => ?_⟩
    cases pending with
    | none => exact .inl (hnone rfl)
    | some p =>
      rw [Option.toList_some, List.length_singleton] at hlen
      exact .inr (by omega)
  | executed =>
    obtain ⟨hn, hknown, hpub⟩ := h
    refine ⟨by omega, by omega, fun k hk => ?_, by simp [hknown]⟩
    rw [hknown] at hk
    rw [← Option.some.inj hk, hn]
  | _ =>
    obtain ⟨hn, hknown, hpub⟩ := h
    refine ⟨by omega, by omega, fun k hk => ?_, by simp [hknown]⟩
    rw [hknown] at hk
    rw [← Option.some.inj hk, hn]

/-- What a connection's threads know of the work they move. -/
structure ConnInv (sh : Shared R S) (c : Conn) : Prop where
  /-- What the writer is sending is the last of what is in flight. -/
  sending : ∀ i t, c.writer = .sending i t →
    c.inflight = c.inflight.dropLast ++ [i] ∧ t = segTag sh.totalKnown i
  sendingJob : ∀ j, c.writer = .sendingJob j → c.injobs = c.injobs.dropLast ++ [j]
  /-- A frame that the reader has is a segment's if its tag is one. -/
  segment : ∀ i body, c.reader = .segment i body → i = segTag sh.totalKnown (plain i)
  /-- A frame of a join answers the one that is owed. -/
  job : ∀ i body owed, c.reader = .job i body owed → ∃ j, owed = some j ∧ j.tag = i
  /-- A writer stops when nothing is in flight and the reader is over, -/
  drained : c.writer = .drained → c.inflight = [] ∧ c.reader = .ended
  /-- and when the connection is gone nothing is left in its hands. -/
  gone : c.writer = .gone → c.inflight = [] ∧ c.injobs = [] ∧ c.reader = .ended

/-! ## What a step of a connection does -/

section Effects

variable {sh sh' : Shared R S} {c c' : Conn} {i : UInt32} {body : Bytes}

/-- A writer touches the two queues and what has been sent. -/
theorem WriterStep.frame (h : WriterStep cfg sh c sh' c') :
    ∃ queue jobs sent crashed,
      sh' = { sh with queue := queue, jobs := jobs, sent := sent, crashed := crashed } := by
  cases h <;> exact ⟨_, _, _, _, rfl⟩

/-- The last of a list without repetitions is taken off. -/
theorem filter_ne_concat {l : List ℕ} {i : ℕ} (h : (l ++ [i]).count i ≤ 1) :
    (l ++ [i]).filter (· ≠ i) = l := by
  have hl : i ∉ l := by
    rw [List.count_append, List.count_singleton_self] at h
    exact List.count_eq_zero.mp (by omega)
  rw [List.filter_append, List.filter_eq_self.mpr fun x hx => by
    simpa using fun heq : x = i => hl (heq ▸ hx)]
  simp

/-- A segment is moved, not copied and not dropped. -/
theorem WriterStep.segments (h : WriterStep cfg sh c sh' c') (hc : ConnInv sh c)
    (hone : ∀ x, c.segments.count x ≤ 1) (x : ℕ) :
    sh'.queue.count x + c'.segments.count x = sh.queue.count x + c.segments.count x := by
  cases h with
  | unsent i t hw =>
    have hlast := (hc.sending i t hw).1
    have hcount : c.inflight.count i ≤ 1 := by
      have hi := hone i
      rw [Conn.segments, List.append_assoc, List.count_append] at hi
      omega
    rw [hlast] at hcount
    simp only [Conn.segments, hw, Writer.segments, List.append_nil]
    rw [hlast, filter_ne_concat hcount]
  | _ => simp_all [Conn.segments, Writer.segments, List.count_cons, List.count_append]; try omega

/-- A job is moved, not copied and not dropped. -/
theorem WriterStep.jobs (h : WriterStep cfg sh c sh' c') (hc : ConnInv sh c) (x : Job) :
    sh'.jobs.count x + c'.jobs.count x = sh.jobs.count x + c.jobs.count x := by
  cases h with
  | unsentJob j hw =>
    simp only [Conn.jobs, hw, Writer.jobs, List.append_nil]
    rw [← hc.sendingJob j hw]
  | _ => simp_all [Conn.jobs, Writer.jobs, List.count_cons, List.count_append]; try omega

/-- A writer keeps the lists in order. -/
theorem WriterStep.connInv (h : WriterStep cfg sh c sh' c') (hc : ConnInv sh c) :
    ConnInv sh' c' := by
  cases h with
  | record i hw hi =>
    refine { sending := ?_, sendingJob := by simp, segment := hc.segment, job := hc.job
             drained := by simp, gone := by simp }
    rintro j t ⟨⟩
    exact ⟨by simp, rfl⟩
  | recordJob j hw =>
    refine { sending := by simp, sendingJob := ?_, segment := hc.segment, job := hc.job
             drained := by simp, gone := by simp }
    rintro k ⟨⟩
    simp
  | overrun i hw hi => exact { hc with }
  | drain hw hr =>
    exact { sending := by simp, sendingJob := by simp, segment := hc.segment, job := hc.job
            drained := fun _ => ⟨rfl, hr⟩, gone := by simp }
  | drainJobs hw =>
    exact { sending := by simp, sendingJob := by simp, segment := hc.segment, job := hc.job
            drained := by simp, gone := fun _ => ⟨(hc.drained hw).1, rfl, (hc.drained hw).2⟩ }
  | _ =>
    exact { sending := by simp, sendingJob := by simp, segment := hc.segment, job := hc.job
            drained := by simp, gone := by simp }

/-- What is sent is what the connection holds, under the tag it goes out under. -/
theorem WriterStep.mem_sent (h : WriterStep cfg sh c sh' c') (hc : ConnInv sh c) :
    ∀ x ∈ sh'.sent, x ∈ sh.sent ∨ x.1 ∈ c.segments ∧ x.2 = segTag sh.totalKnown x.1 := by
  cases h with
  | sent i t hw =>
    intro x hx
    obtain hx | hx := List.mem_append.mp hx
    · exact .inl hx
    · obtain rfl := List.mem_singleton.mp hx
      obtain ⟨hlast, htag⟩ := hc.sending i t hw
      refine .inr ⟨?_, htag⟩
      rw [Conn.segments, hlast]
      simp
  | _ => exact fun x hx => .inl hx

/-- It does not index out of bounds. -/
theorem WriterStep.crashed (h : WriterStep cfg sh c sh' c') (hs : sh.crashed = false)
    (hlt : ∀ i ∈ c.segments, i < sh.wire.length) : sh'.crashed = false := by
  cases h with
  | overrun i hw hi =>
    have hmem : i ∈ c.segments := by simp [Conn.segments, hw, Writer.segments]
    exact absurd (hlt i hmem) (Nat.not_lt.mpr hi)
  | _ => exact hs

/-- The frame answers, under its own tag, a frame the peer was sent: of its jobs the oldest one. -/
def Conn.Owes (sh : Shared R S) (c : Conn) (i : UInt32) : Prop :=
  if isJob i then ∃ j, c.sentJobs.head? = some j ∧ j.tag = i
  else plain i ∈ c.sentSegments ∧ i = segTag sh.totalKnown (plain i)

theorem Conn.sentSegments_subset {i : ℕ} (h : i ∈ c.sentSegments) : i ∈ c.inflight := by
  rw [sentSegments] at h
  split at h
  · exact (List.dropLast_sublist _).subset h
  · exact h

theorem Conn.head?_sentJobs {j : Job} (hc : ConnInv sh c) (h : c.sentJobs.head? = some j) :
    c.injobs.head? = some j := by
  rw [sentJobs] at h
  split at h
  · next k hw => rw [hc.sendingJob k hw, List.head?_append, h, Option.some_or]
  · exact h

/-- A frame touches the counter of nameless connections only. -/
theorem ReceiveStep.frame (h : ReceiveStep i body sh c sh' c') :
    ∃ unnamed, sh' = { sh with unnamed := unnamed } := by
  cases h <;> exact ⟨_, rfl⟩

/-- A frame is taken into the reader's hand. -/
theorem ReceiveStep.segments (h : ReceiveStep i body sh c sh' c') (howes : i ≠ HELLO_TAG → c.Owes sh i)
    (x : ℕ) : c'.segments.count x = c.segments.count x := by
  cases h with
  | segment hr hi hjob =>
    have howes := howes hi
    rw [Conn.Owes, if_neg (by simp [hjob])] at howes
    have hmem := Conn.sentSegments_subset howes.1
    have hperm := (List.perm_cons_erase hmem).count_eq x
    simp only [Conn.segments, hr, Reader.segments, List.count_append, List.count_cons,
      List.count_nil] at hperm ⊢
    omega
  | _ => simp_all [Conn.segments, Reader.segments]

/-- So is one of a job. -/
theorem ReceiveStep.jobs (h : ReceiveStep i body sh c sh' c') (x : Job) :
    c'.jobs.count x = c.jobs.count x := by
  cases h with
  | job hr hi hjob =>
    cases hq : c.injobs with
    | nil => simp [Conn.jobs, hr, hq, Reader.jobs]
    | cons j q =>
      simp only [Conn.jobs, hr, hq, Reader.jobs, List.tail_cons, List.head?_cons, Option.toList_some,
        List.count_append, List.count_cons, List.count_nil]
      omega
  | _ => simp_all [Conn.jobs, Reader.jobs]

/-- What the reader has in hand is what was owed. -/
theorem ReceiveStep.connInv (h : ReceiveStep i body sh c sh' c') (hc : ConnInv sh c)
    (howes : i ≠ HELLO_TAG → c.Owes sh i) : ConnInv sh' c' := by
  cases h with
  | hello => exact { hc with }
  | anonymous => exact { hc with }
  | job hr hi hjob =>
    have howes := howes hi
    rw [Conn.Owes, if_pos hjob] at howes
    obtain ⟨j, hj, htag⟩ := howes
    refine { hc with
      sendingJob := fun k hw => ?_, segment := by simp, job := ?_
      drained := fun hw => absurd (hc.drained hw).2 (by simp [hr])
      gone := fun hw => absurd (hc.gone hw).2.2 (by simp [hr]) }
    · have hlast := hc.sendingJob k hw
      rw [Conn.sentJobs, hw] at hj
      cases hq : c.injobs.dropLast with
      | nil => simp [hq] at hj
      | cons l q =>
        rw [hq] at hlast
        simp [hlast]
    · rintro i' body' owed ⟨⟩
      exact ⟨j, Conn.head?_sentJobs hc hj, htag⟩
  | segment hr hi hjob =>
    have howes := howes hi
    rw [Conn.Owes, if_neg (by simp [hjob])] at howes
    obtain ⟨hmem, htag⟩ := howes
    refine { hc with
      sending := fun k t hw => ?_, segment := ?_, job := by simp
      drained := fun hw => absurd (hc.drained hw).2 (by simp [hr])
      gone := fun hw => absurd (hc.gone hw).2.2 (by simp [hr]) }
    · obtain ⟨hlast, ht⟩ := hc.sending k t hw
      rw [Conn.sentSegments, hw] at hmem
      refine ⟨?_, ht⟩
      have herase : c.inflight.erase (plain i) = c.inflight.dropLast.erase (plain i) ++ [k] := by
        rw [← List.erase_append_left _ hmem, ← hlast]
      simp [herase]
    · rintro i' body' ⟨⟩
      exact htag

theorem segmentDone_set_out {p : ℕ} {r : R} (hp : p < sh.out.length) (x : ℕ) :
    Shared.segmentDone { sh with out := sh.out.set p (some r) } x =
      (decide (x = p) || sh.segmentDone x) := by
  obtain rfl | hne := eq_or_ne x p
  · simp [Shared.segmentDone, hp]
  · simp [Shared.segmentDone, hne, List.getElem?_set_ne (Ne.symm hne)]

theorem segmentDone_lastAccepted {p : ℕ} {sr : S} (hp : sh.totalKnown = some (p + 1)) (x : ℕ) :
    Shared.segmentDone { sh with lastOut := some sr, lastAccepted := true } x =
      (decide (x = p) || sh.segmentDone x) := by
  obtain rfl | hne := eq_or_ne x p
  · simp [Shared.segmentDone, hp]
  · have hne' : (p == x) = false := beq_eq_false_iff_ne.mpr (Ne.symm hne)
    simp [Shared.segmentDone, hp, hne, hne']

/-- A segment that is judged is accepted or queued again. -/
theorem JudgeStep.segments (h : JudgeStep cfg sh c sh' c') (hc : ConnInv sh c)
    (hlow : ∀ i ∈ c.segments, i < 2 ^ 27) (hnew : ∀ i ∈ c.segments, sh.segmentDone i = false)
    (x : ℕ) : sh'.queue.count x + c'.segments.count x + (sh'.segmentDone x).toNat =
      sh.queue.count x + c.segments.count x + (sh.segmentDone x).toNat := by
  have htake : ∀ {i body}, c.reader = .segment i body → plain i ∈ c.segments := fun hr => by
    simp [Conn.segments, hr, Reader.segments]
  have hcount : ∀ {i body}, c.reader = .segment i body →
      c.segments.count x = (Conn.segments { c with reader := .idle }).count x +
        List.count x [plain i] := fun hr => by
    simp only [Conn.segments, hr, Reader.segments, List.count_append, List.count_nil]
    omega
  cases h with
  | acceptLast i body sr hr hlast =>
    have hmem := htake hr
    rw [hc.segment i body hr, segTag_and_nolift (hlow _ hmem)] at hlast
    rw [segmentDone_lastAccepted hlast, hcount hr]
    obtain rfl | hne := eq_or_ne x (plain i)
    · rw [hnew _ hmem, List.count_singleton_self, decide_eq_true rfl]
      exact Nat.add_assoc _ _ _
    · rw [List.count_eq_zero (l := [plain i]).mpr (by simpa using hne), decide_eq_false hne]
      rfl
  | accept i body r hr hlast _ hi =>
    have hmem := htake hr
    rw [segmentDone_set_out hi, hcount hr]
    obtain rfl | hne := eq_or_ne x (plain i)
    · rw [hnew _ hmem, List.count_singleton_self, decide_eq_true rfl]
      exact Nat.add_assoc _ _ _
    · rw [List.count_eq_zero (l := [plain i]).mpr (by simpa using hne), decide_eq_false hne]
      rfl
  | refuseLast i body hr =>
    rw [hcount hr, List.count_append]
    simp only [Shared.segmentDone]
    omega
  | refuse i body hr =>
    rw [hcount hr, List.count_append]
    simp only [Shared.segmentDone]
    omega
  | acceptJob i body owed r hr => simp [Conn.segments, hr, Reader.segments, Shared.segmentDone]
  | refuseJob i body owed hr => simp [Conn.segments, hr, Reader.segments, Shared.segmentDone]
  | overrun => rfl
  | hangUp hr => simp [Conn.segments, hr, Reader.segments]

/-- A job that is judged is accepted or queued again. -/
theorem JudgeStep.jobs (h : JudgeStep cfg sh c sh' c') (x : Job) :
    sh'.jobs.count x + c'.jobs.count x + sh'.accepted.count x =
      sh.jobs.count x + c.jobs.count x + sh.accepted.count x := by
  cases h with
  | acceptJob i body owed r hr =>
    simp only [Conn.jobs, hr, Reader.jobs, List.count_append, List.count_nil]
    omega
  | refuseJob i body owed hr =>
    simp only [Conn.jobs, hr, Reader.jobs, List.count_append, List.count_nil]
    omega
  | overrun => rfl
  | _ => simp_all [Conn.jobs, Reader.jobs]

/-- A judgement ends with an empty hand. -/
theorem JudgeStep.connInv (h : JudgeStep cfg sh c sh' c') (hc : ConnInv sh c) : ConnInv sh' c' := by
  cases h with
  | overrun => exact { hc with }
  | hangUp hr =>
    exact { hc with
      segment := by simp, job := by simp
      drained := fun hw => absurd (hc.drained hw).2 (by simp [hr])
      gone := fun hw => absurd (hc.gone hw).2.2 (by simp [hr]) }
  | acceptJob _ _ _ _ hr | refuseJob _ _ _ hr | acceptLast _ _ _ hr | refuseLast _ _ hr
  | accept _ _ _ hr | refuse _ _ hr =>
    exact { hc with
      segment := by simp, job := by simp
      drained := fun hw => absurd (hc.drained hw).2 (by simp [hr])
      gone := fun hw => absurd (hc.gone hw).2.2 (by simp [hr]) }

/-- What a judgement leaves alone. -/
theorem JudgeStep.frame (h : JudgeStep cfg sh c sh' c') :
    sh'.wire = sh.wire ∧ sh'.out.length = sh.out.length ∧ sh'.totalKnown = sh.totalKnown ∧
      sh'.published = sh.published ∧ sh'.sent = sh.sent ∧ sh'.posted = sh.posted ∧
      sh'.taken = sh.taken := by
  cases h <;> simp

/-- It does not index out of bounds. -/
theorem JudgeStep.crashed (h : JudgeStep cfg sh c sh' c') (hs : sh.crashed = false)
    (hlt : ∀ i ∈ c.segments, i < sh.out.length) : sh'.crashed = false := by
  cases h with
  | overrun i body r hr hlast _ hi =>
    have hmem : plain i ∈ c.segments := by simp [Conn.segments, hr, Reader.segments]
    exact absurd (hlt _ hmem) (Nat.not_lt.mpr hi)
  | _ => exact hs

/-- Only segments before the last one are lifted by a worker. -/
theorem JudgeStep.unlifted (h : JudgeStep cfg sh c sh' c') {n : ℕ} (hc : ConnInv sh c)
    (hb : Bounds n sh) (hlow : ∀ i ∈ c.segments, i < 2 ^ 27)
    (hpub : ∀ i ∈ c.segments, i < sh.published)
    (hout : ∀ i, (sh.out.getD i none).isSome → i + 1 < sh.wire.length) :
    ∀ i, (sh'.out.getD i none).isSome → i + 1 < sh'.wire.length := by
  cases h with
  | accept i body r hr hlast _ hi =>
    have hmem : plain i ∈ c.segments := by simp [Conn.segments, hr, Reader.segments]
    have hnot : sh.totalKnown ≠ some (plain i + 1) := fun hknown =>
      (segTag_and_nolift (hlow _ hmem)).mpr hknown (hc.segment i body hr ▸ hlast)
    have hlt := hpub _ hmem
    have hle := hb.published
    intro j hj
    change j + 1 < sh.wire.length
    obtain rfl | hne := eq_or_ne j (plain i)
    · cases hknown : sh.totalKnown with
      | none =>
        have hunknown := hb.unknown hknown
        omega
      | some m =>
        have hm := hb.known m hknown
        have hne : m ≠ plain i + 1 := fun heq => hnot (heq ▸ hknown)
        omega
    · rw [List.getD_eq_getElem?_getD, List.getElem?_set_ne (Ne.symm hne),
        ← List.getD_eq_getElem?_getD] at hj
      exact hout j hj
  | _ => exact hout

/-- The last segment is known as such only when the total is. -/
theorem JudgeStep.unknown (h : JudgeStep cfg sh c sh' c') (hc : ConnInv sh c)
    (hlow : ∀ i ∈ c.segments, i < 2 ^ 27)
    (hu : sh.totalKnown = none → sh.lastAccepted = false) :
    sh'.totalKnown = none → sh'.lastAccepted = false := by
  cases h with
  | acceptLast i body sr hr hlast =>
    have hmem : plain i ∈ c.segments := by simp [Conn.segments, hr, Reader.segments]
    rw [hc.segment i body hr, segTag_and_nolift (hlow _ hmem)] at hlast
    exact fun hnone => absurd (hnone.symm.trans hlast) (by simp)
  | _ => exact hu

end Effects

end Hazync.SegServe
