import Hazync.SegServe.Kept

/-!
# Workers that answer in order

A worker proves serially and answers in the order in which it was sent its frames, with receipts
that may be good or bad. The frames it has not answered are then the segments and the jobs its
connection lists as sent, each in their order, so every reply finds the work it answers.

## What honest order gives

The server's own protection is in the tags: a reply is matched with the work by the tag it names,
and judged by its content. Nothing in the server looks at the order of replies, and what it
guarantees for arbitrary replies is in the other modules. Here the workers are as they are built.
They read a frame, prove, answer, and read the next, so that the frames which a connection waits for
are always a queue. `Fifo` is the invariant for one connection. The segments that it lists as sent
are the segments of that queue in the same order, the jobs are its jobs, and the tag of each segment
was made with what was known of the total at the time.

From this, every reply finds the work that it answers on the list of its connection (`Fifo.owes`). A
receipt may still be bad; that is for the judge. `Ordered` has the same for all connections, with
the last receipt, which the main thread waits for separately.
-/

namespace Hazync.SegServe

open ByteStrings Tally

variable {R S : Type*} {cfg : Setup R S}

/-- Each connection's frames are answered in the order in which they were sent. -/
def Event.InOrder (s : State R S) : Event → Prop
  | .receive k i _ => i ≠ HELLO_TAG → ∀ c, s.conns[k]? = some c → c.unanswered.head? = some i
  | _ => True

/-- The frames a connection waits for are what it lists as sent. -/
structure Fifo (sh : Shared R S) (c : Conn) : Prop where
  /-- Segments are answered in the order they were sent, -/
  segments : (c.unanswered.filter fun t => !isJob t).map plain = c.sentSegments
  /-- and so are joins, among themselves. -/
  jobs : c.unanswered.filter isJob = c.sentJobs.map Job.tag
  /-- A segment went out under the tag of what was known of the total then. -/
  tags : ∀ t ∈ c.unanswered, isJob t = false → t = segTag sh.totalKnown (plain t)

/-- The next reply is to work that the connection lists. -/
theorem Fifo.owes {sh : Shared R S} {c : Conn} (h : Fifo sh c) {i : UInt32}
    (hi : c.unanswered.head? = some i) : c.Owes sh i := by
  obtain ⟨rest, hq⟩ := List.head?_eq_some_iff.mp hi
  have hsegs := h.segments
  have hjobs := h.jobs
  rw [hq] at hsegs hjobs
  rw [Conn.Owes]
  split
  · next hjob =>
    rw [List.filter_cons_of_pos hjob] at hjobs
    cases hsent : c.sentJobs with
    | nil => simp [hsent] at hjobs
    | cons j q =>
      rw [hsent] at hjobs
      exact ⟨j, rfl, (List.cons.inj hjobs).1.symm⟩
  · next hjob =>
    have hjob : isJob i = false := Bool.eq_false_iff.mpr hjob
    rw [List.filter_cons_of_pos (by simp [hjob])] at hsegs
    refine ⟨?_, h.tags i (hq ▸ List.mem_cons_self) hjob⟩
    rw [← hsegs]
    exact List.mem_cons_self

section Effects

variable {sh sh' : Shared R S} {c c' : Conn} {i : UInt32} {body : Bytes}

/-- A writer step puts one frame on the wire, of a segment or of a job, or none. -/
theorem WriterStep.onWire (h : WriterStep cfg sh c sh' c') (hc : ConnInv sh c)
    (hone : ∀ x, c.segments.count x ≤ 1) (hr : c.reader ≠ .ended) :
    (∃ x ∈ c.segments, c'.sentSegments = c.sentSegments ++ [x] ∧ c'.sentJobs = c.sentJobs ∧
      c'.unanswered = c.unanswered ++ [segTag sh.totalKnown x]) ∨
    (∃ j ∈ c.jobs, c'.sentSegments = c.sentSegments ∧ c'.sentJobs = c.sentJobs ++ [j] ∧
      c'.unanswered = c.unanswered ++ [j.tag]) ∨
    c'.sentSegments = c.sentSegments ∧ c'.sentJobs = c.sentJobs ∧ c'.unanswered = c.unanswered := by
  cases h with
  -- a segment has gone out, and an answer is owed
  | sent x t hw =>
    obtain ⟨hlast, rfl⟩ := hc.sending x t hw
    refine .inl ⟨x, ?_, ?_, ?_, rfl⟩
    · rw [Conn.segments, hlast]
      simp
    · simpa only [Conn.sentSegments, hw] using hlast
    · simp only [Conn.sentJobs, hw]
  | sentJob j hw =>
    have hlast := hc.sendingJob j hw
    refine .inr (.inl ⟨j, ?_, ?_, ?_, rfl⟩)
    · rw [Conn.jobs, hlast]
      simp
    · simp only [Conn.sentSegments, hw]
    · simpa only [Conn.sentJobs, hw] using hlast
  -- one that could not be sent is taken out of flight again
  | unsent x t hw =>
    have hlast := (hc.sending x t hw).1
    have hcount := hone x
    rw [Conn.segments, List.append_assoc, List.count_append] at hcount
    have hdrop : c.inflight.filter (· ≠ x) = c.inflight.dropLast := by
      rw [hlast, filter_ne_concat (by rw [← hlast]; omega), List.dropLast_concat]
    refine .inr (.inr ⟨?_, ?_, rfl⟩)
    · simpa only [Conn.sentSegments, hw] using hdrop
    · simp only [Conn.sentJobs, hw]
  | record x hw =>
    refine .inr (.inr ⟨?_, ?_, rfl⟩)
    · simp only [Conn.sentSegments, hw, List.dropLast_concat]
    · simp only [Conn.sentJobs, hw]
  | recordJob j hw =>
    refine .inr (.inr ⟨?_, ?_, rfl⟩)
    · simp only [Conn.sentSegments, hw]
    · simp only [Conn.sentJobs, hw, List.dropLast_concat]
  | overrun => exact .inr (.inr ⟨rfl, rfl, rfl⟩)
  | drain _ hended => exact absurd hended hr
  | drainJobs hw => exact absurd (hc.drained hw).2 hr
  | take _ _ hw | requeue _ hw | takeJob _ _ hw | unsentJob _ hw | requeueJob _ hw | leave hw
  | breach hw =>
    exact .inr (.inr ⟨by simp only [Conn.sentSegments, hw], by simp only [Conn.sentJobs, hw], rfl⟩)

/-- A writer puts what it sends at the end of both. -/
theorem WriterStep.fifo (h : WriterStep cfg sh c sh' c') (hc : ConnInv sh c)
    (hlow : ∀ x ∈ c.segments, x < 2 ^ 27) (hone : ∀ x, c.segments.count x ≤ 1)
    (hjob : ∀ j ∈ c.jobs, isJob j.tag = true) (hr : c.reader ≠ .ended) (hf : Fifo sh c) :
    Fifo sh c' := by
  obtain ⟨x, hx, hsegs, hjobs, hwire⟩ | ⟨j, hj, hsegs, hjobs, hwire⟩ | ⟨hsegs, hjobs, hwire⟩ :=
    h.onWire hc hone hr
  · have hkind : isJob (segTag sh.totalKnown x) = false := isJob_segTag (hlow x hx)
    have hplain : plain (segTag sh.totalKnown x) = x := plain_segTag (hlow x hx)
    refine ⟨?_, ?_, fun t ht hkind => ?_⟩
    · rw [hwire, hsegs, List.filter_append, List.map_append, hf.segments]
      simp [hkind, hplain]
    · rw [hwire, hjobs, List.filter_append, hf.jobs]
      simp [hkind]
    · rw [hwire] at ht
      obtain ht | ht := List.mem_append.mp ht
      · exact hf.tags t ht hkind
      · rw [List.mem_singleton.mp ht, hplain]
  · have hkind := hjob j hj
    refine ⟨?_, ?_, fun t ht hkind' => ?_⟩
    · rw [hwire, hsegs, List.filter_append, List.map_append, hf.segments]
      simp [hkind]
    · rw [hwire, hjobs, List.filter_append, hf.jobs]
      simp [hkind]
    · rw [hwire] at ht
      obtain ht | ht := List.mem_append.mp ht
      · exact hf.tags t ht hkind'
      · rw [List.mem_singleton.mp ht, hkind] at hkind'
        exact absurd hkind' (by simp)
  · exact ⟨by rw [hwire, hsegs, hf.segments], by rw [hwire, hjobs, hf.jobs], hwire ▸ hf.tags⟩

/-- The first of the jobs that were sent is answered. -/
theorem sentJobs_tail (c : Conn) (r : Reader) (u : List UInt32) :
    Conn.sentJobs { c with injobs := c.injobs.tail, reader := r, unanswered := u } =
      c.sentJobs.tail := by
  simp only [Conn.sentJobs]
  split
  · exact List.tail_dropLast.symm
  · rfl

/-- A segment that was sent is answered. -/
theorem sentSegments_erase (hc : ConnInv sh c) {p : ℕ} (hp : p ∈ c.sentSegments) (r : Reader)
    (u : List UInt32) :
    Conn.sentSegments { c with inflight := c.inflight.erase p, reader := r, unanswered := u } =
      c.sentSegments.erase p := by
  simp only [Conn.sentSegments] at hp ⊢
  split
  · next x t hw =>
    rw [hw] at hp
    rw [(hc.sending x t hw).1, List.erase_append_left _ hp, List.dropLast_concat,
      List.dropLast_concat]
  · rfl

/-- A reply takes the first from both. -/
theorem ReceiveStep.fifo (h : ReceiveStep i body sh c sh' c') (hc : ConnInv sh c)
    (hi : i ≠ HELLO_TAG → c.unanswered.head? = some i) (hf : Fifo sh c) : Fifo sh c' := by
  cases h with
  | hello => exact ⟨hf.segments, hf.jobs, hf.tags⟩
  | anonymous => exact hf
  | job hr hne hjob =>
    obtain ⟨rest, hq⟩ := List.head?_eq_some_iff.mp (hi hne)
    have hsegs := hf.segments
    have hjobs := hf.jobs
    rw [hq, List.filter_cons_of_neg (by simp [hjob])] at hsegs
    rw [hq, List.filter_cons_of_pos hjob] at hjobs
    refine ⟨?_, ?_, fun t ht => hf.tags t (List.mem_of_mem_tail ht)⟩
    · rw [hq]
      exact hsegs
    · rw [hq, sentJobs_tail, List.map_tail, ← hjobs]
      rfl
  | segment hr hne hjob =>
    obtain ⟨rest, hq⟩ := List.head?_eq_some_iff.mp (hi hne)
    have hsegs := hf.segments
    have hjobs := hf.jobs
    rw [hq, List.filter_cons_of_pos (by simp [hjob]), List.map_cons] at hsegs
    rw [hq, List.filter_cons_of_neg (by simp [hjob])] at hjobs
    refine ⟨?_, ?_, fun t ht => hf.tags t (List.mem_of_mem_tail ht)⟩
    · rw [hq, sentSegments_erase hc (hsegs ▸ List.mem_cons_self), ← hsegs, List.erase_cons_head]
      rfl
    · rw [hq]
      exact hjobs

/-- A judgement leaves the wire alone. -/
theorem JudgeStep.fifo (h : JudgeStep cfg sh c sh' c') (hf : Fifo sh c) : Fifo sh' c' := by
  cases h <;> exact ⟨hf.segments, hf.jobs, hf.tags⟩

/-- A writer leaves its reader alone. -/
theorem WriterStep.reader (h : WriterStep cfg sh c sh' c') : c'.reader = c.reader := by
  cases h <;> rfl

theorem ReceiveStep.reader (h : ReceiveStep i body sh c sh' c') : c.reader ≠ .ended := by
  cases h <;> simp_all

theorem JudgeStep.reader (h : JudgeStep cfg sh c sh' c') : c.reader ≠ .ended := by
  cases h <;> simp_all

/-- The tags of the segments are what matters of the shared state. -/
theorem Fifo.congr (h : Fifo sh c)
    (htag : ∀ x ∈ c.segments, segTag sh'.totalKnown x = segTag sh.totalKnown x) : Fifo sh' c where
  segments := h.segments
  jobs := h.jobs
  tags t ht hkind := by
    have hmem : plain t ∈ c.sentSegments := by
      rw [← h.segments]
      exact List.mem_map_of_mem (List.mem_filter.mpr ⟨ht, by simp [hkind]⟩)
    refine (h.tags t ht hkind).trans (htag _ ?_).symm
    rw [Conn.segments, List.append_assoc]
    exact List.mem_append_left _ (Conn.sentSegments_subset hmem)

end Effects

/-! ## Runs -/

/-- The main thread has taken the last receipt. -/
def Main.collected : Main R → Bool
  | .executing _ _ _ | .executed | .waiting => false
  | _ => true

/-- Jobs go out under the tags of jobs, and what is sent is answered in order. -/
structure Ordered (s : State R S) : Prop where
  posted : ∀ j ∈ s.shared.posted, isJob j.tag = true
  fifo : ∀ c ∈ s.conns, c.reader ≠ .ended → Fifo s.shared c
  /-- The last receipt is there, or the main thread has taken it. -/
  last : s.shared.lastAccepted = true → s.shared.lastOut.isSome ∨ s.main.collected = true

section Runs

variable {n : ℕ} {s s' : State R S}

/-- What a connection lists as a job was posted. -/
theorem Inv.mem_posted (h : Inv n s) {c : Conn} (hc : c ∈ s.conns) {j : Job} (hj : j ∈ c.jobs) :
    j ∈ s.shared.posted := by
  obtain ⟨k, hk, hget⟩ := List.getElem_of_mem hc
  have hle := le_tally Conn.jobs (x := j) (by rw [List.getElem?_eq_getElem hk, hget] :
    s.conns[k]? = some c)
  have hplaces := h.jobs j
  have hcount := List.count_pos_iff.mpr hj
  rw [State.jobPlaces] at hplaces
  exact List.count_pos_iff.mp (by omega)

/-- The main thread posts under the tags of jobs. -/
theorem MainStep.posted {sh sh' : Shared R S} {m m' : Main R} (h : MainStep cfg sh m sh' m')
    (hjob : ∀ j ∈ sh.posted, isJob j.tag = true) : ∀ j ∈ sh'.posted, isJob j.tag = true := by
  have hpost : ∀ work : List (UInt32 × Bytes), (∀ w ∈ work, isJob w.1 = true) →
      ∀ j ∈ (sh.post work).posted, isJob j.tag = true := by
    intro work hwork j hj
    obtain hj | hj := List.mem_append.mp hj
    · exact hjob j hj
    · obtain ⟨k, hk, rfl⟩ := List.mem_mapIdx.mp hj
      exact hwork _ (List.getElem_mem hk)
  cases h with
  | collect sr lifted => exact hpost [(LIFT_TAG, _)] (by simp; decide)
  | sweep widths d =>
    refine hpost _ fun w hw => ?_
    obtain ⟨j, -, rfl⟩ := List.mem_map.mp hw
    exact isJob_joinTag _ _
  | resolveAway k c => exact hpost [(resolveTag k, _)] (by simp [isJob_resolveTag])
  | _ => exact hjob

/-- The last receipt is there until it is taken. -/
theorem MainStep.last {sh sh' : Shared R S} {m m' : Main R} (h : MainStep cfg sh m sh' m')
    (hlast : sh.lastAccepted = true → sh.lastOut.isSome ∨ m.collected = true) :
    sh'.lastAccepted = true → sh'.lastOut.isSome ∨ m'.collected = true := by
  cases h with
  | produce | publish | execute | publishLast | publishNone | missingLift => exact hlast
  | _ => exact fun _ => .inr rfl

theorem JudgeStep.last {sh sh' : Shared R S} {c c' : Conn} {m : Main R}
    (h : JudgeStep cfg sh c sh' c')
    (hlast : sh.lastAccepted = true → sh.lastOut.isSome ∨ m.collected = true) :
    sh'.lastAccepted = true → sh'.lastOut.isSome ∨ m.collected = true := by
  cases h with
  | acceptLast => exact fun _ => .inl rfl
  | _ => exact hlast

/-- At the start nothing is sent. -/
theorem ordered_start {segments : List Bytes} (h : State.Start segments s) : Ordered s := by
  subst h
  exact ⟨by simp, by simp, by simp⟩

/-- A step, whoever takes it. -/
theorem Ordered.step (hn : n ≤ 2 ^ 27) (hi : Inv n s) (h : Ordered s) {e : Event}
    (he : e.InOrder s) (hs : Step cfg s e s') : Ordered s' := by
  cases hs with
  | main _ hm =>
    refine ⟨hm.posted h.posted, fun c hc hr => ?_, hm.last h.last⟩
    obtain ⟨k, hk, hget⟩ := List.getElem_of_mem hc
    have hck : s.conns[k]? = some c := by rw [List.getElem?_eq_getElem hk, hget]
    exact (h.fifo c hc hr).congr fun x hx =>
      segTag_known hi.layout.bounds (hi.held hck hx).1 (hm.known hi.layout)
  | accept =>
    refine ⟨h.posted, fun c hc hr => ?_, h.last⟩
    obtain hc | hc := List.mem_append.mp hc
    · exact (h.fifo c hc hr).congr fun _ _ => rfl
    · obtain rfl := List.mem_singleton.mp hc
      exact ⟨rfl, rfl, by simp [Conn.opened]⟩
  | @write k c sh c' _ hc hw =>
    have hmem := List.mem_of_getElem? hc
    have hci := hi.conns c hmem
    have hlow : ∀ x ∈ c.segments, x < 2 ^ 27 := fun x hx =>
      (hi.held hc hx).1.trans_le
        ((hi.layout.bounds.published.trans hi.layout.bounds.wire).trans hn)
    have hfifo : c'.reader ≠ .ended → Fifo s.shared c' := fun hr => by
      rw [hw.reader] at hr
      exact hw.fifo hci hlow (hi.held_once hc) (fun j hj => h.posted j (hi.mem_posted hmem hj)) hr
        (h.fifo c hmem hr)
    obtain ⟨queue, jobs, sent, crashed, rfl⟩ := hw.frame
    exact ⟨h.posted, forall_mem_set (fun c hc hr => (h.fifo c hc hr).congr fun _ _ => rfl)
      fun hr => (hfifo hr).congr fun _ _ => rfl, h.last⟩
  | @receive k c i body sh c' _ hc hr =>
    have hmem := List.mem_of_getElem? hc
    have hfifo := hr.fifo (hi.conns c hmem) (fun hne => he hne c hc) (h.fifo c hmem hr.reader)
    obtain ⟨unnamed, rfl⟩ := hr.frame
    exact ⟨h.posted, forall_mem_set (fun c hc hr => (h.fifo c hc hr).congr fun _ _ => rfl)
      fun _ => hfifo.congr fun _ _ => rfl, h.last⟩
  | @judge k c sh c' _ hc hj =>
    have hmem := List.mem_of_getElem? hc
    obtain ⟨-, -, hknown, -, -, hposted, -⟩ := hj.frame
    exact ⟨hposted ▸ h.posted,
      forall_mem_set (fun c hc hr => (h.fifo c hc hr).congr fun _ _ => by rw [hknown])
        fun _ => hj.fifo (h.fifo c hmem hj.reader), hj.last h.last⟩

/-- What is answered in order answers what was sent. -/
theorem Ordered.answers (h : Ordered s) {e : Event} (he : e.InOrder s) (hs : Step cfg s e s') :
    e.Answers s := by
  cases hs with
  | receive _ hc hr =>
    intro hne c' hc'
    obtain rfl := Option.some.inj (hc'.symm.trans hc)
    exact (h.fifo _ (List.mem_of_getElem? hc) hr.reader).owes (he hne _ hc)
  | _ => trivial

/-- Along a run of workers that answer in order. -/
theorem inv_of_run {segments : List Bytes} (hn : segments.length ≤ 2 ^ 27)
    {trace : List (State R S × Event × State R S)} (h : ServeRun cfg segments trace s)
    (hin : ∀ t ∈ trace, t.2.1.InOrder t.1) : Inv segments.length s ∧ Ordered s := by
  induction h with
  | nil h => exact ⟨inv_start h, ordered_start h⟩
  | @snoc trace s s' e _ hs ih =>
    obtain ⟨hi, ho⟩ := ih fun t ht => hin t (List.mem_append_left _ ht)
    have he : e.InOrder s := hin (s, e, s') (by simp)
    exact ⟨hi.step hn (ho.answers he hs) hs, ho.step hn hi he hs⟩

end Runs

end Hazync.SegServe
