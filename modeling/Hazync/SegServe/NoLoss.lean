import Hazync.SegServe.Results

/-!
# No work is lost

Every piece of work that has been published is accepted, queued or in the hands of one connection
that has not torn down. Of a job this is said of the job itself: a result that stands in `jout`
under its tag may be another's.

## Where to look for a piece of work

The invariant counts places; what it comes to is said here in terms of the structures. A segment is
in `out` or has been taken as the last one, or is in `queue`, or a connection holds it that has not
torn down. Of a job there is more to say. Its result goes into `jout` under its tag, and something
being there under the tag does not mean that it is this job's. So `JobKept` speaks of whose the
result is, a history variable that the code does not have.

With it the statement for jobs is true only as long as no two jobs that are open at the same time
share a tag. Up to `2 ^ 17 + 1` segments this is so. Beyond, the tags of two joins can be the same,
and the result of the one may replace that of the other; `Transfers` has the first case. What is
said of segments needs no such bound, only that indices fit the bits below the tags.
-/

namespace Hazync.SegServe

open ByteStrings Tally

variable {R S : Type*} {cfg : Setup R S} {n : ℕ} {s s' : State R S}

/-- A published segment is accepted, queued, or held by a connection that has not torn down. -/
def SegmentKept (s : State R S) (i : ℕ) : Prop :=
  (s.shared.out.getD i none).isSome ∨
    (s.shared.totalKnown = some (i + 1) ∧ (s.shared.lastOut.isSome ∨ s.main.collected = true)) ∨
    i ∈ s.shared.queue ∨ ∃ c ∈ s.conns, c.writer ≠ .gone ∧ i ∈ c.segments

/-- A published job has its own result in `jout` or taken by the driver, or it is queued, or held by
a connection that has not torn down. -/
def JobKept (s : State R S) (j : Job) : Prop :=
  (s.shared.whose j.tag = some j ∧ (s.shared.jout j.tag).isSome) ∨ s.shared.taken j = true ∨
    j ∈ s.shared.jobs ∨ ∃ c ∈ s.conns, c.writer ≠ .gone ∧ j ∈ c.jobs

/-- A connection that holds work has not torn down. -/
theorem ConnInv.not_gone {sh : Shared R S} {c : Conn} (hc : ConnInv sh c)
    (h : c.segments ≠ [] ∨ c.jobs ≠ []) : c.writer ≠ .gone := by
  intro hw
  obtain ⟨hsegs, hjobs, hr⟩ := hc.gone hw
  simp [Conn.segments, Conn.jobs, hsegs, hjobs, hw, hr, Writer.segments, Writer.jobs,
    Reader.segments, Reader.jobs] at h

/-- A published segment is kept. -/
theorem Inv.segmentKept (h : Inv n s) (ho : Ordered s) {i : ℕ} (hi : i < s.shared.published) :
    SegmentKept s i := by
  have hplaces := h.segments i
  rw [if_pos hi, State.segmentPlaces] at hplaces
  by_cases hq : i ∈ s.shared.queue
  · exact .inr (.inr (.inl hq))
  by_cases hheld : 0 < tally Conn.segments s.conns i
  · obtain ⟨c, hc, hmem⟩ := exists_mem_of_tally_pos _ hheld
    exact .inr (.inr (.inr ⟨c, hc, (h.conns c hc).not_gone (.inl (List.ne_nil_of_mem hmem)), hmem⟩))
  · have hdone : s.shared.segmentDone i = true := by
      rw [List.count_eq_zero.mpr hq] at hplaces
      cases hdone : s.shared.segmentDone i with
      | true => rfl
      | false =>
        rw [hdone, Bool.toNat_false] at hplaces
        omega
    rw [Shared.segmentDone, Bool.or_eq_true, Bool.and_eq_true, beq_iff_eq] at hdone
    exact hdone.imp id fun hlast => .inl ⟨hlast.1, ho.last hlast.2⟩

/-- A published job is kept, itself. -/
theorem Inv.jobKept (h : Inv n s) (hr : Results n s) {j : Job} (hj : j ∈ s.shared.posted) :
    JobKept s j := by
  have hplaces := h.jobs j
  have hcount := List.count_pos_iff.mpr hj
  rw [State.jobPlaces] at hplaces
  by_cases hq : j ∈ s.shared.jobs
  · exact .inr (.inr (.inl hq))
  by_cases hheld : 0 < tally Conn.jobs s.conns j
  · obtain ⟨c, hc, hmem⟩ := exists_mem_of_tally_pos _ hheld
    exact .inr (.inr (.inr ⟨c, hc, (h.conns c hc).not_gone (.inr (List.ne_nil_of_mem hmem)), hmem⟩))
  · have hacc : j ∈ s.shared.accepted := by
      rw [List.count_eq_zero.mpr hq] at hplaces
      exact List.count_pos_iff.mp (by omega)
    exact (hr.accepted j hacc).imp id .inl

/-- An accepted segment is in no other place. -/
theorem Inv.done_nowhere (h : Inv n s) {i : ℕ} (hdone : s.shared.segmentDone i = true) :
    i ∉ s.shared.queue ∧ ∀ c ∈ s.conns, i ∉ c.segments := by
  have hplaces := h.segments i
  rw [State.segmentPlaces, hdone, Bool.toNat_true] at hplaces
  refine ⟨fun hq => ?_, fun c hc hmem => ?_⟩
  · have hcount := List.count_pos_iff.mpr hq
    split at hplaces <;> omega
  · obtain ⟨k, hk, hget⟩ := List.getElem_of_mem hc
    have hck : s.conns[k]? = some c := by rw [List.getElem?_eq_getElem hk, hget]
    have hheld := (h.held hck hmem).2
    rw [hdone] at hheld
    exact Bool.noConfusion hheld

/-- Only the last segment goes out under `NOLIFT_TAG`. -/
theorem Inv.sent_tags (hn : n ≤ 2 ^ 27) (h : Inv n s) {x : ℕ × UInt32} (hx : x ∈ s.shared.sent) :
    plain x.2 = x.1 ∧ (x.2 &&& NOLIFT_TAG ≠ 0 ↔ s.shared.totalKnown = some (x.1 + 1)) := by
  obtain ⟨hlt, htag⟩ := h.sent x hx
  have hlow : x.1 < 2 ^ 27 :=
    hlt.trans_le ((h.layout.bounds.published.trans h.layout.bounds.wire).trans hn)
  rw [htag]
  exact ⟨plain_segTag hlow, segTag_and_nolift hlow⟩

/-! ### What is accepted stays accepted -/

/-- Where receipts stay, what is done stays done. -/
theorem segmentDone_mono {sh sh' : Shared R S} {i : ℕ} (h : sh.segmentDone i = true)
    (hout : (sh.out.getD i none).isSome → (sh'.out.getD i none).isSome)
    (hlast : sh.totalKnown = some (i + 1) ∧ sh.lastAccepted = true →
      sh'.totalKnown = some (i + 1) ∧ sh'.lastAccepted = true) : sh'.segmentDone i = true := by
  rw [Shared.segmentDone, Bool.or_eq_true, Bool.and_eq_true, beq_iff_eq] at h ⊢
  exact h.imp hout hlast

/-- The main thread takes nothing back, -/
theorem MainStep.done_mono {sh sh' : Shared R S} {m m' : Main R} (h : MainStep cfg sh m sh' m')
    (hl : Layout n sh m) {i : ℕ} (hdone : sh.segmentDone i = true) : sh'.segmentDone i = true := by
  cases h with
  | produce b rest pending =>
    refine segmentDone_mono hdone (fun hi => ?_) id
    rw [List.getD_eq_getElem?_getD] at hi ⊢
    obtain hlt | hge := Nat.lt_or_ge i sh.out.length
    · rwa [List.getElem?_append_left hlt]
    · rw [List.getElem?_eq_none hge] at hi
      exact absurd hi (by simp)
  | execute pending =>
    exact segmentDone_mono hdone id fun hk => absurd (hl.2.1.symm.trans hk.1) (by simp)
  | _ => exact hdone

/-- nor does a judgement, -/
theorem JudgeStep.done_mono {sh sh' : Shared R S} {c c' : Conn} (h : JudgeStep cfg sh c sh' c')
    {i : ℕ} (hdone : sh.segmentDone i = true) : sh'.segmentDone i = true := by
  cases h with
  | acceptLast => exact segmentDone_mono hdone id fun hk => ⟨hk.1, rfl⟩
  | accept j body r hr hlast _ hi => rw [segmentDone_set_out hi, hdone, Bool.or_true]
  | _ => exact hdone

/-- nor does any step. -/
theorem Step.done_mono (hi : Inv n s) {e : Event} (hs : Step cfg s e s') :
    (∀ i, s.shared.segmentDone i = true → s'.shared.segmentDone i = true) ∧
      ∀ j ∈ s.shared.accepted, j ∈ s'.shared.accepted := by
  cases hs with
  | main _ hm => exact ⟨fun i => hm.done_mono hi.layout, fun j hj => hm.posts.2 ▸ hj⟩
  | accept => exact ⟨fun i h => h, fun j h => h⟩
  | write _ _ hw =>
    obtain ⟨queue, jobs, sent, crashed, rfl⟩ := hw.frame
    exact ⟨fun i h => h, fun j h => h⟩
  | receive _ _ hr =>
    obtain ⟨unnamed, rfl⟩ := hr.frame
    exact ⟨fun i h => h, fun j h => h⟩
  | judge _ _ hj =>
    refine ⟨fun i => hj.done_mono, fun j hmem => ?_⟩
    cases hj with
    | acceptJob => exact List.mem_append_left _ hmem
    | _ => exact hmem

/-- What was done at some time of a run is done at its end. -/
theorem done_of_trace {segments : List Bytes} (hn : segments.length ≤ 2 ^ 27)
    {trace : List (State R S × Event × State R S)} (h : ServeRun cfg segments trace s)
    (hin : ∀ t ∈ trace, t.2.1.InOrder t.1) : ∀ t ∈ trace,
    (∀ i, t.1.shared.segmentDone i = true → s.shared.segmentDone i = true) ∧
      ∀ j ∈ t.1.shared.accepted, j ∈ s.shared.accepted := by
  induction h with
  | nil h => exact fun t ht => absurd ht List.not_mem_nil
  | @snoc trace s s' e hrun hs ih =>
    have hin' : ∀ t ∈ trace, t.2.1.InOrder t.1 := fun t ht => hin t (List.mem_append_left _ ht)
    obtain ⟨hdone, hacc⟩ := hs.done_mono (inv_of_run hn hrun hin').1
    intro t ht
    obtain ht | ht := List.mem_append.mp ht
    · obtain ⟨hdone', hacc'⟩ := ih hin' t ht
      exact ⟨fun i h => hdone i (hdone' i h), fun j h => hacc j (hacc' j h)⟩
    · obtain rfl := List.mem_singleton.mp ht
      exact ⟨hdone, hacc⟩

/-- In every run whose workers answer in order, every published segment is kept, the last segment is
the only one that is sent with `NOLIFT_TAG`, and what was once accepted is not queued and in nobody's
hands. Where there are no more receipts than the tags of joins can tell apart, every published job is
kept as well. -/
theorem no_work_lost {segments : List Bytes} (hn : segments.length ≤ 2 ^ 27)
    {trace : List (State R S × Event × State R S)} (h : ServeRun cfg segments trace s)
    (hin : ∀ t ∈ trace, t.2.1.InOrder t.1) :
    (∀ i < s.shared.published, SegmentKept s i) ∧
      (segments.length ≤ 2 ^ 17 + 1 → ∀ j ∈ s.shared.posted, JobKept s j) ∧
      (∀ x ∈ s.shared.sent, plain x.2 = x.1 ∧
        (x.2 &&& NOLIFT_TAG ≠ 0 ↔ s.shared.totalKnown = some (x.1 + 1))) ∧
      ∀ t ∈ trace,
        (∀ i, t.1.shared.segmentDone i = true →
          i ∉ s.shared.queue ∧ ∀ c ∈ s.conns, i ∉ c.segments) ∧
        ∀ j ∈ t.1.shared.accepted, j ∉ s.shared.jobs ∧ ∀ c ∈ s.conns, j ∉ c.jobs := by
  obtain ⟨hi, ho⟩ := inv_of_run hn h hin
  refine ⟨fun i => hi.segmentKept ho, fun hjoins j => hi.jobKept (results_of_run hjoins h hin),
    fun x => hi.sent_tags hn, fun t ht => ?_⟩
  obtain ⟨hdone, hacc⟩ := done_of_trace hn h hin t ht
  exact ⟨fun i h => hi.done_nowhere (hdone i h), fun j h => hi.accepted_nowhere (hacc j h)⟩

end Hazync.SegServe
