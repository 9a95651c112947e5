import Hazync.SegServe.Moves

/-!
# Work is kept

Every segment and every job that has been published is in exactly one place: queued, held by one
connection, or accepted. The main thread adds work and takes results, a connection moves what it
holds, and the invariant counts both.

## The two counts

For each segment, and for each job, one adds up in how many places it is: how often it is queued,
how often some connection holds it, whether it is accepted. The invariant is that the sum is 1 for
what has been published and 0 for what has not. A count says both that nothing is lost and that
nothing is there twice, and a step of a thread changes it in two places that cancel. So every step
is one equation (`MainStep.segments`, `MainStep.jobs`, and those of a connection in `Moves`).

The main thread is the only one that adds work. It publishes a segment one segment late, because the
last one goes out under a tag of its own and can be known as the last only when the executor has
ended. `Layout` says where it stands in this. The tag of a segment does not change when the total
becomes known, except for the last one, which has not been sent by then (`segTag_known`); so tags
that were sent before stay right.

The receipts come in any order, and the main thread waits for all of them. If it began to collect
too early it would find an empty slot and end in a panic. That it does not follows from the number
of receipts and from where they can be (`MainStep.crashed`).
-/

namespace Hazync.SegServe

open ByteStrings Tally

variable {R S : Type*} {cfg : Setup R S}

/-! ## What a step of the main thread does -/

section MainEffects

variable {n : ℕ} {sh sh' : Shared R S} {m m' : Main R}

/-- A step of the main thread, by where it stands. -/
theorem MainStep.layout (h : MainStep cfg sh m sh' m') (hl : Layout n sh m) : Layout n sh' m' := by
  cases h with
  | produce b rest pending =>
    obtain ⟨hn, hknown, hlen, -, hpend, hnone⟩ := hl
    refine ⟨by simp; simp at hn; omega, hknown, ?_, ?_, ?_, by simp⟩
    · cases pending with
      | none => simp at hlen ⊢; omega
      | some i => simp at hlen ⊢; omega
    · rintro i rfl
      have hi := hpend i rfl
      simp at hlen ⊢
      omega
    · rintro i ⟨⟩
      simp
  | publish rest pending i =>
    obtain ⟨hn, hknown, hlen, hdue, hpend, hnone⟩ := hl
    refine ⟨hn, hknown, ?_, by simp, hpend, ?_⟩
    · simp at hlen ⊢
      omega
    · rintro rfl
      exact absurd (hdue i rfl).2 (by simp)
  | execute pending =>
    obtain ⟨hn, hknown, hlen, -, hpend, hnone⟩ := hl
    refine ⟨by simpa using hn, by simpa using hn, ?_⟩
    cases pending with
    | none =>
      have hpub := hnone rfl
      simp at hlen hn
      simp [hpub]
      omega
    | some i =>
      simp at hlen hn
      simp
      omega
  | publishLast hpos =>
    obtain ⟨hn, hknown, hpub⟩ := hl
    refine ⟨hn, hknown, ?_⟩
    simp only
    omega
  | publishNone hzero =>
    obtain ⟨hn, hknown, hpub⟩ := hl
    exact ⟨hn, hknown, by omega⟩
  | _ => exact hl

/-- A segment that is published is queued. -/
theorem MainStep.segments (h : MainStep cfg sh m sh' m') (hl : Layout n sh m)
    (hlast : sh.totalKnown = none → sh.lastAccepted = false) (x : ℕ) :
    sh'.queue.count x + (sh'.segmentDone x).toNat + (if x < sh.published then 1 else 0) =
      sh.queue.count x + (sh.segmentDone x).toNat + if x < sh'.published then 1 else 0 := by
  cases h with
  | produce b rest pending =>
    have hdone : (sh.out ++ [none]).getD x none = sh.out.getD x none := by
      simp only [List.getD_eq_getElem?_getD, List.getElem?_append]
      split
      · rfl
      · next hx =>
        rw [List.getElem?_eq_none (l := sh.out) (by omega)]
        cases x - sh.out.length <;> simp
    simp only [Shared.segmentDone, hdone]
  | publish rest pending i =>
    obtain ⟨-, -, -, hdue, -, -⟩ := hl
    obtain ⟨rfl, -⟩ := hdue i rfl
    simp only [List.count_append, List.count_singleton, beq_iff_eq, Shared.segmentDone]
    split <;> split <;> split <;> omega
  | execute pending =>
    simp only [Shared.segmentDone, hl.2.1, hlast hl.2.1, Bool.and_false]
  | publishLast hpos =>
    obtain ⟨hn, -, hpub⟩ := hl
    simp only [List.count_append, List.count_singleton, beq_iff_eq, Shared.segmentDone]
    split <;> split <;> split <;> omega
  | _ => rfl

/-- What is published is added at the end. -/
theorem posted_post (work : List (UInt32 × Bytes)) :
    (sh.post work).posted =
      sh.posted ++ work.mapIdx fun k w => ⟨sh.posted.length + k, w.1, w.2⟩ := rfl

/-- Jobs are numbered in the order in which they are published. -/
theorem ids_post (hids : sh.posted.map Job.id = List.range sh.posted.length)
    (work : List (UInt32 × Bytes)) :
    (sh.post work).posted.map Job.id = List.range (sh.post work).posted.length := by
  rw [posted_post, List.map_append, hids, List.length_append, List.length_mapIdx, List.range_add]
  congr 1
  refine List.ext_getElem (by simp) fun k h₁ h₂ => ?_
  simp

/-- What the main thread does with jobs: it publishes some, or leaves them alone. -/
theorem MainStep.posts (h : MainStep cfg sh m sh' m') :
    (∃ work, sh'.jobs = sh.jobs ++ (work.mapIdx fun k w => ⟨sh.posted.length + k, w.1, w.2⟩) ∧
      sh'.posted = (sh.post work).posted) ∧ sh'.accepted = sh.accepted := by
  cases h with
  | collect sr lifted => exact ⟨⟨[(LIFT_TAG, cfg.merged sr)], rfl, rfl⟩, rfl⟩
  | sweep widths d => exact ⟨⟨_, rfl, rfl⟩, rfl⟩
  | resolveAway k c => exact ⟨⟨[(resolveTag k, cfg.resolveBody c k)], rfl, rfl⟩, rfl⟩
  | _ => exact ⟨⟨[], by simp [Shared.consume], by simp [Shared.post, Shared.consume]⟩, rfl⟩

/-- A job that is published is queued. -/
theorem MainStep.jobs (h : MainStep cfg sh m sh' m') (x : Job) :
    sh'.jobs.count x + sh'.accepted.count x + sh.posted.count x =
      sh.jobs.count x + sh.accepted.count x + sh'.posted.count x := by
  obtain ⟨⟨work, hjobs, hposted⟩, haccepted⟩ := h.posts
  rw [hjobs, hposted, haccepted, posted_post, List.count_append, List.count_append]
  omega

/-- So they stay numbered. -/
theorem MainStep.ids (h : MainStep cfg sh m sh' m')
    (hids : sh.posted.map Job.id = List.range sh.posted.length) :
    sh'.posted.map Job.id = List.range sh'.posted.length := by
  obtain ⟨⟨work, -, hposted⟩, -⟩ := h.posts
  rw [hposted]
  exact ids_post hids work

/-- The total becomes known after every segment but the last has been published. -/
theorem segTag_known (hb : Bounds n sh) {i : ℕ} (hi : i < sh.published) {known : Option ℕ}
    (hknown : known = sh.totalKnown ∨ sh.totalKnown = none ∧ known = some sh.wire.length) :
    segTag known i = segTag sh.totalKnown i := by
  obtain rfl | ⟨hnone, rfl⟩ := hknown
  · rfl
  · have hlt := hb.unknown hnone
    rw [segTag, segTag, hnone, if_neg (by simp; omega), if_neg (by simp)]

/-- The total is known from one step on. -/
theorem MainStep.known (h : MainStep cfg sh m sh' m') (hl : Layout n sh m) :
    sh'.totalKnown = sh.totalKnown ∨
      sh.totalKnown = none ∧ sh'.totalKnown = some sh.wire.length := by
  cases h with
  | execute pending => exact .inr ⟨hl.2.1, rfl⟩
  | _ => exact .inl rfl

/-- What the main thread leaves alone. -/
theorem MainStep.frame (h : MainStep cfg sh m sh' m') :
    sh'.sent = sh.sent ∧ sh.published ≤ sh'.published ∧ sh'.lastAccepted = sh.lastAccepted := by
  cases h <;> simp [Shared.post, Shared.consume]

/-- Fewer are there than places, if one of the places is empty. -/
theorem countP_le_of_getD {l : List (Option R)} {k i : ℕ} (hi : i < k) (hk : k ≤ l.length)
    (hnone : l.getD i none = none) (hlow : ∀ j, (l.getD j none).isSome → j < k) :
    l.countP Option.isSome < k := by
  have hdrop : (l.drop k).countP Option.isSome = 0 := by
    refine List.countP_eq_zero.mpr fun o ho hsome => ?_
    obtain ⟨j, hj, rfl⟩ := List.getElem_of_mem ho
    rw [List.length_drop] at hj
    rw [List.getElem_drop] at hsome
    have hlt := hlow (k + j) (by
      rw [List.getD_eq_getElem?_getD, List.getElem?_eq_getElem (by omega)]
      exact hsome)
    omega
  have htake : (l.take k).countP Option.isSome < k := by
    refine lt_of_le_of_ne (List.countP_le_length.trans (by simp)) fun heq => ?_
    have hall := List.countP_eq_length.mp (heq.trans (by simp [hk] : k = (l.take k).length))
    have hmem : l.getD i none ∈ l.take k := by
      rw [List.getD_eq_getElem?_getD, List.getElem?_eq_getElem (by omega), Option.getD_some]
      exact List.mem_take_iff_getElem.mpr ⟨i, by omega, rfl⟩
    rw [hnone] at hmem
    exact absurd (hall _ hmem) (by simp)
  rw [← List.take_append_drop k l, List.countP_append, hdrop]
  exact htake

/-- Not all are there if one is missing. -/
theorem mapM_id_eq_none {l : List (Option R)} (h : l.mapM id = none) : none ∈ l := by
  induction l with
  | nil => exact absurd h (by simp)
  | cons o l ih =>
    cases o with
    | none => exact List.mem_cons_self
    | some r =>
      refine List.mem_cons_of_mem _ (ih ?_)
      cases hl : l.mapM id with
      | none => rfl
      | some rs => simp [List.mapM_cons, hl] at h

/-- The wait is over only when every receipt is there. -/
theorem MainStep.crashed (h : MainStep cfg sh m sh' m') (hs : sh.crashed = false)
    (hout : sh.out.length = sh.wire.length)
    (hlow : ∀ i, (sh.out.getD i none).isSome → i + 1 < sh.wire.length) : sh'.crashed = false := by
  cases h with
  | missingLift sr htotal hlast hhave hnone =>
    obtain ⟨i, hi, hget⟩ := List.mem_take_iff_getElem.mp (mapM_id_eq_none hnone)
    have hlt := countP_le_of_getD (l := sh.out) (i := i) (k := sh.wire.length - 1) (by omega)
      (by omega) (by rw [List.getD_eq_getElem?_getD, List.getElem?_eq_getElem (by omega)]; exact hget)
      fun j hj => by have := hlow j hj; omega
    omega
  | _ => exact hs

/-- There is a slot for each segment, and none is filled that is not published. -/
theorem MainStep.out (h : MainStep cfg sh m sh' m') (hout : sh.out.length = sh.wire.length)
    (hlow : ∀ i, (sh.out.getD i none).isSome → i + 1 < sh.wire.length) :
    sh'.out.length = sh'.wire.length ∧
      ∀ i, (sh'.out.getD i none).isSome → i + 1 < sh'.wire.length := by
  cases h with
  | produce b rest pending =>
    refine ⟨by simp [hout], fun i hi => ?_⟩
    simp only [List.getD_eq_getElem?_getD, List.getElem?_append] at hi
    split at hi
    · have hlt := hlow i (by rwa [List.getD_eq_getElem?_getD])
      simp
      omega
    · cases hx : i - sh.out.length <;> simp [hx] at hi
  | _ => exact ⟨hout, hlow⟩

end MainEffects

/-! ## The invariant -/

/-- Work is in one place, and the threads know where. Everything that is said of lost or doubled
    work follows from the two counts `segments` and `jobs`. -/
structure Inv (n : ℕ) (s : State R S) : Prop where
  /-- The driver is where its own count of the segments says. -/
  layout : Layout n s.shared s.main
  /-- There is a slot for each segment of the wire. -/
  out : s.shared.out.length = s.shared.wire.length
  /-- The newest segment on the wire has no result yet. -/
  unlifted : ∀ i, (s.shared.out.getD i none).isSome → i + 1 < s.shared.wire.length
  /-- As long as the total is not known the last segment has not been accepted. -/
  unknown : s.shared.totalKnown = none → s.shared.lastAccepted = false
  /-- A published segment is in exactly one place: queued, in flight, in a thread's hand,
      answered. -/
  segments : ∀ i, s.segmentPlaces i = if i < s.shared.published then 1 else 0
  /-- So is each join that was posted. -/
  jobs : ∀ j, s.jobPlaces j = s.shared.posted.count j
  /-- Joins are numbered as they are posted. -/
  ids : s.shared.posted.map Job.id = List.range s.shared.posted.length
  /-- What each connection's threads rely on. -/
  conns : ∀ c ∈ s.conns, ConnInv s.shared c
  /-- What went over a wire was published, under the tag of its number. -/
  sent : ∀ x ∈ s.shared.sent, x.1 < s.shared.published ∧ x.2 = segTag s.shared.totalKnown x.1
  /-- No thread has come to a state that it does not handle. -/
  crashed : s.shared.crashed = false

section Invariant

variable {n : ℕ} {s s' : State R S} {k : ℕ} {c : Conn}

/-- Before anything is produced. -/
theorem inv_start {segments : List Bytes} (h : State.Start segments s) : Inv segments.length s := by
  subst h
  exact
    { layout := by simp [Layout]
      out := rfl
      unlifted := by simp
      unknown := fun _ => rfl
      segments := by simp [State.segmentPlaces, Shared.segmentDone]
      jobs := by simp [State.jobPlaces]
      ids := rfl
      conns := by simp
      sent := by simp
      crashed := rfl }

/-- A held segment has been published, once, and is not done. -/
theorem Inv.held (h : Inv n s) (hc : s.conns[k]? = some c) {i : ℕ} (hi : i ∈ c.segments) :
    i < s.shared.published ∧ s.shared.segmentDone i = false := by
  have hplaces := h.segments i
  have hcount := List.count_pos_iff.mpr hi
  have hle := le_tally Conn.segments (x := i) hc
  rw [State.segmentPlaces] at hplaces
  split at hplaces
  · next hlt =>
    refine ⟨hlt, ?_⟩
    cases hdone : s.shared.segmentDone i with
    | false => rfl
    | true =>
      rw [hdone, Bool.toNat_true] at hplaces
      omega
  · omega

/-- A connection holds a segment once. -/
theorem Inv.held_once (h : Inv n s) (hc : s.conns[k]? = some c) (i : ℕ) :
    c.segments.count i ≤ 1 := by
  have hplaces := h.segments i
  have hle := le_tally Conn.segments (x := i) hc
  rw [State.segmentPlaces] at hplaces
  split at hplaces <;> omega

/-- A step of one connection that moves work keeps it all in one place. -/
theorem places_set {sh : Shared R S} {c' : Conn} (hc : s.conns[k]? = some c) {x : ℕ}
    (h : sh.queue.count x + c'.segments.count x + (sh.segmentDone x).toNat =
      s.shared.queue.count x + c.segments.count x + (s.shared.segmentDone x).toNat) :
    State.segmentPlaces { s with shared := sh, conns := s.conns.set k c' } x = s.segmentPlaces x := by
  have hset := tally_set Conn.segments (b := c') (x := x) hc
  simp only [State.segmentPlaces]
  omega

/-- The same for jobs. -/
theorem jobPlaces_set {sh : Shared R S} {c' : Conn} (hc : s.conns[k]? = some c) {x : Job}
    (h : sh.jobs.count x + c'.jobs.count x + sh.accepted.count x =
      s.shared.jobs.count x + c.jobs.count x + s.shared.accepted.count x) :
    State.jobPlaces { s with shared := sh, conns := s.conns.set k c' } x = s.jobPlaces x := by
  have hset := tally_set Conn.jobs (b := c') (x := x) hc
  simp only [State.jobPlaces]
  omega

/-- What a connection's threads know stands while the total is not touched. -/
theorem ConnInv.congr {sh sh' : Shared R S} (h : ConnInv sh c) (hknown : sh'.totalKnown = sh.totalKnown) :
    ConnInv sh' c where
  sending i t hw := hknown ▸ h.sending i t hw
  sendingJob := h.sendingJob
  segment i body hr := hknown ▸ h.segment i body hr
  job := h.job
  drained := h.drained
  gone := h.gone

/-- A step of the main thread. -/
theorem Inv.mainStep (h : Inv n s) {sh : Shared R S} {m : Main R}
    (hm : MainStep cfg s.shared s.main sh m) : Inv n { s with shared := sh, main := m } := by
  have hb := h.layout.bounds
  obtain ⟨hout, hlow⟩ := hm.out h.out h.unlifted
  obtain ⟨hsent, hpub, hlast⟩ := hm.frame
  have htag : ∀ {i}, i < s.shared.published → segTag sh.totalKnown i = segTag s.shared.totalKnown i :=
    fun hi => segTag_known hb hi (hm.known h.layout)
  refine
    { layout := hm.layout h.layout, out := hout, unlifted := hlow, unknown := fun hu => ?_
      segments := fun i => ?_, jobs := fun j => ?_, ids := hm.ids h.ids, conns := fun c hc => ?_
      sent := fun x hx => ?_, crashed := hm.crashed h.crashed h.out h.unlifted }
  · refine hlast.trans (h.unknown ?_)
    obtain heq | ⟨-, hsome⟩ := hm.known h.layout
    · exact heq ▸ hu
    · exact absurd (hsome.symm.trans hu) (by simp)
  · have hplaces := h.segments i
    have hstep := hm.segments h.layout h.unknown i
    simp only [State.segmentPlaces] at hplaces ⊢
    omega
  · have hplaces := h.jobs j
    have hstep := hm.jobs j
    simp only [State.jobPlaces] at hplaces ⊢
    omega
  · obtain ⟨k, hk, hget⟩ := List.getElem_of_mem hc
    have hck : s.conns[k]? = some c := by rw [List.getElem?_eq_getElem hk, hget]
    have hci := h.conns c hc
    refine
      { sending := fun i t hw => ?_, sendingJob := hci.sendingJob, segment := fun i body hr => ?_
        job := hci.job, drained := hci.drained, gone := hci.gone }
    · obtain ⟨hlast, ht⟩ := hci.sending i t hw
      have hmem : i ∈ c.segments := by rw [Conn.segments, hlast]; simp
      exact ⟨hlast, ht.trans (htag (h.held hck hmem).1).symm⟩
    · have hmem : plain i ∈ c.segments := by simp [Conn.segments, hr, Reader.segments]
      exact (hci.segment i body hr).trans (htag (h.held hck hmem).1).symm
  · obtain ⟨hlt, ht⟩ := h.sent x (hsent ▸ hx)
    exact ⟨hlt.trans_le hpub, ht.trans (htag hlt).symm⟩

/-- A connection more, which holds nothing. -/
theorem Inv.accept (h : Inv n s) : Inv n
    { s with
      shared := { s.shared with unnamed := s.shared.unnamed + 1 }
      conns := s.conns ++ [.opened] } where
  layout := h.layout.congr rfl rfl rfl
  out := h.out
  unlifted := h.unlifted
  unknown := h.unknown
  segments i := by
    rw [State.segmentPlaces, tally_append_singleton]
    exact h.segments i
  jobs j := by
    rw [State.jobPlaces, tally_append_singleton]
    exact h.jobs j
  ids := h.ids
  conns c hc := by
    obtain hc | hc := List.mem_append.mp hc
    · exact (h.conns c hc).congr rfl
    · obtain rfl := List.mem_singleton.mp hc
      exact { sending := by simp [Conn.opened], sendingJob := by simp [Conn.opened]
              segment := by simp [Conn.opened], job := by simp [Conn.opened]
              drained := by simp [Conn.opened], gone := by simp [Conn.opened] }
  sent := h.sent
  crashed := h.crashed

/-- The connections after a step of one of them. -/
theorem forall_mem_set {p : Conn → Prop} {l : List Conn} {c' : Conn} (hl : ∀ c ∈ l, p c)
    (hc' : p c') : ∀ c ∈ l.set k c', p c := by
  intro c hc
  obtain hc | rfl := List.mem_or_eq_of_mem_set hc
  · exact hl c hc
  · exact hc'

/-- A step of a writer. -/
theorem Inv.writerStep (h : Inv n s) {sh : Shared R S} {c' : Conn} (hc : s.conns[k]? = some c)
    (hw : WriterStep cfg s.shared c sh c') :
    Inv n { s with shared := sh, conns := s.conns.set k c' } := by
  have hci := h.conns c (List.mem_of_getElem? hc)
  have hlt : ∀ i ∈ c.segments, i < s.shared.wire.length := fun i hi =>
    lt_of_lt_of_le (h.held hc hi).1 h.layout.bounds.published
  have hsent := hw.mem_sent hci
  have hcrash := hw.crashed h.crashed hlt
  have hsegs := hw.segments hci (h.held_once hc)
  have hjobs := hw.jobs hci
  have hci' := hw.connInv hci
  obtain ⟨queue, jobs, sent, crashed, rfl⟩ := hw.frame
  exact
    { layout := h.layout.congr rfl rfl rfl
      out := h.out
      unlifted := h.unlifted
      unknown := h.unknown
      segments := fun x => by
        have hx := hsegs x
        refine (places_set hc ?_).trans (h.segments x)
        simp only [Shared.segmentDone] at hx ⊢
        omega
      jobs := fun x => by
        have hx := hjobs x
        refine (jobPlaces_set hc ?_).trans (h.jobs x)
        simp only at hx ⊢
        omega
      ids := h.ids
      conns := forall_mem_set (fun c hc => (h.conns c hc).congr rfl) hci'
      sent := fun x hx => (hsent x hx).elim (h.sent x) fun hnew => ⟨(h.held hc hnew.1).1, hnew.2⟩
      crashed := hcrash }

/-- A frame that answers what the peer was sent. -/
theorem Inv.receiveStep (h : Inv n s) {sh : Shared R S} {c' : Conn} {i : UInt32} {body : Bytes}
    (hc : s.conns[k]? = some c) (hr : ReceiveStep i body s.shared c sh c')
    (howes : i ≠ HELLO_TAG → c.Owes s.shared i) :
    Inv n { s with shared := sh, conns := s.conns.set k c' } := by
  have hci := h.conns c (List.mem_of_getElem? hc)
  have hsegs := hr.segments howes
  have hjobs := hr.jobs
  have hci' := hr.connInv hci howes
  obtain ⟨unnamed, rfl⟩ := hr.frame
  exact
    { layout := h.layout.congr rfl rfl rfl
      out := h.out
      unlifted := h.unlifted
      unknown := h.unknown
      segments := fun x => (places_set hc (by rw [hsegs]; rfl)).trans (h.segments x)
      jobs := fun x => (jobPlaces_set hc (by rw [hjobs])).trans (h.jobs x)
      ids := h.ids
      conns := forall_mem_set (fun c hc => (h.conns c hc).congr rfl) hci'
      sent := h.sent
      crashed := h.crashed }

/-- A judgement. -/
theorem Inv.judgeStep (hn : n ≤ 2 ^ 27) (h : Inv n s) {sh : Shared R S} {c' : Conn}
    (hc : s.conns[k]? = some c) (hj : JudgeStep cfg s.shared c sh c') :
    Inv n { s with shared := sh, conns := s.conns.set k c' } := by
  have hci := h.conns c (List.mem_of_getElem? hc)
  have hb := h.layout.bounds
  have hlt : ∀ i ∈ c.segments, i < s.shared.wire.length := fun i hi =>
    lt_of_lt_of_le (h.held hc hi).1 hb.published
  have hlow : ∀ i ∈ c.segments, i < 2 ^ 27 := fun i hi =>
    (hlt i hi).trans_le (hb.wire.trans hn)
  obtain ⟨hwire, hlen, hknown, hpub, hsent, hposted, -⟩ := hj.frame
  exact
    { layout := h.layout.congr hwire hknown hpub
      out := by rw [hlen, hwire, h.out]
      unlifted := hj.unlifted hci hb hlow (fun i hi => (h.held hc hi).1) h.unlifted
      unknown := hj.unknown hci hlow h.unknown
      segments := fun x => by
        rw [places_set hc (hj.segments hci hlow (fun i hi => (h.held hc hi).2) x), hpub]
        exact h.segments x
      jobs := fun x => by
        rw [jobPlaces_set hc (hj.jobs x), hposted]
        exact h.jobs x
      ids := by rw [hposted]; exact h.ids
      conns := forall_mem_set (fun c hc => (h.conns c hc).congr hknown) (hj.connInv hci)
      sent := by rw [hsent, hpub, hknown]; exact h.sent
      crashed := hj.crashed h.crashed fun i hi => (hlt i hi).trans_eq h.out.symm }

/-- Frames answer what their peers were sent. -/
def Event.Answers (s : State R S) : Event → Prop
  | .receive k i _ => i ≠ HELLO_TAG → ∀ c, s.conns[k]? = some c → c.Owes s.shared i
  | _ => True

/-- A step, whoever takes it. -/
theorem Inv.step (hn : n ≤ 2 ^ 27) (h : Inv n s) {e : Event} (he : e.Answers s)
    (hs : Step cfg s e s') : Inv n s' := by
  cases hs with
  | main _ hm => exact h.mainStep hm
  | accept => exact h.accept
  | write _ hc hw => exact h.writerStep hc hw
  | receive _ hc hr => exact h.receiveStep hc hr fun hi => he hi _ hc
  | judge _ hc hj => exact h.judgeStep hn hc hj

end Invariant

end Hazync.SegServe
