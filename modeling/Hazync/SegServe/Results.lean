import Hazync.Lib.Parallel
import Hazync.SegServe.InOrder
import Hazync.SegServe.JoinSchedule
import Mathlib.Data.List.Pairwise

/-!
# The results of jobs

`jout` keeps the result of a job under the job's tag, and nothing else tells two jobs of one tag
apart. So a result stands there safely only if no other job of its tag comes back before the driver
has taken it. The lift has a tag of its own. The joins have theirs, as long as no place of the tree
runs out of the bits that a tag has for it: up to `2 ^ 17 + 1` leaves. The resolves follow on one
another, and each waits for the result of the one before it.

## When a tag is used again

The main thread publishes jobs in three stages, and within a stage it may have many of them open.
The invariant `Results` therefore does not say that tags are different. It says that a tag is used
again only when the result of the earlier job has been taken, which leaves no time at which two jobs
of one tag can write. For the lift there is nothing to show, as there is one. For the resolves the
main thread waits after each. For the joins the tag is the place, and the tree is not too wide for
it.

`Posted` is the invariant of the stages: from where the main thread stands it says which tags have
been published so far. It is used when new jobs are published, to see that their tags are not among
those of the earlier stages, and that a pass of the driver publishes places that it has not
published before. The driver's own marks say that, since a place is marked when its join is
published.

`whose` and `taken` are history: which job the result under a tag is of, and which results the
driver has taken. They are set where the code writes to `jout` and takes from it, and nothing else
depends on them.
-/

namespace Hazync.SegServe

open ByteStrings Tally

variable {R S : Type*} {cfg : Setup R S}

/-- Taking what is under one tag leaves what is under the others. -/
theorem update_none {α : Type*} (f : UInt32 → Option α) (tag t : UInt32) :
    Function.update f tag none t = f t ∨ Function.update f tag none t = none := by
  rw [Function.update_apply]
  split
  · exact .inr rfl
  · exact .inl rfl

namespace Driver

variable {α : Type*} {join : α → α → α} {widths : List ℕ} {max : ℕ} {d : Driver α}

/-- What a pass publishes it marks, and it marks nothing else. -/
theorem published_sweep {l p : ℕ} : (sweep join widths max d).published l p =
    (d.published l p || (todo widths max d).any (·.place == (l, p))) := by
  have hrun : ∀ (js : List (Join α)) (d : Driver α),
      (js.foldl (runLocal join) d).published = d.published := fun js d =>
    List.foldlRecOn js (runLocal join)
      (motive := fun d' : Driver α => d'.published = d.published) rfl fun _ h _ _ => h
  have hcarry : ∀ (ls : List ℕ) (d : Driver α),
      (ls.foldl (carryAt widths) d).published = d.published := fun ls d => by
    refine List.foldlRecOn ls (carryAt widths)
      (motive := fun d' : Driver α => d'.published = d.published) rfl fun d' h l _ => ?_
    rw [carryAt]
    split
    · split
      · exact h
      · exact h
    · exact h
  rw [sweep, hcarry, hrun]
  rfl

/-- A harvest marks nothing. -/
theorem published_harvest : (harvest widths d).published = d.published := by
  refine List.foldlRecOn _ harvestAt
    (motive := fun d' : Driver α => d'.published = d.published) rfl ?_
  intro d' h x _
  rw [harvestAt]
  split
  · exact h
  · split
    · exact h
    · exact h

/-- Harvesting takes results and puts none. -/
theorem jout_harvest (t : UInt32) :
    (harvest widths d).jout t = d.jout t ∨ (harvest widths d).jout t = none := by
  refine List.foldlRecOn _ harvestAt
    (motive := fun d' : Driver α => d'.jout t = d.jout t ∨ d'.jout t = none) (.inl rfl) ?_
  intro d' h x _
  rw [harvestAt]
  split
  · exact h
  · split
    · obtain hsame | hnone := update_none d'.jout (joinTag x.1 x.2) t
      · exact h.imp hsame.trans hsame.trans
      · exact .inr hnone
    · exact h

end Driver

/-! ## What the main thread has published -/

/-- The jobs that have been published by the time the main thread is where it is, by their tags:
first the lift, then the joins of places that are marked, then the resolves, of which only the one
that is waited for has not been taken. -/
def Posted (n : ℕ) (sh : Shared R S) : Main R → Prop
  | .executing _ _ _ | .executed | .waiting => sh.posted = []
  | .lifting lifted => lifted.length + 1 ≤ n ∧ ∀ j ∈ sh.posted, j.tag = LIFT_TAG
  | .joining widths d => ∃ m ≤ n, widths = joinTreeWidths m ∧
      ∀ j ∈ sh.posted, j.tag = LIFT_TAG ∨
        ∃ x ∈ Driver.places widths, d.published x.1 x.2 = true ∧ j.tag = joinTag x.1 x.2
  | .resolving _ _ => ∀ j ∈ sh.posted, isResolve j.tag = true → sh.taken j = true
  | .awaiting k =>
    ∀ j ∈ sh.posted, isResolve j.tag = true → sh.taken j = true ∨ j.tag = resolveTag k
  | .finished _ => True

/-- What is under a tag of `jout` is the result of one job, the only one of the tag that has been
accepted and not been taken. -/
structure Results (n : ℕ) (s : State R S) : Prop where
  /-- A job is published under a tag that was used before only when that job's result is taken. -/
  fresh : s.shared.posted.Pairwise fun j j' => j.tag = j'.tag → s.shared.taken j = true
  there : ∀ t, (s.shared.jout t).isSome → ∃ j ∈ s.shared.accepted,
    s.shared.whose t = some j ∧ j.tag = t ∧ s.shared.taken j = false
  accepted : ∀ j ∈ s.shared.accepted,
    (s.shared.whose j.tag = some j ∧ (s.shared.jout j.tag).isSome) ∨ s.shared.taken j = true
  taken : ∀ j, s.shared.taken j = true → j ∈ s.shared.accepted
  phase : Posted n s.shared s.main

section Runs

variable {n : ℕ} {s s' : State R S}

/-- At the start there are no jobs. -/
theorem results_start {segments : List Bytes} (h : State.Start segments s) :
    Results segments.length s := by
  subst h
  exact ⟨List.Pairwise.nil, by simp, by simp, by simp, rfl⟩

/-- What is accepted was published. -/
theorem Inv.posted_of_accepted (h : Inv n s) {j : Job} (hj : j ∈ s.shared.accepted) :
    j ∈ s.shared.posted := by
  have hplaces := h.jobs j
  have hcount := List.count_pos_iff.mpr hj
  rw [State.jobPlaces] at hplaces
  exact List.count_pos_iff.mp (by omega)

/-- No job is published twice. -/
theorem Inv.nodup_posted (h : Inv n s) : s.shared.posted.Nodup :=
  List.Nodup.of_map _ (h.ids ▸ List.nodup_range)

/-- An accepted job is in no other place. -/
theorem Inv.accepted_nowhere (h : Inv n s) {j : Job} (hacc : j ∈ s.shared.accepted) :
    j ∉ s.shared.jobs ∧ ∀ c ∈ s.conns, j ∉ c.jobs := by
  have hplaces := h.jobs j
  have hcount := List.count_pos_iff.mpr hacc
  have hone := List.nodup_iff_count_le_one.mp h.nodup_posted j
  rw [State.jobPlaces] at hplaces
  refine ⟨fun hq => ?_, fun c hc hmem => ?_⟩
  · have hcount' := List.count_pos_iff.mpr hq
    omega
  · obtain ⟨k, hk, hget⟩ := List.getElem_of_mem hc
    have hle := le_tally Conn.jobs (x := j) (by rw [List.getElem?_eq_getElem hk, hget] :
      s.conns[k]? = some c)
    have hcount' := List.count_pos_iff.mpr hmem
    omega

/-- Of two jobs of one tag, one has been taken. -/
theorem Results.taken_or (h : Results n s) {j j' : Job} (hj : j ∈ s.shared.posted)
    (hj' : j' ∈ s.shared.posted) (hne : j ≠ j') (htag : j.tag = j'.tag) :
    s.shared.taken j = true ∨ s.shared.taken j' = true := by
  have hpair : s.shared.posted.Pairwise fun a b =>
      a.tag = b.tag → s.shared.taken a = true ∨ s.shared.taken b = true :=
    h.fresh.imp fun hab heq => .inl (hab heq)
  have hsymm : Std.Symm fun a b : Job =>
      a.tag = b.tag → s.shared.taken a = true ∨ s.shared.taken b = true :=
    ⟨fun a b hab heq => (hab heq.symm).symm⟩
  exact hpair.forall hj hj' hne htag

/-! ### The driver takes results -/

section Consume

variable {sh : Shared R S} {jout : UInt32 → Option R}

/-- What was taken before, and what is taken now. -/
theorem taken_consume {j : Job} : (sh.consume jout).taken j = true ↔
    sh.taken j = true ∨
      sh.whose j.tag = some j ∧ (sh.jout j.tag).isSome ∧ (jout j.tag).isNone := by
  rw [Shared.consume, Bool.or_eq_true, decide_eq_true_iff]

/-- What the driver takes out of `jout` it has taken of the job whose result it is. -/
theorem Results.consume (h : Results n s) (hjout : ∀ t, jout t = s.shared.jout t ∨ jout t = none)
    {m : Main R} (hphase : Posted n (s.shared.consume jout) m) :
    Results n { s with shared := s.shared.consume jout, main := m } where
  fresh := h.fresh.imp fun hab heq => taken_consume.mpr (.inl (hab heq))
  there t ht := by
    have hsame : jout t = s.shared.jout t := by
      refine (hjout t).resolve_right fun hnone => ?_
      rw [show (s.shared.consume jout).jout t = none from hnone] at ht
      cases ht
    obtain ⟨j, hj, hwhose, rfl, hnot⟩ := h.there t (hsame ▸ ht)
    refine ⟨j, hj, hwhose, rfl, Bool.eq_false_iff.mpr fun htaken => ?_⟩
    obtain htaken | ⟨-, -, hnone⟩ := taken_consume.mp htaken
    · rw [hnot] at htaken
      cases htaken
    · rw [Option.isNone_iff_eq_none] at hnone
      rw [show (s.shared.consume jout).jout j.tag = none from hnone] at ht
      cases ht
  accepted j hj := by
    obtain ⟨hwhose, hsome⟩ | htaken := h.accepted j hj
    · cases hout : jout j.tag with
      | some r => exact .inl ⟨hwhose, Option.isSome_iff_exists.mpr ⟨r, hout⟩⟩
      | none => exact .inr (taken_consume.mpr (.inr ⟨hwhose, hsome, Option.isNone_iff_eq_none.mpr hout⟩))
    · exact .inr (taken_consume.mpr (.inl htaken))
  taken j hj := by
    obtain hj | ⟨hwhose, hsome, -⟩ := taken_consume.mp hj
    · exact h.taken j hj
    · obtain ⟨j', hj', hwhose', -, -⟩ := h.there j.tag hsome
      rwa [Option.some.inj (hwhose.symm.trans hwhose')]
  phase := hphase

end Consume

/-! ### The main thread publishes jobs -/

/-- New jobs have tags of their own, or their tags have been freed. -/
theorem Results.post (h : Results n s) (work : List (UInt32 × Bytes)) (lastOut : Option S)
    (hnew : (work.map Prod.fst).Nodup)
    (hold : ∀ j ∈ s.shared.posted, ∀ w ∈ work, j.tag = w.1 → s.shared.taken j = true) {m : Main R}
    (hphase : Posted n (Shared.post { s.shared with lastOut := lastOut } work) m) :
    Results n
      { s with shared := Shared.post { s.shared with lastOut := lastOut } work, main := m } where
  fresh := by
    refine List.pairwise_append.mpr ⟨h.fresh, ?_, fun j hj j' hj' heq => ?_⟩
    · have htags : ((work.mapIdx fun k w => (⟨s.shared.posted.length + k, w.1, w.2⟩ : Job)).map
          Job.tag) = work.map Prod.fst := by
        refine List.ext_getElem (by simp) fun k h₁ h₂ => ?_
        simp
      rw [← htags, List.Nodup, List.pairwise_map] at hnew
      exact hnew.imp fun hne heq => absurd heq hne
    · obtain ⟨k, hk, rfl⟩ := List.mem_mapIdx.mp hj'
      exact hold j hj _ (List.getElem_mem hk) heq
  there := h.there
  accepted := h.accepted
  taken := h.taken
  phase := hphase

/-- The jobs that are published, by their tags. -/
theorem tag_post {sh : Shared R S} {work : List (UInt32 × Bytes)} {j : Job}
    (hj : j ∈ (sh.post work).posted) : j ∈ sh.posted ∨ ∃ w ∈ work, j.tag = w.1 := by
  obtain hj | hj := List.mem_append.mp hj
  · exact .inl hj
  · obtain ⟨k, hk, rfl⟩ := List.mem_mapIdx.mp hj
    exact .inr ⟨_, List.getElem_mem hk, rfl⟩

/-- A pass publishes joins of places of their own, under tags of their own. -/
theorem nodup_remote {m max : ℕ} (hm : m ≤ 2 ^ 17 + 1) {d : Driver R} {pair : R → R → Bytes} :
    ((((Driver.todo (joinTreeWidths m) max d).filter fun j => !j.stays).map fun j =>
      (j.tag, pair j.left j.right)).map Prod.fst).Nodup := by
  rw [List.map_map]
  have hplaces : ((Driver.todo (joinTreeWidths m) max d).map Join.place).Nodup := Driver.nodup_todo
  have hall : ∀ j ∈ Driver.todo (joinTreeWidths m) max d,
      j.place ∈ Driver.places (joinTreeWidths m) := fun j hj => (Driver.mem_todo hj).1
  rw [List.Nodup, List.pairwise_map] at hplaces ⊢
  refine (hplaces.imp_of_mem fun {j j'} hj hj' hne htag => ?_).sublist List.filter_sublist
  exact hne (Driver.place_of_tag hm (hall j hj) (hall j' hj') htag)

/-- The joins of a pass are published. -/
theorem Results.sweep (hn : n ≤ 2 ^ 17 + 1) (h : Results n s) {widths : List ℕ} {d : Driver R}
    (hmain : s.main = .joining widths d) : Results n
      { s with
        shared := s.shared.post (((Driver.todo widths cfg.joinLocalMax d).filter fun j =>
          !j.stays).map fun j => (j.tag, cfg.pair j.left j.right))
        main := .joining widths (Driver.sweep cfg.join widths cfg.joinLocalMax d) } := by
  have hphase := h.phase
  rw [hmain] at hphase
  obtain ⟨m, hm, rfl, hposted⟩ := hphase
  have hm' : m ≤ 2 ^ 17 + 1 := hm.trans hn
  refine h.post _ _ (nodup_remote hm') (fun j hj w hw htag => ?_) ⟨m, hm, rfl, fun j hj => ?_⟩
  · -- an old join has a place that is marked, a new one has one that is not
    obtain ⟨x, hx, rfl⟩ := List.mem_map.mp hw
    obtain ⟨hplace, hpub, -⟩ := Driver.mem_todo (List.mem_of_mem_filter hx)
    obtain ⟨hlevel, hpos⟩ := Driver.place_bounds hm' hplace
    obtain hlift | ⟨y, hy, hmarked, hjoin⟩ := hposted j hj
    · exact absurd (htag.symm.trans hlift) (joinTag_ne_lift (hlevel.trans (by decide)) hpos)
    · obtain rfl := Driver.place_of_tag hm' hy hplace (hjoin.symm.trans htag)
      rw [show d.published x.place.1 x.place.2 = false from hpub] at hmarked
      cases hmarked
  · simp only [Driver.published_sweep, Bool.or_eq_true]
    obtain hj | ⟨w, hw, htag⟩ := tag_post hj
    · exact (hposted j hj).imp id fun ⟨x, hx, hmarked, hjoin⟩ => ⟨x, hx, .inl hmarked, hjoin⟩
    · obtain ⟨x, hx, rfl⟩ := List.mem_map.mp hw
      have htodo := List.mem_of_mem_filter hx
      refine .inr ⟨x.place, (Driver.mem_todo htodo).1, .inr ?_, htag⟩
      exact List.any_eq_true.mpr ⟨x, htodo, by simp⟩

/-- The one resolve that is waited for is the one that is taken. -/
theorem Results.resolved (hi : Inv n s) (h : Results n s) {k : ℕ} (hmain : s.main = .awaiting k)
    {r : R} (hr : s.shared.jout (resolveTag k) = some r) : Results n
      { s with
        shared := s.shared.consume (Function.update s.shared.jout (resolveTag k) none)
        main := .resolving (k + 1) r } := by
  have hphase := h.phase
  rw [hmain] at hphase
  refine h.consume (update_none s.shared.jout (resolveTag k)) fun j hj hresolve => ?_
  refine taken_consume.mpr ?_
  obtain ⟨j', hj', hwhose, htag', hnot⟩ := h.there (resolveTag k) (by rw [hr]; rfl)
  obtain htaken | htag := hphase j hj hresolve
  · exact .inl htaken
  · obtain rfl | hne := eq_or_ne j j'
    · rw [htag, Function.update_self]
      exact .inr ⟨hwhose, by rw [hr]; rfl, rfl⟩
    · -- of two resolves of one tag one has been taken, and it is not the one that is there
      have hor := h.taken_or hj (hi.posted_of_accepted hj') hne (htag.trans htag'.symm)
      exact .inl (hor.resolve_right (by simp [hnot]))

/-- Only the phase and what has been published, accepted and taken matters. -/
theorem Results.congr (h : Results n s) (hposted : s'.shared.posted = s.shared.posted)
    (hjout : s'.shared.jout = s.shared.jout) (hwhose : s'.shared.whose = s.shared.whose)
    (haccepted : s'.shared.accepted = s.shared.accepted) (htaken : s'.shared.taken = s.shared.taken)
    (hphase : Posted n s'.shared s'.main) : Results n s' where
  fresh := by
    rw [hposted, htaken]
    exact h.fresh
  there := by
    rw [hjout, haccepted, hwhose, htaken]
    exact h.there
  accepted := by
    rw [haccepted, hwhose, hjout, htaken]
    exact h.accepted
  taken := by
    rw [htaken, haccepted]
    exact h.taken
  phase := hphase

/-- The stage depends on what is published and taken. -/
theorem Posted.congr {sh sh' : Shared R S} {m : Main R} (h : Posted n sh m)
    (hposted : sh'.posted = sh.posted) (htaken : sh'.taken = sh.taken) : Posted n sh' m := by
  cases m with
  | finished => trivial
  | _ => simpa only [Posted, hposted, htaken] using h

/-- A step of the main thread, stage by stage. -/
theorem Results.mainStep (hn : n ≤ 2 ^ 17 + 1) (hi : Inv n s) (h : Results n s) {sh : Shared R S}
    {m : Main R} (hm : MainStep cfg s.shared s.main sh m) :
    Results n { s with shared := sh, main := m } := by
  obtain ⟨shared, main, conns⟩ := s
  have hphase := h.phase
  dsimp only at hm
  cases hm with
  -- the merged list is posted as the one job of the lift
  | collect sr lifted htotal hlast hhave hlifted =>
    refine h.post [(LIFT_TAG, cfg.merged sr)] none (List.nodup_singleton _) ?_ ?_
    · rw [show shared.posted = [] from hphase]
      exact fun j hj => absurd hj List.not_mem_nil
    · refine ⟨?_, fun j hj => ?_⟩
      · have hn' : shared.wire.length = n := hi.layout.1
        have hout : shared.out.length = shared.wire.length := hi.out
        have hlen := Parallel.length_of_mapM hlifted
        rw [List.length_take] at hlen
        omega
      · obtain hj | ⟨w, hw, htag⟩ := tag_post hj
        · rw [show shared.posted = [] from hphase] at hj
          exact absurd hj List.not_mem_nil
        · rw [htag, List.mem_singleton.mp hw]
  | lift lifted r hr =>
    exact h.consume (update_none shared.jout LIFT_TAG)
      ⟨_, hphase.1, rfl, fun j hj => .inl (hphase.2 j hj)⟩
  | sweep widths d hdone => exact h.sweep hn rfl
  | harvest widths d =>
    refine h.consume (fun t => Driver.jout_harvest t) ?_
    obtain ⟨m, hm, rfl, hposted⟩ := hphase
    refine ⟨m, hm, rfl, fun j hj => (hposted j hj).imp id fun ⟨x, hx, hmarked, hjoin⟩ => ?_⟩
    exact ⟨x, hx, (congrFun₂ Driver.published_harvest x.1 x.2).trans hmarked, hjoin⟩
  -- the tag of a join is no resolve's, so none of those is posted yet
  | root widths d r hdone hr =>
    refine h.congr rfl rfl rfl rfl rfl fun j hj hresolve => ?_
    obtain ⟨m, hm, rfl, hposted⟩ := hphase
    obtain hlift | ⟨x, hx, -, hjoin⟩ := hposted j hj
    · rw [hlift] at hresolve
      exact absurd hresolve (by decide)
    · obtain ⟨hlevel, hpos⟩ := Driver.place_bounds (hm.trans hn) hx
      rw [hjoin, isResolve_joinTag hlevel hpos] at hresolve
      cases hresolve
  | resolveHere k c hk hlocal => exact h.congr rfl rfl rfl rfl rfl hphase
  | resolveAway k c hk hlocal =>
    refine h.post [(resolveTag k, cfg.resolveBody c k)] shared.lastOut
      (List.nodup_singleton _) (fun j hj w hw htag => ?_) fun j hj hresolve => ?_
    · rw [List.mem_singleton.mp hw] at htag
      exact hphase j hj (by rw [htag]; exact isResolve_resolveTag k)
    · obtain hj | ⟨w, hw, htag⟩ := tag_post hj
      · exact .inl (hphase j hj hresolve)
      · exact .inr (by rw [htag, List.mem_singleton.mp hw])
  | resolved k r hr => exact h.resolved hi rfl hr
  | finish k c hk => exact h.congr rfl rfl rfl rfl rfl trivial
  | _ => exact h.congr rfl rfl rfl rfl rfl hphase

/-- A connection has in hand what has been published and not been accepted. -/
theorem Inv.held_job (h : Inv n s) {c : Conn} (hc : c ∈ s.conns) {j : Job} (hj : j ∈ c.jobs) :
    j ∈ s.shared.posted ∧ j ∉ s.shared.accepted :=
  ⟨h.mem_posted hc hj, fun hacc => (h.accepted_nowhere hacc).2 c hc hj⟩

/-- A result that is accepted stands where no other job's does: of two jobs of its tag one has been
taken, and the job has not been accepted before. -/
theorem Results.acceptJob (hi : Inv n s) (h : Results n s) {c : Conn} (hc : c ∈ s.conns) {j : Job}
    (hj : j ∈ c.jobs) (r : R) {conns : List Conn} : Results n
      { s with
        shared := { s.shared with
          jout := Function.update s.shared.jout j.tag (some r)
          whose := Function.update s.shared.whose j.tag (some j)
          accepted := s.shared.accepted ++ [j] }
        conns := conns } := by
  obtain ⟨hposted, hnew⟩ := hi.held_job hc hj
  have hnot : s.shared.taken j = false := Bool.eq_false_iff.mpr fun htaken => hnew (h.taken j htaken)
  refine ⟨h.fresh, fun t ht => ?_, fun j' hj' => ?_, fun j' hj' => ?_, h.phase.congr rfl rfl⟩
  · by_cases htag : t = j.tag
    · subst htag
      exact ⟨j, List.mem_append_right _ (List.mem_singleton_self j), Function.update_self .., rfl, hnot⟩
    · replace ht : (Function.update s.shared.jout j.tag (some r) t).isSome := ht
      rw [Function.update_of_ne htag] at ht
      obtain ⟨j', hj', hwhose, rfl, hfree⟩ := h.there t ht
      exact ⟨j', List.mem_append_left _ hj', (Function.update_of_ne htag _ _).trans hwhose, rfl, hfree⟩
  · show (Function.update s.shared.whose j.tag (some j) j'.tag = some j' ∧
      (Function.update s.shared.jout j.tag (some r) j'.tag).isSome) ∨ s.shared.taken j' = true
    obtain hj' | hj' := List.mem_append.mp hj'
    · obtain ⟨hwhose, hsome⟩ | htaken := h.accepted j' hj'
      · by_cases htag : j'.tag = j.tag
        · have hne : j' ≠ j := fun heq => hnew (heq ▸ hj')
          have hor := h.taken_or (hi.posted_of_accepted hj') hposted hne htag
          exact .inr (hor.resolve_right (by simp [hnot]))
        · rw [Function.update_of_ne htag, Function.update_of_ne htag]
          exact .inl ⟨hwhose, hsome⟩
      · exact .inr htaken
    · obtain rfl := List.mem_singleton.mp hj'
      exact .inl ⟨Function.update_self .., by rw [Function.update_self]; rfl⟩
  · exact List.mem_append_left _ (h.taken j' hj')

/-- A step, whoever takes it. -/
theorem Results.step (hn : n ≤ 2 ^ 17 + 1) (hi : Inv n s) (h : Results n s) {e : Event}
    (hs : Step cfg s e s') : Results n s' := by
  cases hs with
  | main _ hm => exact h.mainStep hn hi hm
  | accept => exact h.congr rfl rfl rfl rfl rfl (h.phase.congr rfl rfl)
  | write _ _ hw =>
    obtain ⟨queue, jobs, sent, crashed, rfl⟩ := hw.frame
    exact h.congr rfl rfl rfl rfl rfl (h.phase.congr rfl rfl)
  | receive _ _ hr =>
    obtain ⟨unnamed, rfl⟩ := hr.frame
    exact h.congr rfl rfl rfl rfl rfl (h.phase.congr rfl rfl)
  | judge _ hc hj =>
    have hmem := List.mem_of_getElem? hc
    cases hj with
    | acceptJob i body owed r hr =>
      obtain ⟨j, rfl, rfl⟩ := (hi.conns _ hmem).job i body owed hr
      exact h.acceptJob hi hmem (by simp [Conn.jobs, hr, Reader.jobs]) r
    | _ => exact h.congr rfl rfl rfl rfl rfl (h.phase.congr rfl rfl)

/-- And so along a run. -/
theorem results_of_run {segments : List Bytes} (hn : segments.length ≤ 2 ^ 17 + 1)
    {trace : List (State R S × Event × State R S)} (h : ServeRun cfg segments trace s)
    (hin : ∀ t ∈ trace, t.2.1.InOrder t.1) : Results segments.length s := by
  induction h with
  | nil h => exact results_start h
  | @snoc trace s s' e hrun hs ih =>
    have hin' : ∀ t ∈ trace, t.2.1.InOrder t.1 := fun t ht => hin t (List.mem_append_left _ ht)
    exact (ih hin').step hn (inv_of_run (hn.trans (by decide)) hrun hin').1 hs

end Runs

end Hazync.SegServe
