import Hazync.Coordinator.Sponsors

/-!
# What a step can do to a sponsorship

A row is put in by a request and taken out only while it is one. In between a step moves it by what
`RowMove` says: it is given its invoice, it is asked about, it is being proven, or its hold ends. The
poller is the only one to change a row that it may ask about, so what it has read of a row is what
the row still is.

## One theorem about steps

A desk has seventeen kinds of steps, and each of the results about sponsorships asks what they do to
one row: whether it comes to hold its blocks, whether it comes to be funded, whether it may be taken
out. `DeskStep.rows` answers once for all of them. The rows after a step are those that it keeps,
each moved, with at most a new one behind them, and a move is one of six. What follows in other
modules is by cases of the move.

The theorem needs `Kept`, for the source updates by id and by the status that was read. That the row
which is updated is the row which was read comes of two facts: ids are given out once, and between
the poll's `SELECT` and its `UPDATE` nobody but the poll changes a row that polls ask about.

`_sponsor_mark_proven` walks over the ranges in order and stops at the first gap. That it passes the
end of the span just where every block of it is covered (`walked_iff`) needs that the ranges are
sorted, which the `ORDER BY` sees to.
-/

namespace Hazync
namespace Coordinator

open KeyedTable

variable {scfg : SponsorConfig} {cfg : Config} {out : Outside} {d d' : Desk} {a : DeskAct}
  {x x' r : SponsorRow} {ans : Answer} {lo hi : ℕ} {now : Time}

/-- A row that polls ask about. -/
def Polled (r : SponsorRow) : Prop :=
  r.status = .invoiced ∨ r.status = .expired ∨ r.status = .underpaid

/-- The row that an answer leaves, if it was as it was read. -/
def SponsorRow.answered (scfg : SponsorConfig) (now : Time) (r : SponsorRow) (a : Answer) :
    SponsorRow :=
  r.answer (verdict scfg now r a) r.status now a

/-- The row at the end of its hold. -/
def SponsorRow.proved (r : SponsorRow) (now : Time) : SponsorRow :=
  { r with status := .proven, provenAt := some now }

/-- How a step moves a row. -/
inductive RowMove (scfg : SponsorConfig) (d : Desk) (a : DeskAct) (d' : Desk) (x : SponsorRow) :
    SponsorRow → Prop
  | same (ha : ∀ ans, a = .ask x (some ans) → ans.marked = true) : RowMove scfg d a d' x x
  | invoiced (h : x.status = .requested) {invoice : String} {expires : Time}
      (ha : a = .invoice invoice expires) {lo hi minSats : ℕ}
      (hrequest : d.request = some ⟨lo, hi, minSats, .recorded x.id⟩) :
      RowMove scfg d a d' x (x.invoiced scfg invoice expires)
  | proving (h : x.status = .paid) : RowMove scfg d a d' x { x with status := .proving }
  | proved (h : x.holds = true) (hcovered : d'.spanCovered x) (now : Time) :
      RowMove scfg d a d' x (x.proved now)
  | asked {ans : Answer} (ha : a = .ask x (some ans)) (hmarked : ans.marked = false)
      (hwatched : x.watched d.polledAt = true)
      (hopen : x.credited ans → (x.answered scfg d.polledAt ans).holds = true → x.lo ≤ x.hi →
        ¬ d'.spanCovered x) :
      RowMove scfg d a d' x (x.answered scfg d.polledAt ans)
  | credited {ans : Answer} (ha : a = .ask x (some ans)) (hmarked : ans.marked = false)
      (hwatched : x.watched d.polledAt = true) (hcredited : x.credited ans)
      (hcovered : d'.spanCovered x) (now : Time) :
      RowMove scfg d a d' x ((x.answered scfg d.polledAt ans).proved now)

/-- An answer makes a row paid just where it credits it, if it is not paid already. -/
theorem verdict_paid (scfg : SponsorConfig) (now : Time) (ans : Answer) (hx : x.status ≠ .paid) :
    (verdict scfg now x ans).1 = .paid ↔ x.credited ans := by
  rw [verdict]
  split
  · rename_i h
    exact ⟨fun _ => h, fun _ => rfl⟩
  · rename_i h
    refine ⟨fun hpaid => absurd hpaid ?_, fun hc => absurd hc h⟩
    split
    · exact hx
    · split
      · dsimp only
        split
        · exact SponsorStatus.noConfusion
        · split
          · exact SponsorStatus.noConfusion
          · exact hx
      · exact hx

theorem watched_polled (h : x.watched now = true) : Polled x := by
  rw [SponsorRow.watched, decide_eq_true_iff] at h
  exact h.1

theorem not_polled {s : SponsorStatus} (h : x.status = s)
    (hs : s ≠ .invoiced ∧ s ≠ .expired ∧ s ≠ .underpaid) : ¬ Polled x := by
  rintro (hx | hx | hx)
  · exact hs.1 (h.symm.trans hx)
  · exact hs.2.1 (h.symm.trans hx)
  · exact hs.2.2 (h.symm.trans hx)

/-- A row that polls ask about is not paid. -/
theorem Polled.ne_paid (h : Polled x) : x.status ≠ .paid :=
  fun hpaid => not_polled hpaid (by decide) h

theorem Polled.ne_requested (h : Polled x) : x.status ≠ .requested :=
  fun hrequested => not_polled hrequested (by decide) h

/-- An answer leaves a row its id, its span and its minimum. -/
theorem answered_id : (x.answered scfg now ans).id = x.id ∧ (x.answered scfg now ans).lo = x.lo ∧
    (x.answered scfg now ans).hi = x.hi ∧ (x.answered scfg now ans).minSats = x.minSats := by
  rw [SponsorRow.answered, SponsorRow.answer]
  split
  · exact ⟨rfl, rfl, rfl, rfl⟩
  · split
    · exact ⟨rfl, rfl, rfl, rfl⟩
    · exact ⟨rfl, rfl, rfl, rfl⟩

/-- A row keeps its id, its span and its minimum. -/
theorem RowMove.span (h : RowMove scfg d a d' x x') :
    x'.id = x.id ∧ x'.lo = x.lo ∧ x'.hi = x.hi ∧ x'.minSats = x.minSats := by
  cases h with
  | asked => exact answered_id
  | credited => exact @answered_id scfg x _ _
  | _ => exact ⟨rfl, rfl, rfl, rfl⟩

/-- What is so between the steps: no span is empty, ids are unique, the row of a request under way is
    as the request put it in, and what a poll has read is still so. -/
structure Kept (d : Desk) : Prop where
  spans : ∀ x ∈ d.rows, x.lo ≤ x.hi
  request : ∀ q ∈ d.request, q.lo ≤ q.hi
  ids : (d.rows.map fun x => x.id).Nodup
  /-- An id is given out once, also when its row has been withdrawn. -/
  below : ∀ x ∈ d.rows, x.id < d.nextId
  /-- Between its row and its invoice a request has the row to itself. -/
  recorded : ∀ lo hi minSats id, d.request = some ⟨lo, hi, minSats, .recorded id⟩ →
    id < d.nextId ∧ ∀ x ∈ d.rows, x.id = id → x = requestedRow id lo hi minSats
  /-- What the poll goes through is as it was read, since only the poll moves such rows. -/
  todo : ∀ r ∈ d.todo, r ∈ d.rows ∧ r.watched d.polledAt = true
  /-- Each sponsorship is asked about once in a poll. -/
  todo_ids : (d.todo.map fun x => x.id).Nodup

theorem Kept.unique (hd : Kept d) (hx : x ∈ d.rows) (hr : r ∈ d.rows) (hid : x.id = r.id) : x = r :=
  List.inj_on_of_nodup_map hd.ids hx hr hid

/-! ## The end of a hold -/

/-- The walk passes the end where no block from the needed one on is open. -/
theorem walk_iff {vs : List VRow} (hsorted : vs.Pairwise fun v w => v.lo ≤ w.lo) {need : ℕ} :
    hi < walk hi need vs ↔ ∀ n, need ≤ n → n ≤ hi → ∃ v ∈ vs, v.lo ≤ n ∧ n ≤ v.hi := by
  induction vs generalizing need with
  | nil =>
    refine ⟨fun h n hneed hn => absurd (h.trans_le hneed) hn.not_gt, fun h => ?_⟩
    by_contra hle
    obtain ⟨v, hv, -⟩ := h need (le_refl _) (not_lt.mp hle)
    cases hv
  | cons v vs ih =>
    obtain ⟨hfirst, hrest⟩ := List.pairwise_cons.mp hsorted
    rw [walk]
    split
    · -- no range covers the block that is needed
      rename_i hgap
      refine ⟨fun h n hneed hn => absurd (h.trans_le hneed) hn.not_gt, fun h => ?_⟩
      by_contra hle
      obtain ⟨w, hw, hlo, -⟩ := h need (le_refl _) (not_lt.mp hle)
      obtain rfl | hw := List.mem_cons.mp hw
      · exact absurd hgap hlo.not_gt
      · exact absurd (hgap.trans_le (hfirst w hw)) hlo.not_gt
    · rename_i hreach
      have hcover (n : ℕ) (hneed : need ≤ n) (hn : n ≤ v.hi) : ∃ w ∈ v :: vs, w.lo ≤ n ∧ n ≤ w.hi :=
        ⟨v, List.mem_cons_self, (not_lt.mp hreach).trans hneed, hn⟩
      split
      · rename_i hpast
        refine ⟨fun _ n hneed hn => hcover n hneed ?_, fun _ => hpast⟩
        obtain h | h := lt_max_iff.mp hpast
        · exact absurd (h.trans_le hneed) hn.not_gt
        · exact hn.trans (Nat.lt_succ_iff.mp h)
      · rw [ih hrest]
        refine ⟨fun h n hneed hn => ?_, fun h n hneed hn => ?_⟩
        · obtain hv | hv := Nat.lt_or_ge v.hi n
          · obtain ⟨w, hw, hspan⟩ := h n (max_le hneed hv) hn
            exact ⟨w, List.mem_cons_of_mem _ hw, hspan⟩
          · exact hcover n hneed hv
        · obtain ⟨hneed, hv⟩ := max_le_iff.mp hneed
          obtain ⟨w, hw, hspan⟩ := h n hneed hn
          obtain rfl | hw := List.mem_cons.mp hw
          · exact absurd hspan.2 (Nat.lt_of_succ_le hv).not_ge
          · exact ⟨w, hw, hspan⟩

/-- A span is covered where each of its blocks is. -/
theorem spanCovered_iff : d.spanCovered x ↔ ∀ n, x.lo ≤ n → n ≤ x.hi → d.db.covered n := by
  refine ⟨fun h n hlo hhi => h n (List.mem_range'_1.mpr ⟨hlo, ?_⟩), fun h n hn => ?_⟩
  · omega
  · obtain ⟨hlo, hhi⟩ := List.mem_range'_1.mp hn
    exact h n hlo (by omega)

/-- **The walk finds the span covered if and only if each of its blocks is.** -/
theorem walked_iff : d.walked x ↔ d.spanCovered x := by
  rw [Desk.walked, walk_iff (List.pairwise_insertionSort _ _), spanCovered_iff]
  refine forall_congr' fun n => imp_congr_right fun hlo => imp_congr_right fun hhi => ?_
  simp only [List.mem_insertionSort, List.mem_filter, decide_eq_true_iff]
  refine ⟨fun ⟨v, hv, hspan⟩ => ⟨v, hv.1, hspan⟩, fun ⟨v, hv, hspan⟩ => ?_⟩
  exact ⟨v, ⟨hv, hspan.1.trans hhi, hlo.trans hspan.2⟩, hspan⟩

/-- What the end of holds does to a row: nothing, or, where the row holds blocks and its span is
    covered, it becomes proven. -/
theorem mark_cases (d : Desk) (lo hi : ℕ) (now : Time) (x : SponsorRow) :
    d.mark lo hi now x = x ∧ ¬ (x.holds = true ∧ Overlap x.lo x.hi lo hi ∧ d.spanCovered x) ∨
      x.holds = true ∧ Overlap x.lo x.hi lo hi ∧ d.spanCovered x ∧
      d.mark lo hi now x = x.proved now := by
  rw [Desk.mark, ← walked_iff]
  split
  · rename_i h
    exact .inr ⟨h.1, h.2.1, h.2.2, rfl⟩
  · rename_i h
    exact .inl ⟨rfl, h⟩

/-- What a poll writes of a row that is as it was read, before holds end. -/
theorem setRow_eq (hd : Kept d) (hr : r ∈ d.rows) (f : SponsorRow → SponsorRow) :
    (d.setRow r f).rows = d.rows.map fun x => if x = r then f r else x := by
  rw [Desk.setRow]
  refine List.map_congr_left fun x hx => ?_
  by_cases hid : x.id = r.id
  · obtain rfl := hd.unique hx hr hid
    rw [if_pos ⟨rfl, rfl⟩, if_pos rfl]
  · have hne : x ≠ r := fun h => hid (congrArg (fun x => x.id) h)
    rw [if_neg fun h => hid h.1, if_neg hne]

/-- The rows after a poll has asked about one, which was as it was read. -/
theorem pollRow_rows (scfg : SponsorConfig) (now : Time) (ans : Answer) (hd : Kept d)
    (hr : r ∈ d.rows) (hstatus : r.status ≠ .paid) :
    (d.pollRow scfg r now ans).rows = d.rows.map fun x =>
      if r.credited ans then d.mark r.lo r.hi now (if x = r then r.answered scfg now ans else x)
      else if x = r then r.answered scfg now ans else x := by
  have hset := setRow_eq hd hr (SponsorRow.answer (verdict scfg now r ans) r.status now ans)
  have hpaid := verdict_paid scfg now ans hstatus
  rw [Desk.pollRow]
  by_cases hcredited : r.credited ans
  · simp only [if_pos hcredited]
    rw [if_pos ⟨hpaid.mpr hcredited, r, hr, rfl, rfl⟩, Desk.markProven]
    dsimp only
    rw [hset, List.map_map]
    rfl
  · simp only [if_neg hcredited]
    rw [if_neg fun h => hcredited (hpaid.mp h.1)]
    exact hset

/-- The rows after a step: those it keeps, moved, and a new one, if it is a request. -/
structure RowsMoved (scfg : SponsorConfig) (d : Desk) (a : DeskAct) (d' : Desk)
    (keep : SponsorRow → Bool) (f : SponsorRow → SponsorRow) (new : List SponsorRow) : Prop where
  split : d'.rows = (d.rows.filter keep).map f ++ new
  /-- Each old row goes one of the ways there are. -/
  moves : ∀ x ∈ d.rows, RowMove scfg d a d' x (f x)
  /-- Only a row that never had its invoice is taken out. -/
  dropped : ∀ x ∈ d.rows, keep x = false → x.status = .requested
  /-- And one that comes in has the next id. -/
  new : new = [] ∧ d'.nextId = d.nextId ∨
    ∃ lo hi minSats, lo ≤ hi ∧ new = [requestedRow d.nextId lo hi minSats] ∧
      d'.nextId = d.nextId + 1

theorem rowsMoved_map {f : SponsorRow → SponsorRow} (hrows : d'.rows = d.rows.map f)
    (hnext : d'.nextId = d.nextId) (h : ∀ x ∈ d.rows, RowMove scfg d a d' x (f x)) :
    RowsMoved scfg d a d' (fun _ => true) f [] where
  split := by rw [hrows, List.filter_true, List.append_nil]
  moves := h
  dropped x _ hx := by cases hx
  new := .inl ⟨rfl, hnext⟩

theorem rowsMoved_same (ha : ∀ r ans, a = .ask r (some ans) → ans.marked = true)
    (hrows : d'.rows = d.rows) (hnext : d'.nextId = d.nextId) :
    RowsMoved scfg d a d' (fun _ => true) id [] :=
  rowsMoved_map (by rw [hrows, List.map_id]) hnext fun x _ => .same (ha x)

/-- A step that ends holds moves each row by one of the moves. -/
theorem rowsMoved_mark (ha : ∀ r ans, a = .ask r (some ans) → ans.marked = true)
    (hrows : d'.rows = d.rows.map (d'.mark lo hi now))
    (hnext : d'.nextId = d.nextId) :
    RowsMoved scfg d a d' (fun _ => true) (d'.mark lo hi now) [] := by
  refine rowsMoved_map hrows hnext fun x _ => ?_
  obtain ⟨heq, -⟩ | ⟨hholds, -, hcovered, heq⟩ := mark_cases d' lo hi now x
  · rw [heq]
    exact .same (ha x)
  · rw [heq]
    exact .proved hholds hcovered now

theorem rowsMoved_record {lo hi minSats : ℕ} (ha : ∀ r ans, a = .ask r (some ans) → ans.marked = true)
    (hle : lo ≤ hi) (hrows : d'.rows = d.rows ++ [requestedRow d.nextId lo hi minSats])
    (hnext : d'.nextId = d.nextId + 1) :
    RowsMoved scfg d a d' (fun _ => true) id [requestedRow d.nextId lo hi minSats] where
  split := by rw [hrows, List.filter_true, List.map_id]
  moves x _ := .same (ha x)
  dropped x _ hx := by cases hx
  new := .inr ⟨lo, hi, minSats, hle, rfl, hnext⟩

theorem rowsMoved_filter {keep : SponsorRow → Bool}
    (ha : ∀ r ans, a = .ask r (some ans) → ans.marked = true) (hrows : d'.rows = d.rows.filter keep)
    (hnext : d'.nextId = d.nextId) (h : ∀ x ∈ d.rows, keep x = false → x.status = .requested) :
    RowsMoved scfg d a d' keep id [] where
  split := by rw [hrows, List.map_id, List.append_nil]
  moves x _ := .same (ha x)
  dropped := h
  new := .inl ⟨rfl, hnext⟩

theorem spanCovered_of (hvranges : d'.vranges = d.vranges) (hlo : x'.lo = x.lo) (hhi : x'.hi = x.hi)
    (h : d.spanCovered x') : d'.spanCovered x := by
  intro n hn
  rw [← hlo, ← hhi] at hn
  obtain ⟨v, hv, hspan⟩ := h n hn
  exact ⟨v, (hvranges ▸ hv : v ∈ d'.vranges), hspan⟩

/-- Asking about a row changes the sponsorships and the payments only. -/
theorem ask_frame (d : Desk) (r : SponsorRow) (answer : Option Answer) : d.ask scfg r answer =
    { d with rows := (d.ask scfg r answer).rows, payments := (d.ask scfg r answer).payments } := by
  cases answer with
  | none => rfl
  | some ans =>
    rw [Desk.ask]
    split
    · rfl
    · rw [Desk.pollRow]
      dsimp only
      split
      · rfl
      · rfl

/-- **What a poll does to the rows**: the one that it asks about is answered, and if that pays it
    the holds that are over end. -/
theorem pollRow_moves (hmarked : ans.marked = false) (hwatched : r.watched d.polledAt = true)
    (hvranges : d'.vranges = d.vranges) :
    RowMove scfg d (.ask r (some ans)) d' x
      (if r.credited ans then
        d.mark r.lo r.hi d.polledAt (if x = r then r.answered scfg d.polledAt ans else x)
      else if x = r then r.answered scfg d.polledAt ans else x) := by
  by_cases hcredited : r.credited ans
  · rw [if_pos hcredited]
    by_cases hx : x = r
    · subst hx
      rw [if_pos rfl]
      obtain ⟨heq, hopen⟩ | ⟨-, -, hcovered, heq⟩ :=
        mark_cases d x.lo x.hi d.polledAt (x.answered scfg d.polledAt ans)
      · rw [heq]
        refine .asked rfl hmarked hwatched fun _ hholds hle hcovered => hopen ⟨hholds, ?_, ?_⟩
        · rw [answered_id.2.1, answered_id.2.2.1]
          exact ⟨hle, hle⟩
        · exact spanCovered_of hvranges.symm answered_id.2.1.symm answered_id.2.2.1.symm hcovered
      · rw [heq]
        exact .credited rfl hmarked hwatched hcredited
          (spanCovered_of hvranges answered_id.2.1 answered_id.2.2.1 hcovered) _
    · rw [if_neg hx]
      have hother (ans' : Answer) (h : DeskAct.ask r (some ans) = .ask x (some ans')) :
          ans'.marked = true := absurd (by injection h with h; exact h.symm) hx
      obtain ⟨heq, -⟩ | ⟨hholds, -, hcovered, heq⟩ := mark_cases d r.lo r.hi d.polledAt x
      · rw [heq]
        exact .same hother
      · rw [heq]
        exact .proved hholds (spanCovered_of hvranges rfl rfl hcovered) _
  · rw [if_neg hcredited]
    by_cases hx : x = r
    · subst hx
      rw [if_pos rfl]
      exact .asked rfl hmarked hwatched fun h => absurd h hcredited
    · rw [if_neg hx]
      exact .same fun ans' h => absurd (by injection h with h; exact h.symm) hx

/-- **What a step does to the sponsorships.** -/
theorem DeskStep.rows (h : DeskStep scfg cfg out d a d') (hd : Kept d) :
    ∃ keep f new, RowsMoved scfg d a d' keep f new := by
  have hno {b : DeskAct} (hb : ∀ r ans, b ≠ .ask r (some ans)) (r : SponsorRow) (ans : Answer)
      (h : b = .ask r (some ans)) : ans.marked = true := absurd h (hb r ans)
  cases h with
  | commit h now => exact ⟨_, _, _, rowsMoved_mark (hno fun _ _ => DeskAct.noConfusion) rfl rfl⟩
  | @ask r rest htodo answer =>
    obtain ⟨hr, hwatched⟩ := hd.todo r (htodo ▸ List.mem_cons_self)
    -- without an answer, and for a marked one, the rows stay
    cases answer with
    | none => exact ⟨_, _, _, rowsMoved_same (fun _ _ h => by injection h; contradiction) rfl rfl⟩
    | some ans =>
      cases hmarked : ans.marked with
      | true =>
        have hask : d.ask scfg r (some ans) = d := if_pos hmarked
        rw [hask]
        refine ⟨_, _, _, rowsMoved_same (fun r' ans' h => ?_) rfl rfl⟩
        injection h with _ h
        exact Option.some.inj h ▸ hmarked
      | false =>
        have hask : d.ask scfg r (some ans) = d.pollRow scfg r d.polledAt ans :=
          if_neg (hmarked ▸ Bool.false_ne_true)
        have hrows := pollRow_rows scfg d.polledAt ans hd hr
          (watched_polled hwatched).ne_paid
        rw [ask_frame, hask]
        exact ⟨_, _, _, rowsMoved_map hrows rfl fun x hx => pollRow_moves hmarked hwatched rfl⟩
  | record hnow hrequest hcap =>
    exact ⟨_, _, _, rowsMoved_record (hno fun _ _ => DeskAct.noConfusion)
      (hd.request _ hrequest) rfl rfl⟩
  | @invoice lo hi minSats id hrequest invoice expires =>
    refine ⟨_, _, _, rowsMoved_map rfl rfl fun x hx => ?_⟩
    split
    · rename_i hid
      refine .invoiced ?_ rfl (hid ▸ hrequest)
      rw [(hd.recorded lo hi minSats id hrequest).2 x hx hid]
      rfl
    · exact .same (hno (fun _ _ => DeskAct.noConfusion) x)
  -- only the row of the request itself is dropped, and only unpaid
  | @withdraw lo hi minSats sid hrequest =>
    refine ⟨_, _, _, rowsMoved_filter (hno fun _ _ => DeskAct.noConfusion) rfl rfl fun x hx hkeep => ?_⟩
    rw [decide_eq_false_iff_not, not_not] at hkeep
    exact hkeep.2
  | pledge minSats hlo hle =>
    exact ⟨_, _, _, rowsMoved_record (hno fun _ _ => DeskAct.noConfusion) hle rfl rfl⟩
  | proving sid =>
    refine ⟨_, _, _, rowsMoved_map rfl rfl fun x hx => ?_⟩
    split
    · rename_i hpaid
      exact .proving hpaid.2.1
    · exact .same (hno (fun _ _ => DeskAct.noConfusion) x)
  | reconcile hlock now => exact ⟨_, _, _, rowsMoved_mark (hno fun _ _ => DeskAct.noConfusion) rfl rfl⟩
  | _ => exact ⟨_, _, _, rowsMoved_same (hno fun _ _ => DeskAct.noConfusion) rfl rfl⟩

/-! ## What is kept -/

theorem RowsMoved.mem {keep : SponsorRow → Bool} {f : SponsorRow → SponsorRow} {new : List SponsorRow}
    (h : RowsMoved scfg d a d' keep f new) (hx : x ∈ d'.rows) :
    (∃ y ∈ d.rows, keep y = true ∧ x = f y) ∨ x ∈ new := by
  rw [h.split, List.mem_append, List.mem_map] at hx
  obtain ⟨y, hy, rfl⟩ | hx := hx
  · exact .inl ⟨y, List.mem_of_mem_filter hy, (List.mem_filter.mp hy).2, rfl⟩
  · exact .inr hx

theorem RowsMoved.ids {keep : SponsorRow → Bool} {f : SponsorRow → SponsorRow}
    {new : List SponsorRow} (h : RowsMoved scfg d a d' keep f new) :
    d'.rows.map (fun x => x.id) = (d.rows.filter keep).map (fun x => x.id) ++ new.map fun x => x.id := by
  rw [h.split, List.map_append, List.map_map]
  congr 1
  refine List.map_congr_left fun x hx => ?_
  exact (h.moves x (List.mem_of_mem_filter hx)).span.1

/-- Ids stay unique and below the next one. -/
theorem RowsMoved.kept_ids {keep : SponsorRow → Bool} {f : SponsorRow → SponsorRow}
    {new : List SponsorRow} (h : RowsMoved scfg d a d' keep f new) (hd : Kept d) :
    (d'.rows.map fun x => x.id).Nodup ∧ ∀ x ∈ d'.rows, x.id < d'.nextId := by
  have hold : ((d.rows.filter keep).map fun x => x.id).Nodup :=
    hd.ids.sublist (List.filter_sublist.map _)
  have hlt : ∀ x ∈ d.rows, (f x).id < d.nextId := fun x hx => by
    rw [(h.moves x hx).span.1]
    exact hd.below x hx
  rw [h.ids]
  obtain ⟨rfl, hnext⟩ | ⟨lo, hi, minSats, -, rfl, hnext⟩ := h.new
  · rw [List.map_nil, List.append_nil]
    refine ⟨hold, fun x hx => ?_⟩
    obtain ⟨y, hy, -, rfl⟩ | hx := h.mem hx
    · exact hnext ▸ hlt y hy
    · cases hx
  · refine ⟨List.nodup_append'.mpr ⟨hold, List.nodup_singleton _, ?_⟩, fun x hx => ?_⟩
    · intro id hid hnew
      obtain ⟨x, hx, rfl⟩ := List.mem_map.mp hid
      have := hd.below x (List.mem_of_mem_filter hx)
      rw [List.map_singleton, List.mem_singleton] at hnew
      exact absurd hnew this.ne
    · rw [hnext]
      obtain ⟨y, hy, -, rfl⟩ | hx := h.mem hx
      · exact Nat.lt_succ_of_lt (hlt y hy)
      · rw [List.mem_singleton.mp hx]
        exact Nat.lt_succ_self _

/-- No span becomes empty. -/
theorem RowsMoved.spans {keep : SponsorRow → Bool} {f : SponsorRow → SponsorRow}
    {new : List SponsorRow} (h : RowsMoved scfg d a d' keep f new) (hd : Kept d) :
    ∀ x ∈ d'.rows, x.lo ≤ x.hi := by
  intro x hx
  obtain ⟨y, hy, -, rfl⟩ | hx := h.mem hx
  · obtain ⟨-, hlo, hhi, -⟩ := (h.moves y hy).span
    rw [hlo, hhi]
    exact hd.spans y hy
  · obtain ⟨rfl, -⟩ | ⟨lo, hi, minSats, hle, rfl, -⟩ := h.new
    · cases hx
    · rw [List.mem_singleton.mp hx]
      exact hle

/-- A row that holds its blocks is paid or is being proven. -/
theorem holds_status (h : x.holds = true) : x.status = .paid ∨ x.status = .proving := by
  rw [Sponsorship.holds, decide_eq_true_iff] at h
  exact h.1

/-- A row that polls ask about stays as it is, unless it is asked about. -/
theorem RowMove.polled (h : RowMove scfg d a d' x x') (hx : Polled x)
    (ha : ∀ ans, a ≠ .ask x (some ans)) : x' = x := by
  cases h with
  | same => rfl
  | invoiced h => exact absurd hx (not_polled h (by decide))
  | proving h => exact absurd h hx.ne_paid
  | proved h =>
    obtain h | h := holds_status h
    · exact absurd h hx.ne_paid
    · exact absurd hx (not_polled h (by decide))
  | asked h => exact absurd h (ha _)
  | credited h => exact absurd h (ha _)

/-- A row that was requested stays so until it is given its invoice. -/
theorem RowMove.requested (h : RowMove scfg d a d' x x') (hx : x.status = .requested)
    (ha : ∀ invoice expires, a ≠ .invoice invoice expires) : x' = x := by
  cases h with
  | same => rfl
  | invoiced _ h => exact absurd h (ha _ _)
  | proving h => exact absurd (hx.symm.trans h) (by decide)
  | proved h =>
    obtain h | h := holds_status h
    · exact absurd (hx.symm.trans h) (by decide)
    · exact absurd (hx.symm.trans h) (by decide)
  | asked _ _ h => exact absurd hx (watched_polled h).ne_requested
  | credited _ _ h => exact absurd hx (watched_polled h).ne_requested

theorem RowsMoved.mem_of {keep : SponsorRow → Bool} {f : SponsorRow → SponsorRow}
    {new : List SponsorRow} (h : RowsMoved scfg d a d' keep f new) (hx : x ∈ d.rows)
    (hstatus : x.status ≠ .requested) : f x ∈ d'.rows := by
  cases hkeep : keep x with
  | false => exact absurd (h.dropped x hx hkeep) hstatus
  | true =>
    rw [h.split]
    exact List.mem_append_left _ (List.mem_map_of_mem (List.mem_filter.mpr ⟨hx, hkeep⟩))

/-- What has been read of a row is still so, if the step does not ask about it. -/
theorem RowsMoved.still {keep : SponsorRow → Bool} {f : SponsorRow → SponsorRow}
    {new : List SponsorRow} (h : RowsMoved scfg d a d' keep f new) (hx : x ∈ d.rows)
    (hpolled : Polled x) (ha : ∀ ans, a ≠ .ask x (some ans)) : x ∈ d'.rows := by
  have hmem := h.mem_of hx hpolled.ne_requested
  rwa [(h.moves x hx).polled hpolled ha] at hmem

/-- The row that a request has put in stays as it was put in, until it is given its invoice. -/
theorem RowsMoved.recorded {keep : SponsorRow → Bool} {f : SponsorRow → SponsorRow}
    {new : List SponsorRow} (h : RowsMoved scfg d a d' keep f new)
    (ha : ∀ invoice expires, a ≠ .invoice invoice expires) {lo hi minSats id : ℕ}
    (hd : id < d.nextId ∧ ∀ x ∈ d.rows, x.id = id → x = requestedRow id lo hi minSats) :
    id < d'.nextId ∧ ∀ x ∈ d'.rows, x.id = id → x = requestedRow id lo hi minSats := by
  have hnext : d.nextId ≤ d'.nextId := by
    obtain ⟨-, hnext⟩ | ⟨_, _, _, -, -, hnext⟩ := h.new
    · exact hnext.ge
    · rw [hnext]
      exact Nat.le_succ _
  refine ⟨hd.1.trans_le hnext, fun x hx hid => ?_⟩
  obtain ⟨y, hy, -, rfl⟩ | hx := h.mem hx
  · have hmove := h.moves y hy
    have hrow := hd.2 y hy (hmove.span.1.symm.trans hid)
    rw [hmove.requested (hrow ▸ rfl) ha]
    exact hrow
  · obtain ⟨rfl, -⟩ | ⟨lo', hi', minSats', -, rfl, -⟩ := h.new
    · cases hx
    · rw [List.mem_singleton.mp hx] at hid
      exact absurd hid hd.1.ne'

/-- **What is kept.** -/
theorem Kept.step (hd : Kept d) (h : DeskStep scfg cfg out d a d') : Kept d' := by
  obtain ⟨keep, f, new, hmoved⟩ := h.rows hd
  obtain ⟨hids, hbelow⟩ := hmoved.kept_ids hd
  have hspans := hmoved.spans hd
  have htodo (ha : ∀ r ans, a ≠ .ask r ans) : ∀ r ∈ d.todo, r ∈ d'.rows := fun r hr => by
    obtain ⟨hmem, hwatched⟩ := hd.todo r hr
    exact hmoved.still hmem (watched_polled hwatched) fun ans => ha r (some ans)
  have hrecorded (ha : ∀ i e, a ≠ .invoice i e) (lo hi minSats id : ℕ)
      (hrequest : d.request = some ⟨lo, hi, minSats, .recorded id⟩) :=
    hmoved.recorded ha (hd.recorded lo hi minSats id hrequest)
  have hkept (ha : ∀ r ans, a ≠ .ask r ans) : ∀ r ∈ d.todo, r ∈ d'.rows ∧ r.watched d.polledAt = true :=
    fun r hr => ⟨htodo ha r hr, (hd.todo r hr).2⟩
  cases h with
  | read hnow hnone =>
    refine ⟨hspans, hd.request, hids, hbelow, hrecorded fun _ _ => DeskAct.noConfusion, fun r hr => ?_,
      hd.ids.sublist (List.filter_sublist.map _)⟩
    exact List.mem_filter.mp hr
  -- the row that was polled leaves the list, and the others are still there
  | @ask r rest hr answer =>
    rw [ask_frame] at hspans hids hbelow hmoved ⊢
    have hnodup := hd.todo_ids
    rw [hr, List.map_cons, List.nodup_cons] at hnodup
    refine ⟨hspans, hd.request, hids, hbelow, fun lo hi minSats id hrequest =>
      hmoved.recorded (fun _ _ => DeskAct.noConfusion) (hd.recorded lo hi minSats id hrequest),
      fun r' hr' => ?_, hnodup.2⟩
    obtain ⟨hmem, hwatched⟩ := hd.todo r' (hr ▸ List.mem_cons_of_mem _ hr')
    refine ⟨hmoved.still hmem (watched_polled hwatched) fun ans hask => ?_, hwatched⟩
    obtain rfl : r = r' := by injection hask
    exact hnodup.1 (List.mem_map_of_mem hr')
  | span _ _ _ _ hle =>
    exact ⟨hspans, fun q hq => by cases hq; exact hle, hids, hbelow, fun _ _ _ _ h => (by cases h),
      hkept fun _ _ => DeskAct.noConfusion, hd.todo_ids⟩
  | pending _ hrequest =>
    exact ⟨hspans, fun q hq => by cases hq; exact (hd.request _ hrequest :), hids, hbelow,
      fun _ _ _ _ h => (by cases h), hkept fun _ _ => DeskAct.noConfusion, hd.todo_ids⟩
  | invoice | withdraw =>
    exact ⟨hspans, fun _ h => (by cases h), hids, hbelow, fun _ _ _ _ h => (by cases h),
      hkept fun _ _ => DeskAct.noConfusion, hd.todo_ids⟩
  -- the new row has the next number, above all others
  | record hnow hrequest hcap =>
    refine ⟨hspans, fun q hq => by cases hq; exact (hd.request _ hrequest :), hids, hbelow,
      fun lo hi minSats id h => ?_, hkept fun _ _ => DeskAct.noConfusion, hd.todo_ids⟩
    cases h
    refine ⟨Nat.lt_succ_self _, fun x hx hid => ?_⟩
    obtain hx | hx := List.mem_append.mp hx
    · exact absurd hid (hd.below x hx).ne
    · exact List.mem_singleton.mp hx
  | fault =>
    exact ⟨hspans, fun _ h => (by cases h), hids, hbelow, fun _ _ _ _ h => (by cases h),
      fun r hr => absurd hr List.not_mem_nil, List.nodup_nil⟩
  | _ =>
    exact ⟨hspans, hd.request, hids, hbelow, hrecorded fun _ _ => DeskAct.noConfusion,
      hkept fun _ _ => DeskAct.noConfusion, hd.todo_ids⟩

/-- At an empty desk there is nothing to keep. -/
theorem kept_empty (h : d.Empty) : Kept d := by
  obtain ⟨-, hrows, -, -, htodo, hrequest, -⟩ := h
  refine ⟨?_, ?_, ?_, ?_, ?_, ?_, ?_⟩
  · rw [hrows]
    exact fun x hx => absurd hx List.not_mem_nil
  · rw [hrequest]
    exact fun _ h => by cases h
  · rw [hrows]
    exact List.nodup_nil
  · rw [hrows]
    exact fun x hx => absurd hx List.not_mem_nil
  · rw [hrequest]
    exact fun _ _ _ _ h => by cases h
  · rw [htodo]
    exact fun r hr => absurd hr List.not_mem_nil
  · rw [htodo]
    exact List.nodup_nil

end Coordinator
end Hazync
