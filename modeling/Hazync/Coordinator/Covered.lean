import Hazync.Coordinator.PeerSync

/-!
# What is covered has a proof of its own (`_tiled_by_verified`, `submit`)

A range of several blocks is accepted only where verified ranges tile it, so only single blocks
cover what nothing covered before. The tiling is checked under one hold of the lock and the range
recorded under another; what makes that sound is that the interval of a verified range never leaves
the board, since a row is only replaced by one of the same id and so of the same interval.

`sync_from_peers` has no such check. The law holds in the runs where what it adopts passes it.

## The condition, and where it is met

`Folds` is a condition on what a pass adopts; on a submit there is none, as the code makes the check
itself. A pass is under the same law if its entry passes the check that a submit would have to pass:
its own id, and tiled where it is wide. A coordinator that adopts single blocks only is an instance.

The invariant has more than the law. A submit reads the row of its id and commits under the interval
of that row, so the rows have to denote what their ids say; and it was checked earlier, so what
tiled its range must still tile it.
-/

namespace Hazync
namespace Coordinator

open ByteStrings KeyedTable

variable {cfg : Config} {out : Outside} {s s' : State} {e : Event}

/-! ## The tiling test -/

/-- Every block of `[lo..hi]` is in a row that lies inside it. -/
def Tiled (vranges : List VRow) (lo hi : ℕ) : Prop :=
  ∀ n, lo ≤ n → n ≤ hi → ∃ v ∈ vranges, (lo ≤ v.lo ∧ v.hi ≤ hi) ∧ v.lo ≤ n ∧ n ≤ v.hi

theorem nextReach_eq_none {rows : List VRow} {next : ℕ} (h : nextReach rows next = none) :
    ∀ r ∈ rows, ¬ (r.lo ≤ next ∧ next ≤ r.hi) := by
  intro r hr hnext
  rw [nextReach, List.max?_eq_none_iff, List.map_eq_nil_iff, List.filter_eq_nil_iff] at h
  exact h r hr (decide_eq_true hnext)

theorem nextReach_eq_some {rows : List VRow} {next reach : ℕ}
    (h : nextReach rows next = some reach) : ∃ r ∈ rows, (r.lo ≤ next ∧ next ≤ r.hi) ∧ r.hi = reach := by
  obtain ⟨r, hr, hreach⟩ := List.mem_map.mp (List.max?_mem h)
  obtain ⟨hr, hnext⟩ := List.mem_filter.mp hr
  exact ⟨r, hr, of_decide_eq_true hnext, hreach⟩

/-- The loop finds out whether all from `next` on is in some row: it takes the longest reach, and
    goes on behind it. The fuel is enough, as each round gets at least one block further. -/
theorem tiledFrom_iff {rows : List VRow} {hi fuel next : ℕ} (hfuel : hi < next + fuel) :
    tiledFrom rows hi fuel next = true ↔
      ∀ n, next ≤ n → n ≤ hi → ∃ r ∈ rows, r.lo ≤ n ∧ n ≤ r.hi := by
  induction fuel generalizing next with
  | zero =>
    rw [tiledFrom, decide_eq_true_iff]
    exact ⟨fun h n hn hhi => absurd (hn.trans hhi) (not_le.mpr h), fun _ => hfuel⟩
  | succ fuel ih =>
    rw [tiledFrom]
    by_cases hdone : hi < next
    · rw [if_pos hdone]
      exact ⟨fun _ n hn hhi => absurd (hn.trans hhi) (not_le.mpr hdone), fun _ => rfl⟩
    · rw [if_neg hdone]
      have hnext : next ≤ hi := not_lt.mp hdone
      cases hreach : nextReach rows next with
      | none =>
        refine ⟨fun h => absurd h Bool.false_ne_true, fun h => ?_⟩
        obtain ⟨r, hr, hrnext⟩ := h next (le_refl _) hnext
        exact absurd hrnext (nextReach_eq_none hreach r hr)
      | some reach =>
        obtain ⟨r, hr, ⟨hlo, hrnext⟩, rfl⟩ := nextReach_eq_some hreach
        dsimp only
        rw [ih (by omega)]
        constructor
        · intro h n hn hhi
          by_cases hle : n ≤ r.hi
          · exact ⟨r, hr, hlo.trans hn, hle⟩
          · exact h n (not_le.mp hle) hhi
        · intro h n hn hhi
          exact h n (hrnext.trans (Nat.le_of_lt hn)) hhi

theorem tiledByVerified_iff {vranges : List VRow} {lo hi : ℕ} :
    tiledByVerified vranges lo hi = true ↔ Tiled vranges lo hi := by
  rw [tiledByVerified, tiledFrom_iff (by omega), Tiled]
  simp only [List.mem_filter, decide_eq_true_eq, and_assoc]

/-! ## The invariant -/

/-- What a pass adopts is under its own id, and of several blocks only where ranges tile it. The id
    matters too: rows are written with `INSERT OR REPLACE`, so that a range under the id of another
    takes the row of that one away, and with it perhaps the proof of its own that a covered block
    had. (Not every other id does such harm; the condition is on what an entry says of itself.) -/
def Folds (s : State) : Event → Prop
  | .adopt _ v _ lo hi _ => v.rid = canonicalRangeId lo hi ∧ (lo = 0 → hi = 0) ∧
      (lo < hi → Tiled s.db.vranges lo hi)
  | _ => True

/-- A submit under way is for the range that its id denotes, its row is of that range, and a wide
    range is tiled. -/
structure Sound (vranges : List VRow) (sub : Submission) (lo hi : ℕ) : Prop where
  /-- The id is canonical: `submit` refuses the others. -/
  rid : sub.rid = canonicalRangeId lo hi
  le : lo ≤ hi
  /-- Block 0 is not proven. -/
  pos : lo ≠ 0
  /-- A range of several blocks was tiled when it was checked, and still is. -/
  tiled : lo < hi → Tiled vranges lo hi
  /-- What the commit reads off the row is the interval that was checked. -/
  row : ∀ r ∈ sub.row, r.lo = lo ∧ r.hi = hi

/-- Rows are of the ranges that their ids denote, each block of a verified range has a verified
    range of its own, and the submits under way are sound. -/
structure Lawful (s : State) : Prop where
  /-- So a submit that reads the row of its id reads its own interval. -/
  rows : ∀ r ∈ s.db.ranges, Denotes r.id r.lo r.hi
  /-- Verified rows are under canonical ids, so that none takes the place of another interval. -/
  ids : ∀ v ∈ s.db.vranges, v.lo ≤ v.hi ∧ v.id = canonicalRangeId v.lo v.hi
  /-- The law itself: what a range covers, single blocks cover. -/
  law : ∀ v ∈ s.db.vranges, ∀ n, v.lo ≤ n → n ≤ v.hi → ∃ w ∈ s.db.vranges, w.lo = n ∧ w.hi = n
  submits : ∀ sub ∈ s.submits, ∃ lo hi, Sound s.db.vranges sub lo hi

theorem lawful_empty (h : s.Empty) : Lawful s := by
  obtain ⟨seed, rangeSize, rfl⟩ := h
  refine ⟨?_, fun v hv => absurd hv List.not_mem_nil, fun v hv => absurd hv List.not_mem_nil,
    fun sub hsub => absurd hsub List.not_mem_nil⟩
  intro r hr
  obtain ⟨i, -, rfl⟩ := List.mem_map.mp hr
  have hle : i * rangeSize ≤ i * rangeSize + rangeSize - 1 := by
    cases rangeSize with
    | zero => exact Nat.zero_le _
    | succ k => omega
  exact fun tip => parseAnyRange_dashed hle

/-! ## Steps keep it -/

/-- Where a submit under way comes from. -/
theorem Step.submits_cases (h : Step cfg out s e s') {sub' : Submission} (hsub' : sub' ∈ s'.submits) :
    (∃ sub ∈ s.submits, sub'.rid = sub.rid ∧ sub'.row = sub.row) ∨
      (∃ tip, submitCheck s.db tip sub'.rid ∧ sub'.row = none ∧ e = .quiet) ∨
      ∃ sub ∈ s.submits, sub'.rid = sub.rid ∧
        ∃ r ∈ s'.db.ranges, r.id = sub.rid ∧ sub'.row = some r := by
  cases h with
  | @check sub chainTip h hrow hcleared =>
    obtain rfl | hsub := List.mem_cons.mp hsub'
    · exact .inr (.inl ⟨chainTip, h, hrow, rfl⟩)
    · exact .inl ⟨sub', hsub, rfl, rfl⟩
  | @read sub r chainTip lo hi hsub hrow hparse hr hstatus =>
    obtain rfl | hsub' := List.mem_cons.mp hsub'
    · obtain ⟨hmem, hid⟩ := mem_of_find hr
      exact .inr (.inr ⟨sub, hsub, rfl, r, hmem, hid, rfl⟩)
    · exact .inl ⟨sub', List.mem_of_mem_erase hsub', rfl, rfl⟩
  | @clear sub r hsub hrow hhold =>
    obtain rfl | hsub' := List.mem_cons.mp hsub'
    · exact .inl ⟨sub, hsub, rfl, rfl⟩
    · exact .inl ⟨sub', List.mem_of_mem_erase hsub', rfl, rfl⟩
  | commit => exact .inl ⟨sub', List.mem_of_mem_erase hsub', rfl, rfl⟩
  | fail => exact .inl ⟨sub', List.mem_of_mem_erase hsub', rfl, rfl⟩
  | refuse => exact .inl ⟨sub', List.mem_of_mem_erase hsub', rfl, rfl⟩
  | _ => exact .inl ⟨sub', hsub', rfl, rfl⟩

/-- What goes on record is under its canonical id, and of several blocks only where they are
    tiled. -/
theorem Lawful.recorded (hs : Lawful s) (h : Step cfg out s e s') (hfolds : Folds s e) {rid : String}
    {m : VRange} (hrec : e.recorded = some (rid, m)) :
    m.lo ≤ m.hi ∧ rid = canonicalRangeId m.lo m.hi ∧ (m.lo < m.hi → Tiled s.db.vranges m.lo m.hi) := by
  cases h with
  | @commit sub r host m' hsub hrow hcleared hhost hm hfree now =>
    obtain ⟨rfl, rfl⟩ := Prod.mk.inj (Option.some.inj hrec)
    obtain ⟨lo, hi, hsound⟩ := hs.submits sub hsub
    obtain ⟨hlo, hhi⟩ := hsound.row r hrow
    obtain ⟨-, hfits⟩ := verifyReceipt_eq_some.mp hm
    have hpos := hsound.pos
    obtain ⟨rfl, rfl⟩ : lo = m'.lo ∧ hi = m'.hi := by omega
    exact ⟨hsound.le, hsound.rid, hsound.tiled⟩
  | @adopt p v todo chainTip lo hi receipt host m' hp htodo hlimit hhost hvisit now =>
    obtain ⟨rfl, rfl⟩ := Prod.mk.inj (Option.some.inj hrec)
    obtain ⟨hid, hzero, htiled⟩ := hfolds
    obtain ⟨-, -, hproves, hfits, -⟩ :=
      (Step.adopt hp htodo hlimit hhost hvisit now : Step cfg out s _ _).adopt_spec
    obtain ⟨rfl, rfl⟩ := hfits hzero
    exact ⟨out.proves_le hproves, hid, htiled⟩
  | _ => cases hrec

/-- **The interval of a verified range never leaves the board.** A row is replaced by one of the
    same id, and both denote the interval. -/
theorem Lawful.interval_kept (hs : Lawful s) (h : Step cfg out s e s') (hfolds : Folds s e) {v : VRow}
    (hv : v ∈ s.db.vranges) : ∃ w ∈ s'.db.vranges, w.lo = v.lo ∧ w.hi = v.hi := by
  obtain ⟨-, hvranges, -⟩ | ⟨x, hrec, hvranges, -⟩ := h.vranges_cases
  · exact ⟨v, hvranges ▸ hv, rfl, rfl⟩
  · obtain hmem | hid := mem_replace_of_mem VRow.id x hv
    · exact ⟨v, hvranges ▸ hmem, rfl, rfl⟩
    · obtain ⟨hxle, hxid, -⟩ := hs.recorded h hfolds hrec
      obtain ⟨hvle, hvid⟩ := hs.ids v hv
      have hsame : canonicalRangeId v.lo v.hi = canonicalRangeId x.lo x.hi := by
        rw [← hvid, ← hxid, hid]
      obtain ⟨hlo, hhi⟩ := (denotes_canonicalRangeId hvle).unique
        (hsame ▸ denotes_canonicalRangeId hxle)
      exact ⟨x, hvranges ▸ mem_replace.mpr (.inl rfl), hlo.symm, hhi.symm⟩

/-- So what was tiled stays tiled. -/
theorem Lawful.tiled_kept (hs : Lawful s) (h : Step cfg out s e s') (hfolds : Folds s e) {lo hi : ℕ}
    (htiled : Tiled s.db.vranges lo hi) : Tiled s'.db.vranges lo hi := by
  intro n hn hhi
  obtain ⟨v, hv, hin, hcov⟩ := htiled n hn hhi
  obtain ⟨w, hw, hlo, hhi⟩ := hs.interval_kept h hfolds hv
  exact ⟨w, hw, by rw [hlo, hhi]; exact hin, by rw [hlo, hhi]; exact hcov⟩

/-- A step keeps the invariant. A wide range adds no block to those that have a proof of their own,
    and a single block adds itself. -/
theorem Lawful.step (hs : Lawful s) (h : Step cfg out s e s') (hfolds : Folds s e) : Lawful s' := by
  have hrows : ∀ r ∈ s'.db.ranges, Denotes r.id r.lo r.hi := by
    intro r' hr'
    obtain ⟨r, hr, hid, hlo, hhi, -⟩ | ⟨hid, hhi, -⟩ | ⟨sub, hsub, tip, hid, hparse, -⟩ |
      ⟨sub, r₀, m, -, r, hr, -, hid, hlo, hhi⟩ | ⟨p, v, receipt, m, rfl, hid⟩ := h.ranges_cases hr'
    · rw [← hid, ← hlo, ← hhi]
      exact hs.rows r hr
    · rw [hid, hhi]
      have hcanon : canonicalRangeId r'.lo r'.lo = toString r'.lo := if_pos rfl
      exact hcanon ▸ denotes_canonicalRangeId (le_refl r'.lo)
    · rw [hid]
      exact denotes_of_parseAnyRange hparse
    · rw [hid, hlo, hhi]
      exact hs.rows r hr
    · obtain ⟨-, -, hproves, hfits, -⟩ := h.adopt_spec
      obtain ⟨hlo, hhi⟩ := hfits hfolds.2.1
      rw [hid, hfolds.1, hlo, hhi]
      exact denotes_canonicalRangeId (out.proves_le hproves)
  have hids : ∀ v ∈ s'.db.vranges, v.lo ≤ v.hi ∧ v.id = canonicalRangeId v.lo v.hi := by
    intro v hv
    obtain ⟨-, hvranges, -⟩ | ⟨x, hrec, hvranges, -⟩ := h.vranges_cases
    · exact hs.ids v (hvranges ▸ hv)
    · obtain ⟨hxle, hxid, -⟩ := hs.recorded h hfolds hrec
      obtain rfl | ⟨hv, -⟩ := mem_replace.mp (hvranges ▸ hv)
      · exact ⟨hxle, hxid⟩
      · exact hs.ids v hv
  -- a block of an old range has its own proof still
  have hold : ∀ v ∈ s.db.vranges, ∀ n, v.lo ≤ n → n ≤ v.hi →
      ∃ w ∈ s'.db.vranges, w.lo = n ∧ w.hi = n := by
    intro v hv n hlo hhi
    obtain ⟨w, hw, rfl, hwhi⟩ := hs.law v hv n hlo hhi
    obtain ⟨w', hw', hlo', hhi'⟩ := hs.interval_kept h hfolds hw
    exact ⟨w', hw', hlo', hhi'.trans hwhi⟩
  refine ⟨hrows, hids, ?_, ?_⟩
  · intro v hv n hlo hhi
    obtain ⟨-, hvranges, -⟩ | ⟨x, hrec, hvranges, -⟩ := h.vranges_cases
    · exact hold v (hvranges ▸ hv) n hlo hhi
    · obtain ⟨-, -, htiled⟩ := hs.recorded h hfolds hrec
      obtain rfl | ⟨hv', -⟩ := mem_replace.mp (hvranges ▸ hv)
      · obtain hlt | heq := lt_or_eq_of_le (hlo.trans hhi)
        · obtain ⟨y, hy, -, hylo, hyhi⟩ := htiled hlt n hlo hhi
          exact hold y hy n hylo hyhi
        · exact ⟨v, hv, by omega, by omega⟩
      · exact hold v hv' n hlo hhi
  · intro sub' hsub'
    obtain ⟨sub, hsub, hid, hrow⟩ | ⟨tip, ⟨⟨lo, hi⟩, hparse, hpos, hrid, htiled⟩, hrow, rfl⟩ |
      ⟨sub, hsub, hid, r, hr, hrid, hrow⟩ := h.submits_cases hsub'
    · obtain ⟨lo, hi, hsound⟩ := hs.submits sub hsub
      exact ⟨lo, hi, hid.trans hsound.rid, hsound.le, hsound.pos,
        fun hlt => hs.tiled_kept h hfolds (hsound.tiled hlt), hrow ▸ hsound.row⟩
    · refine ⟨lo, hi, hrid, (parseAnyRange_bounds hparse).1, hpos, fun hlt => ?_, ?_⟩
      · exact hs.tiled_kept h hfolds (tiledByVerified_iff.mp (htiled hlt))
      · intro r hr
        rw [hrow] at hr
        cases hr
    · obtain ⟨lo, hi, hsound⟩ := hs.submits sub hsub
      refine ⟨lo, hi, hid.trans hsound.rid, hsound.le, hsound.pos,
        fun hlt => hs.tiled_kept h hfolds (hsound.tiled hlt), fun r' hr' => ?_⟩
      rw [hrow] at hr'
      cases hr'
      have hdenotes := hrows r hr
      rw [hrid, hsound.rid] at hdenotes
      exact hdenotes.unique (denotes_canonicalRangeId hsound.le)

/-- **Only single blocks introduce coverage**, in every run whose adoptions are single blocks or
    tiled, and under their own ids: what is covered is what has a proof of its own, and a wide range
    was tiled when it went on record. -/
theorem only_blocks_cover {trace : List (State × Event × State)}
    (h : BoardRun cfg out Folds trace s) :
    (∀ n, s.db.covered n ↔ ∃ v ∈ s.db.vranges, v.lo = n ∧ v.hi = n) ∧
      ∀ s₁ e s₂, (s₁, e, s₂) ∈ trace → ∀ rid m, e.recorded = some (rid, m) → m.lo < m.hi →
        Tiled s₁.db.vranges m.lo m.hi := by
  constructor
  · have hs := h.invariant (fun s hs => lawful_empty hs) fun s e s' hs hstep => hs.step hstep.1 hstep.2
    intro n
    constructor
    · rintro ⟨v, hv, hlo, hhi⟩
      exact hs.law v hv n hlo hhi
    · rintro ⟨v, hv, hlo, hhi⟩
      exact ⟨v, hv, hlo.le, hhi.ge⟩
  · intro s₁ e s₂ ht rid m hrec hlt
    obtain ⟨hs, hstep, hfolds⟩ := h.forall_steps (fun s hs => lawful_empty hs)
      (fun s e s' hs hstep => hs.step hstep.1 hstep.2) _ ht
    exact (hs.recorded hstep hfolds hrec).2.2 hlt

/-! ## A fold of two blocks, and the same range without them -/

def foldEntries : List PeerEntry :=
  [⟨none, ⟨"5", some 5⟩, ⟨"5", some 5⟩, false, "peer"⟩,
    ⟨none, ⟨"6", some 6⟩, ⟨"6", some 6⟩, false, "peer"⟩, labelled]

/-- A pass adopts blocks 5 and 6, and then `[5..6]`, which they tile. -/
theorem only_blocks_cover_fold : ∃ trace s', BoardRun sampleConfig sampleOutside Folds trace s' ∧
    s'.db.vranges.map (fun v => (v.lo, v.hi)) = [(5, 5), (6, 6), (5, 6)] ∧
    ∀ n, s'.db.covered n ↔ ∃ v ∈ s'.db.vranges, v.lo = n ∧ v.hi = n := by
  have hstart : BoardRun sampleConfig sampleOutside Folds [] emptyBoard := .nil ⟨0, 1, rfl⟩
  have hfetched := hstart.snoc ⟨.fetch foldEntries, trivial⟩
  have hfive := hfetched.snoc ⟨.adopt (List.mem_singleton_self _) rfl (show 0 + 0 < 200 by decide)
    (sampleOutside_proves (by decide : (5 : UInt8) ≤ 5))
    (show visitEntry _ _ 100 true _ = .adopt 5 5 (sampleRange 5 5) by decide) 0,
    ⟨by decide, by decide, fun h => absurd h (by decide)⟩⟩
  have hsix := hfive.snoc ⟨.adopt (List.mem_cons_self ..) rfl (show 1 + 0 < 200 by decide)
    (sampleOutside_proves (by decide : (6 : UInt8) ≤ 6))
    (show visitEntry _ _ 100 true _ = .adopt 6 6 (sampleRange 6 6) by decide) 0,
    ⟨by decide, by decide, fun h => absurd h (by decide)⟩⟩
  -- by now the two rows tile the range of the third entry
  have hfold := hsix.snoc ⟨.adopt (List.mem_cons_self ..) rfl (show 2 + 0 < 200 by decide)
    (sampleOutside_proves (by decide : (5 : UInt8) ≤ 6))
    (show visitEntry _ _ 100 true _ = .adopt 5 6 (sampleRange 5 6) by decide) 0,
    ⟨by decide, by decide, fun _ => tiledByVerified_iff.mp (by decide)⟩⟩
  exact ⟨_, _, hfold, by decide, (only_blocks_cover hfold).1⟩

/-- A pass adopts `[5..6]` where neither block has a proof. -/
theorem wide_entry_covers : ∃ trace s', BoardRun sampleConfig sampleOutside (fun _ _ => True) trace s' ∧
    s'.db.covered 5 ∧ ¬ ∃ v ∈ s'.db.vranges, v.lo = 5 ∧ v.hi = 5 := by
  obtain ⟨trace, s, s', hrun, -, hvranges⟩ := adopt_run (fun _ _ => True) labelled 5 6 (by decide)
    (by decide) trivial trivial
  refine ⟨trace, s', hrun, ?_, ?_⟩
  · rw [Db.covered, hvranges]
    exact ⟨_, List.mem_singleton_self _, by decide, by decide⟩
  · rw [hvranges]
    rintro ⟨v, hv, -, hhi⟩
    rw [List.mem_singleton.mp hv] at hhi
    exact absurd hhi (by decide)

end Coordinator
end Hazync
