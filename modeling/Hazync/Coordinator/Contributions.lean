import Hazync.Coordinator.Folding
import Hazync.Coordinator.Rotations
import Hazync.Lib.IntervalMerge
import Mathlib.Data.List.Sort
import Mathlib.Data.Prod.Lex
import Mathlib.Data.String.Basic

/-!
# Proofs and folds (`fold_spans`, `contributions_by_pubkey`, `coordinator/server.py`)

A range that arrives when two verified ranges tile it was made by folding, and its blocks are not
credited to whoever folded it. The walk in the order of arrival keeps the ends of the ranges of each
start, but for the right part of a seam only the widest range of a start.

So a seam is lost where a wider range with the start of its right part came before it, and where all
seams of a range are lost, the range counts as a proof.

## Exactly when

`IsFold` is what a fold is: when the range arrives, two ranges that meet have its start and its end.
The walk looks for such a pair with what it has kept, and of the right parts it has kept the widest
of each start. So the pair is found just where the right part was the widest of its start by then
(`SeamKept`). A range with several seams needs one that is kept; one with a single seam that is lost
is taken for a proof, and its blocks are credited to whoever folded it.

The count itself is right whatever the classes are: it is the number of blocks in the union of the
ranges that were taken for proofs, for each key (`provedBy_eq`), by a sweep over the sorted ranges.
The general part of the sweep is `Hazync.Lib.IntervalMerge`; here it is run over all keys at once.
-/

namespace Hazync
namespace Coordinator

open KeyedTable IntervalMerge

/-- What the walk has seen: the widest range of each start, and all ends. -/
structure Seen where
  byStart : ℕ → Option ℕ
  endsAt : ℕ → List ℕ

def Seen.nothing : Seen := ⟨fun _ => none, fun _ => []⟩

def Seen.add (s : Seen) (r : VRow) : Seen where
  byStart :=
    if (s.byStart r.lo).all (· < r.hi) then Function.update s.byStart r.lo (some r.hi)
    else s.byStart
  endsAt := Function.update s.endsAt r.lo ((s.endsAt r.lo).insert r.hi)

/-- `is_fold_seam` -/
def isFoldSeam (lo hi : ℕ) (s : Seen) : Bool :=
  (s.endsAt lo).any fun m => s.byStart (m + 1) = some hi

/-- A row is classed as a fold. -/
def Seen.folds (s : Seen) (r : VRow) : Bool := r.lo < r.hi && isFoldSeam r.lo r.hi s

/-- The walk of `fold_spans` and `contributions_by_pubkey`: each row, and whether it is a fold. -/
def classifyFrom (s : Seen) : List VRow → List (VRow × Bool)
  | [] => []
  | r :: rs => (r, s.folds r) :: classifyFrom (s.add r) rs

def classify (vr : List VRow) : List (VRow × Bool) := classifyFrom Seen.nothing vr

/-- `fold_spans`, of the rows ordered by `ts` -/
def foldSpans (vr : List VRow) : List (String × ℕ × ℕ) :=
  ((classify vr).filter fun x => x.2).map fun x => (x.1.id, x.1.lo, x.1.hi)

/-- `folded_count` -/
def foldedCount (vr : List VRow) : ℕ :=
  mergeCount (((foldSpans vr).map Prod.snd).insertionSort fun a b => toLex a ≤ toLex b)

/-! ## `contributions_by_pubkey` -/

abbrev Tallies := List (String × ℕ)

/-- `d.get(k, 0)` -/
def Tallies.get (d : Tallies) (k : String) : ℕ := (find Prod.fst k d).elim 0 Prod.snd

/-- `d[k] = d.get(k, 0) + n` -/
def Tallies.add (d : Tallies) (k : String) (n : ℕ) : Tallies :=
  upsert Prod.fst (k, n) (fun e => (e.1, e.2 + n)) d

/-- A range under the key that it counts for. -/
structure Item where
  pk : String
  lo : ℕ
  hi : ℕ
deriving DecidableEq

def itemOf (rmap : String → Option String) (r : VRow) : Item :=
  ⟨resolvePubkey rmap r.pubkey, r.lo, r.hi⟩

def Item.le (a b : Item) : Prop :=
  toLex (a.pk, toLex (a.lo, a.hi)) ≤ toLex (b.pk, toLex (b.lo, b.hi))

instance : DecidableRel Item.le := fun _ _ => inferInstanceAs (Decidable (_ ≤ _))

/-- The loop over the sorted ranges: the pieces that are closed are in the tallies. -/
def sweepStep (st : Tallies × Option Item) (x : Item) : Tallies × Option Item :=
  match st.2 with
  | none => (st.1, some x)
  | some cur =>
    if x.pk ≠ cur.pk then (st.1.add cur.pk (cur.hi + 1 - cur.lo), some x)
    else if cur.hi + 1 < x.lo then (st.1.add cur.pk (cur.hi + 1 - cur.lo), some x)
    else (st.1, some { cur with hi := max cur.hi x.hi })

def sweep (items : List Item) : Tallies :=
  let st := items.foldl sweepStep ([], none)
  match st.2 with
  | none => st.1
  | some cur => st.1.add cur.pk (cur.hi + 1 - cur.lo)

structure Contribution where
  proved : ℕ
  folded : ℕ
  anchored : ℕ
deriving DecidableEq

/-- `contributions_by_pubkey`, of the rows ordered by `ts` and the spine's submissions. -/
def contributionsByPubkey (rmap : String → Option String) (vr : List VRow) (spine : List String)
    (pk : String) : Option Contribution :=
  let marked := classify vr
  let folded := (marked.filter fun x => x.2).foldl
    (fun d x => Tallies.add d (resolvePubkey rmap x.1.pubkey) 1) []
  let rows := (marked.filter fun x => !x.2).map Prod.fst
  let anchored := spine.foldl (fun d k => Tallies.add d (resolvePubkey rmap k) 1) []
  let items := (rows.map (itemOf rmap)).insertionSort Item.le
  let out := sweep items
  if pk ∈ (out ++ folded ++ anchored).map Prod.fst then
    some ⟨out.get pk, folded.get pk, anchored.get pk⟩
  else none

/-! ## What a fold is -/

/-- The range arrives when two ranges that meet have its start and its end. -/
def IsFold (earlier : List VRow) (r : VRow) : Prop :=
  r.lo < r.hi ∧ ∃ l ∈ earlier, l.lo = r.lo ∧ (l.hi + 1, r.hi) ∈ earlier.map VRow.span

instance (earlier : List VRow) (r : VRow) : Decidable (IsFold earlier r) :=
  inferInstanceAs (Decidable (_ ∧ _))

/-- Each row, and whether it is a fold of what came before it. -/
def marked (earlier : List VRow) : List VRow → List (VRow × Bool)
  | [] => []
  | r :: rs => (r, IsFold earlier r) :: marked (earlier ++ [r]) rs

/-- The ranges that are proofs. -/
def proved (vr : List VRow) : List VRow := ((marked [] vr).filter fun x => !x.2).map Prod.fst

/-- The ranges that were folded. -/
def folded (vr : List VRow) : List VRow := ((marked [] vr).filter fun x => x.2).map Prod.fst

/-- Of the seams of the range, one has the widest range of its start for its right part. -/
def SeamKept (earlier : List VRow) (r : VRow) : Prop :=
  ∃ l ∈ earlier, l.lo = r.lo ∧ (l.hi + 1, r.hi) ∈ earlier.map VRow.span ∧
    ∀ x ∈ earlier, x.lo = l.hi + 1 → x.hi ≤ r.hi

/-- The blocks that a key is credited with. -/
def provedBy (rmap : String → Option String) (vr : List VRow) (spine : List String) (pk : String) :
    ℕ :=
  (contributionsByPubkey rmap vr spine pk).elim 0 Contribution.proved

/-- The folds are the ranges that were folded. A key is credited with the blocks of its proofs, and
what `folded_count` counts is the blocks of the folds. -/
structure FoldsExact (rmap : String → Option String) (vr : List VRow) (spine : List String) :
    Prop where
  /-- The walk takes for a fold what is one, and nothing else. -/
  classed : classify vr = marked [] vr
  /-- A block that several proofs of a key have is credited once. Folds add nothing. -/
  credited : ∀ pk, provedBy rmap vr spine pk =
    (cover (((proved vr).filter fun r => resolvePubkey rmap r.pubkey = pk).map VRow.span)).card
  /-- A block that is in several folds is counted once. -/
  counted : foldedCount vr = (cover ((folded vr).map VRow.span)).card

/-! ## The walk -/

variable {earlier rows vr : List VRow} {r : VRow} {s : Seen} {rmap : String → Option String}
  {spine : List String}

/-- What the walk knows of the ranges that came before. -/
structure Knows (earlier : List VRow) (s : Seen) : Prop where
  /-- Where the ranges that begin at `lo` end. -/
  ends : ∀ lo m, m ∈ s.endsAt lo ↔ (lo, m) ∈ earlier.map VRow.span
  /-- `by_start` has the widest of those that begin at `lo`, and no other. -/
  widest : ∀ lo h, s.byStart lo = some h →
    (lo, h) ∈ earlier.map VRow.span ∧ ∀ x ∈ earlier, x.lo = lo → x.hi ≤ h
  /-- It has nothing just where nothing begins. -/
  unseen : ∀ lo, s.byStart lo = none → ∀ x ∈ earlier, x.lo ≠ lo

theorem knows_nothing : Knows [] Seen.nothing where
  ends := by simp [Seen.nothing]
  widest := by simp [Seen.nothing]
  unseen := by simp

theorem mem_span_concat {p : ℕ × ℕ} : p ∈ (earlier ++ [r]).map VRow.span ↔
    p ∈ earlier.map VRow.span ∨ p = (r.lo, r.hi) := by
  rw [List.map_append, List.mem_append, List.map_singleton, List.mem_singleton]
  rfl

theorem Knows.widest_iff (h : Knows earlier s) {lo hi : ℕ} : s.byStart lo = some hi ↔
    (lo, hi) ∈ earlier.map VRow.span ∧ ∀ x ∈ earlier, x.lo = lo → x.hi ≤ hi := by
  refine ⟨h.widest lo hi, ?_⟩
  intro ⟨hmem, hmax⟩
  obtain ⟨v, hv, hspan⟩ := List.mem_map.mp hmem
  obtain ⟨rfl, rfl⟩ := Prod.mk.inj hspan
  cases hstart : s.byStart v.lo with
  | none => exact absurd rfl (h.unseen v.lo hstart v hv)
  | some w =>
    obtain ⟨hmem', hmax'⟩ := h.widest v.lo w hstart
    obtain ⟨u, hu, hspan'⟩ := List.mem_map.mp hmem'
    obtain ⟨hlo, rfl⟩ := Prod.mk.inj hspan'
    rw [le_antisymm (hmax u hu hlo) (hmax' v hv rfl)]

/-- The entry of a start is the maximum of what it was and the new end. -/
theorem byStart_add (s : Seen) (r : VRow) (lo : ℕ) : (s.add r).byStart lo =
    if lo = r.lo then some ((s.byStart r.lo).elim r.hi (max · r.hi)) else s.byStart lo := by
  unfold Seen.add
  dsimp only
  by_cases hlo : lo = r.lo
  · rw [if_pos hlo, hlo]
    cases hstart : s.byStart r.lo with
    | none => simp
    | some w =>
      by_cases hw : w < r.hi
      · simp [hw, max_eq_right hw.le]
      · simp [hw, hstart, max_eq_left (not_lt.mp hw)]
  · rw [if_neg hlo]
    split
    · exact Function.update_of_ne hlo _ _
    · rfl

/-- Another row: it is one more end of its start, and the widest if it is wider than what there
    was. -/
theorem Knows.add (h : Knows earlier s) (r : VRow) : Knows (earlier ++ [r]) (s.add r) := by
  -- a row is an earlier one or the new one
  have hlast : ∀ x, x ∈ earlier ++ [r] → x ∈ earlier ∨ x = r := by simp
  refine ⟨?_, ?_, ?_⟩
  · intro lo m
    rw [mem_span_concat, ← h.ends]
    unfold Seen.add
    dsimp only
    by_cases hlo : lo = r.lo
    · rw [hlo, Function.update_self, List.mem_insert_iff]
      simp [or_comm]
    · rw [Function.update_of_ne hlo]
      simp [hlo]
  · intro lo w hw
    rw [byStart_add] at hw
    rw [mem_span_concat]
    split at hw
    · rename_i hlo
      obtain rfl := Option.some.inj hw
      -- the widest row of this start is the wider of the two
      cases hstart : s.byStart r.lo with
      | none =>
        refine ⟨.inr (by rw [hlo]; rfl), ?_⟩
        intro x hx hxlo
        rcases hlast x hx with hx | rfl
        · exact absurd (hxlo.trans hlo) (h.unseen r.lo hstart x hx)
        · exact le_rfl
      | some w =>
        obtain ⟨hmem, hmax⟩ := h.widest r.lo w hstart
        dsimp only [Option.elim]
        refine ⟨?_, ?_⟩
        · rw [hlo]
          rcases max_choice w r.hi with hleft | hright
          · exact .inl (hleft.symm ▸ hmem)
          · exact .inr (by rw [hright])
        · intro x hx hxlo
          rcases hlast x hx with hx | rfl
          · exact (hmax x hx (hxlo.trans hlo)).trans (le_max_left _ _)
          · exact le_max_right _ _
    · rename_i hlo
      obtain ⟨hmem, hmax⟩ := h.widest lo w hw
      refine ⟨.inl hmem, ?_⟩
      intro x hx hxlo
      rcases hlast x hx with hx | rfl
      · exact hmax x hx hxlo
      · exact absurd hxlo.symm hlo
  · intro lo hnone x hx
    rw [byStart_add] at hnone
    split at hnone
    · cases hnone
    · rename_i hlo
      rcases hlast x hx with hx | rfl
      · exact h.unseen lo hnone x hx
      · exact Ne.symm hlo

/-- The walk takes a row for a fold just where it is wide and has a seam that is kept. -/
theorem folds_iff (h : Knows earlier s) : s.folds r = true ↔ r.lo < r.hi ∧ SeamKept earlier r := by
  unfold Seen.folds isFoldSeam SeamKept
  rw [Bool.and_eq_true, decide_eq_true_iff, List.any_eq_true]
  apply and_congr_right
  intro hwide
  constructor
  · intro ⟨m, hm, hstart⟩
    rw [h.ends] at hm
    obtain ⟨l, hl, hspan⟩ := List.mem_map.mp hm
    obtain ⟨hlo, rfl⟩ := Prod.mk.inj hspan
    obtain ⟨hright, hmax⟩ := h.widest_iff.mp (of_decide_eq_true hstart)
    exact ⟨l, hl, hlo, hright, hmax⟩
  · intro ⟨l, hl, hlo, hright, hmax⟩
    refine ⟨l.hi, ?_, decide_eq_true (h.widest_iff.mpr ⟨hright, hmax⟩)⟩
    rw [h.ends, ← hlo]
    exact List.mem_map_of_mem hl

theorem SeamKept.isFold (hwide : r.lo < r.hi) (h : SeamKept earlier r) : IsFold earlier r := by
  obtain ⟨l, hl, hlo, hright, -⟩ := h
  exact ⟨hwide, l, hl, hlo, hright⟩

/-- A row is classed as what it is just where a fold has a seam that is kept. A proof is never taken
    for a fold, since a kept seam is a seam. -/
theorem folds_eq (h : Knows earlier s) :
    s.folds r = decide (IsFold earlier r) ↔ (IsFold earlier r → SeamKept earlier r) := by
  rw [Bool.eq_iff_iff, folds_iff h, decide_eq_true_iff]
  constructor
  · intro hiff hfold
    exact (hiff.mpr hfold).2
  · intro hkept
    exact ⟨fun ⟨hwide, hseam⟩ => hseam.isFold hwide, fun hfold => ⟨hfold.1, hkept hfold⟩⟩

/-- What holds of each place in a list, said of the first place and the rest. -/
theorem forall_split_cons {α : Type*} {q : List α → α → Prop} {a : α} {l : List α} :
    (∀ pre x post, a :: l = pre ++ x :: post → q pre x) ↔
      q [] a ∧ ∀ pre x post, l = pre ++ x :: post → q (a :: pre) x := by
  constructor
  · intro h
    refine ⟨h [] a l rfl, ?_⟩
    intro pre x post heq
    exact h (a :: pre) x post (by rw [heq]; rfl)
  · intro ⟨hfirst, hrest⟩ pre x post heq
    cases pre with
    | nil =>
      obtain ⟨rfl, -⟩ := List.cons.inj heq
      exact hfirst
    | cons b pre =>
      obtain ⟨rfl, htail⟩ := List.cons.inj heq
      exact hrest pre x post htail

/-- The walk classes every row as what it is just where each fold has a seam that is kept when it
    arrives. -/
theorem classifyFrom_eq (h : Knows earlier s) : classifyFrom s rows = marked earlier rows ↔
    ∀ pre r post, rows = pre ++ r :: post → IsFold (earlier ++ pre) r →
      SeamKept (earlier ++ pre) r := by
  induction rows generalizing earlier s with
  | nil => simp [classifyFrom, marked]
  | cons r rows ih =>
    have hsplit := forall_split_cons (a := r) (l := rows)
      (q := fun pre r => IsFold (earlier ++ pre) r → SeamKept (earlier ++ pre) r)
    unfold classifyFrom marked
    rw [hsplit, List.cons.injEq, Prod.mk.injEq, ih (h.add r), List.append_nil]
    simp [folds_eq h]

/-! ## The sweep -/

namespace Tallies

theorem get_add (d : Tallies) (k k' : String) (n : ℕ) :
    (d.add k n).get k' = if k' = k then d.get k + n else d.get k' := by
  have hkey : ∀ e : String × ℕ, (e.1, e.2 + n).1 = e.1 := fun _ => rfl
  unfold get add
  rw [find_upsert hkey]
  by_cases hk : k' = k
  · rw [if_pos hk, if_pos hk, hk]
    cases find Prod.fst k d <;> simp
  · rw [if_neg hk, if_neg hk]

theorem get_of_notMem {d : Tallies} {k : String} (h : k ∉ d.map Prod.fst) : d.get k = 0 := by
  have hnone : find Prod.fst k d = none := by
    apply find_none.mpr
    intro x hx hkey
    exact h (List.mem_map.mpr ⟨x, hx, hkey⟩)
  unfold get
  rw [hnone]
  rfl

end Tallies

variable {items : List Item} {x : Item} {st : Tallies × Option Item} {pk : String}

def Item.span (x : Item) : ℕ × ℕ := (x.lo, x.hi)

/-- The ranges of a key. -/
def spansOf (pk : String) (items : List Item) : List (ℕ × ℕ) :=
  (items.filter fun x => x.pk = pk).map Item.span

theorem spansOf_concat_self (items : List Item) (x : Item) :
    spansOf x.pk (items ++ [x]) = spansOf x.pk items ++ [x.span] := by
  simp [spansOf]

theorem spansOf_concat_of_ne (h : x.pk ≠ pk) : spansOf pk (items ++ [x]) = spansOf pk items := by
  simp [spansOf, h]

theorem mem_spansOf {p : ℕ × ℕ} (h : p ∈ spansOf pk items) :
    ∃ x ∈ items, x.pk = pk ∧ x.span = p := by
  obtain ⟨x, hx, hspan⟩ := List.mem_map.mp h
  obtain ⟨hx, hpk⟩ := List.mem_filter.mp hx
  exact ⟨x, hx, of_decide_eq_true hpk, hspan⟩

/-- The open piece is of the last key; the other keys are counted. -/
structure Swept (items : List Item) (st : Tallies × Option Item) : Prop where
  /-- Before the first item there is neither a piece nor a count. -/
  start : st.2 = none → items = [] ∧ st.1 = []
  /-- A key before the last one has the number of blocks that its spans cover. -/
  closed : ∀ cur ∈ st.2, ∀ pk, pk ≠ cur.pk → st.1.get pk = (cover (spansOf pk items)).card
  /-- What is counted of the last key, and the open piece, come to what its spans so far cover. -/
  merging : ∀ cur ∈ st.2, Merging (spansOf cur.pk items) (st.1.get cur.pk, some cur.span)
  /-- The open piece is of an item that was read. -/
  known : ∀ cur ∈ st.2, ∃ y ∈ items, y.pk = cur.pk
  /-- The items are in the order of their keys. -/
  top : ∀ cur ∈ st.2, ∀ y ∈ items, y.pk ≤ cur.pk

theorem Item.le_pk {a b : Item} (h : Item.le a b) : a.pk ≤ b.pk := by
  rcases (Prod.Lex.toLex_le_toLex.mp h) with hlt | ⟨heq, -⟩
  · exact hlt.le
  · exact heq.le

theorem Item.le_lo {a b : Item} (h : Item.le a b) (hpk : a.pk = b.pk) : a.lo ≤ b.lo := by
  rcases (Prod.Lex.toLex_le_toLex.mp h) with hlt | ⟨-, hle⟩
  · exact absurd hpk hlt.ne
  · rcases (Prod.Lex.toLex_le_toLex.mp hle) with hlt | ⟨heq, -⟩
    · exact hlt.le
    · exact heq.le

/-- The first range of a key opens a piece. -/
theorem Swept.fresh {out : Tallies} (hx : x.lo ≤ x.hi) (hnone : spansOf x.pk items = [])
    (hclosed : ∀ pk, pk ≠ x.pk → out.get pk = (cover (spansOf pk items)).card)
    (hzero : out.get x.pk = 0) (htop : ∀ y ∈ items, y.pk ≤ x.pk) :
    Swept (items ++ [x]) (out, some x) := by
  have hfirst : Merging [x.span] (0, some x.span) := Merging.nil.step (by simp) hx
  refine ⟨fun h => by simp at h, ?_, ?_, ?_, ?_⟩
  · intro cur hcur pk hpk
    obtain rfl := Option.some.inj hcur
    rw [spansOf_concat_of_ne (Ne.symm hpk)]
    exact hclosed pk hpk
  · intro cur hcur
    obtain rfl := Option.some.inj hcur
    rw [spansOf_concat_self, hnone, hzero]
    exact hfirst
  · intro cur hcur
    obtain rfl := Option.some.inj hcur
    exact ⟨x, by simp, rfl⟩
  · intro cur hcur y hy
    obtain rfl := Option.some.inj hcur
    rcases List.mem_append.mp hy with hy | hy
    · exact htop y hy
    · rw [List.mem_singleton.mp hy]

/-- Another range of the key closes the piece or widens it. -/
theorem Swept.again {out out' : Tallies} {cur cur' : Item} (h : Swept items (out, some cur))
    (hpk : x.pk = cur.pk) (hpk' : cur'.pk = cur.pk)
    (hother : ∀ pk, pk ≠ cur.pk → out'.get pk = out.get pk)
    (hmerge : Merging (spansOf cur.pk items ++ [x.span]) (out'.get cur.pk, some cur'.span)) :
    Swept (items ++ [x]) (out', some cur') := by
  refine ⟨fun h => by simp at h, ?_, ?_, ?_, ?_⟩
  · intro c hc pk hne
    obtain rfl := Option.some.inj hc
    rw [hpk'] at hne
    rw [spansOf_concat_of_ne (hpk ▸ Ne.symm hne), hother pk hne]
    exact h.closed cur rfl pk hne
  · intro c hc
    obtain rfl := Option.some.inj hc
    rw [hpk', ← hpk, spansOf_concat_self, hpk]
    exact hmerge
  · intro c hc
    obtain rfl := Option.some.inj hc
    exact ⟨x, by simp, hpk.trans hpk'.symm⟩
  · intro c hc y hy
    obtain rfl := Option.some.inj hc
    rw [hpk']
    rcases List.mem_append.mp hy with hy | hy
    · exact h.top cur rfl y hy
    · rw [List.mem_singleton.mp hy, hpk]

/-- One range of the sweep: of the same key it closes the piece or widens it, and of another key it
    closes the piece and opens one there. -/
theorem Swept.step (h : Swept items st) (hbefore : ∀ y ∈ items, Item.le y x) (hx : x.lo ≤ x.hi) :
    Swept (items ++ [x]) (sweepStep st x) := by
  obtain ⟨out, cur⟩ := st
  have htop : ∀ y ∈ items, y.pk ≤ x.pk := fun y hy => Item.le_pk (hbefore y hy)
  unfold sweepStep
  cases cur with
  -- the first row opens a span
  | none =>
    obtain ⟨rfl, hout⟩ := h.start rfl
    obtain rfl : out = [] := hout
    exact Swept.fresh hx rfl (fun _ _ => rfl) rfl htop
  | some cur =>
    dsimp only
    have hmerging := h.merging cur rfl
    split
    · -- all keys so far are below the new one
      rename_i hne
      obtain ⟨z, hz, hzpk⟩ := h.known cur rfl
      have hlt : cur.pk < x.pk := lt_of_le_of_ne (hzpk ▸ htop z hz) (Ne.symm hne)
      have hnone : spansOf x.pk items = [] := by
        apply List.eq_nil_iff_forall_not_mem.mpr
        intro p hp
        obtain ⟨y, hy, hypk, -⟩ := mem_spansOf hp
        exact absurd ((h.top cur rfl y hy).trans_lt hlt) (hypk ▸ lt_irrefl _)
      apply Swept.fresh hx hnone
      · intro pk hpk
        rw [Tallies.get_add]
        split
        · rename_i heq
          rw [heq]
          exact hmerging.count
        · rename_i hcur
          exact h.closed cur rfl pk hcur
      · rw [Tallies.get_add, if_neg hne, h.closed cur rfl x.pk hne, hnone]
        rfl
      · exact htop
    -- a row of the key in hand meets the span, or opens one of its own
    · rename_i hsame
      have hpk : x.pk = cur.pk := not_not.mp hsame
      have hstarts : ∀ q ∈ spansOf cur.pk items, q.1 ≤ x.span.1 := by
        intro q hq
        obtain ⟨y, hy, hypk, rfl⟩ := mem_spansOf hq
        exact Item.le_lo (hbefore y hy) (hypk.trans hpk.symm)
      have hmerge := hmerging.step hstarts hx
      unfold mergeStep Item.span at hmerge
      dsimp only at hmerge
      split
      · rename_i hnew
        rw [if_pos hnew] at hmerge
        apply h.again hpk hpk
        · intro pk hne
          rw [Tallies.get_add, if_neg hne]
        · rw [Tallies.get_add, if_pos rfl]
          exact hmerge
      · rename_i hmeet
        rw [if_neg hmeet] at hmerge
        exact h.again hpk rfl (fun _ _ => rfl) hmerge

/-- The sweep counts what the ranges of each key cover, when they are sorted by key and start. -/
theorem get_sweep (hsorted : items.Pairwise Item.le) (hle : ∀ x ∈ items, x.lo ≤ x.hi)
    (pk : String) : (sweep items).get pk = (cover (spansOf pk items)).card := by
  have hinv : Swept items (items.foldl sweepStep ([], none)) := by
    induction items using List.reverseRecOn with
    | nil => exact ⟨fun _ => ⟨rfl, rfl⟩, by simp, by simp, by simp, by simp⟩
    | append_singleton items x ih =>
      obtain ⟨hpair, -, hbefore⟩ := List.pairwise_append.mp hsorted
      rw [List.foldl_append]
      apply (ih hpair fun y hy => hle y (List.mem_append_left _ hy)).step
      · intro y hy
        exact hbefore y hy x (List.mem_singleton_self x)
      · exact hle x (by simp)
  unfold sweep
  dsimp only
  cases hcur : (items.foldl sweepStep ([], none)).2 with
  | none =>
    obtain ⟨rfl, hout⟩ := hinv.start hcur
    rfl
  | some cur =>
    dsimp only
    rw [Tallies.get_add]
    split
    · rename_i heq
      rw [heq]
      exact (hinv.merging cur hcur).count
    · rename_i hne
      exact hinv.closed cur hcur pk hne

/-! ## What is credited -/

instance : Std.Total Item.le where
  total a b := le_total (toLex (a.pk, toLex (a.lo, a.hi))) (toLex (b.pk, toLex (b.lo, b.hi)))

instance : IsTrans Item Item.le where
  trans _ _ _ hab hbc := le_trans hab hbc

theorem classifyFrom_fst (s : Seen) (rows : List VRow) :
    (classifyFrom s rows).map Prod.fst = rows := by
  induction rows generalizing s with
  | nil => rfl
  | cons r rows ih =>
    unfold classifyFrom
    rw [List.map_cons, ih]

/-- The rows that the walk takes for proofs. -/
def takenForProofs (vr : List VRow) : List VRow :=
  ((classify vr).filter fun x => !x.2).map Prod.fst

theorem mem_of_classify {x : VRow × Bool} (h : x ∈ classify vr) : x.1 ∈ vr := by
  rw [← classifyFrom_fst Seen.nothing vr]
  exact List.mem_map_of_mem h

theorem mem_of_takenForProofs (h : r ∈ takenForProofs vr) : r ∈ vr := by
  obtain ⟨x, hx, rfl⟩ := List.mem_map.mp h
  exact mem_of_classify (List.mem_filter.mp hx).1

/-- Sorting and resolving keep the ranges of each key. -/
theorem cover_items (pk : String) :
    cover (spansOf pk ((rows.map (itemOf rmap)).insertionSort Item.le)) =
      cover ((rows.filter fun r => resolvePubkey rmap r.pubkey = pk).map VRow.span) := by
  apply cover_congr
  intro p
  unfold spansOf
  simp only [List.mem_map, List.mem_filter, List.mem_insertionSort, decide_eq_true_eq]
  constructor
  · intro ⟨x, ⟨⟨r, hr, hitem⟩, hpk⟩, hspan⟩
    rw [← hitem] at hpk hspan
    exact ⟨r, ⟨hr, hpk⟩, hspan⟩
  · intro ⟨r, ⟨hr, hpk⟩, hspan⟩
    exact ⟨itemOf rmap r, ⟨⟨r, hr, rfl⟩, hpk⟩, hspan⟩

/-- A key is credited with the blocks of the rows that the walk takes for proofs. -/
theorem provedBy_eq (h : WellFormed vr) (pk : String) : provedBy rmap vr spine pk =
    (cover (((takenForProofs vr).filter fun r => resolvePubkey rmap r.pubkey = pk).map
      VRow.span)).card := by
  rw [← cover_items, ← get_sweep (List.pairwise_insertionSort _ _)]
  · unfold provedBy contributionsByPubkey
    dsimp only
    split
    · rfl
    · rename_i hnone
      symm
      apply Tallies.get_of_notMem
      intro hmem
      apply hnone
      rw [List.map_append, List.map_append]
      exact List.mem_append_left _ (List.mem_append_left _ hmem)
  · intro x hx
    rw [List.mem_insertionSort] at hx
    obtain ⟨r, hr, rfl⟩ := List.mem_map.mp hx
    exact h r (mem_of_takenForProofs hr)

/-- The blocks in some range that the walk takes for a fold. -/
theorem foldedCount_eq (h : WellFormed vr) :
    foldedCount vr = (cover ((foldSpans vr).map Prod.snd)).card := by
  have hsorted : (((foldSpans vr).map Prod.snd).insertionSort fun a b => toLex a ≤ toLex b).Pairwise
      fun a b => a.1 ≤ b.1 := by
    apply (List.pairwise_insertionSort _ _).imp
    intro a b hab
    rcases Prod.Lex.toLex_le_toLex.mp hab with hlt | ⟨heq, -⟩
    · exact hlt.le
    · exact heq.le
  unfold foldedCount
  rw [mergeCount_eq hsorted]
  · apply congrArg Finset.card
    exact cover_congr fun p => List.mem_insertionSort _
  · intro p hp
    rw [List.mem_insertionSort] at hp
    obtain ⟨y, hy, rfl⟩ := List.mem_map.mp hp
    obtain ⟨x, hx, rfl⟩ := List.mem_map.mp hy
    exact h x.1 (mem_of_classify (List.mem_filter.mp hx).1)

/-- **The folds are exact just where every fold has a seam that is kept.** From left to right it is
    the classes alone; from right to left both counts follow from them. -/
theorem folds_exact_iff (h : WellFormed vr) : FoldsExact rmap vr spine ↔
    ∀ pre r post, vr = pre ++ r :: post → IsFold pre r → SeamKept pre r := by
  have hclass : classify vr = marked [] vr ↔
      ∀ pre r post, vr = pre ++ r :: post → IsFold pre r → SeamKept pre r :=
    classifyFrom_eq knows_nothing
  rw [← hclass]
  constructor
  · exact FoldsExact.classed
  · intro heq
    refine ⟨heq, ?_, ?_⟩
    · intro pk
      rw [provedBy_eq h, takenForProofs, heq]
      rfl
    · rw [foldedCount_eq h, foldSpans, heq, folded, List.map_map, List.map_map]
      rfl

/-! ## A seam that is lost -/

/-- Blocks 1 to 4 are folded from two ranges, and `[3..8]` came before. -/
def lostSeam : List VRow := [foldRow 1 2, foldRow 3 4, foldRow 3 8, foldRow 1 4]

/-- The fold is taken for a proof. -/
theorem lostSeam_not_exact : WellFormed lostSeam ∧ ¬ FoldsExact (fun _ => none) lostSeam [] := by
  refine ⟨by unfold WellFormed lostSeam; simp [foldRow], ?_⟩
  intro h
  have hflags := congrArg (List.map Prod.snd) h.classed
  revert hflags
  decide

/-- Blocks 1 and 2 are folded. -/
theorem folds_exact_two :
    FoldsExact (fun _ => none) [foldRow 1 1, foldRow 2 2, foldRow 1 2] [] := by
  have hle : WellFormed [foldRow 1 1, foldRow 2 2, foldRow 1 2] := by
    unfold WellFormed
    simp [foldRow]
  have hclassed : classify [foldRow 1 1, foldRow 2 2, foldRow 1 2] =
      marked [] [foldRow 1 1, foldRow 2 2, foldRow 1 2] := rfl
  exact (folds_exact_iff hle).mpr ((classifyFrom_eq knows_nothing).mp hclassed)

end Coordinator
end Hazync
