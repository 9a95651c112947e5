import Hazync.Lib.ByteStrings
import Mathlib.Data.List.Sort

/-!
# Which tip block is next (`coordinator/tip_board.py`, `coordinator/tip_chain.py`)

Of the bundles that wait the lowest is chosen, or the newest where too many wait, and then the others
are named. Before a bundle is proved its header is held against the block that was proved last: the
bundle is the next link if it has that block for its parent.

## Keeping up, and linking

Two things are in conflict at the tip. Each block should be proved, in order, so that the proofs
form a chain. And the latest block should be proved soon; if blocks come faster than they are
proved, the lag grows. So there is a bound on how many may wait. Up to it the lowest is chosen and
nothing is left out; above it the newest is chosen, and the others are passed over, by name.

The link is the other half. A block is next if its header names the hash of the header before it. A
bundle is a file, of some height, with a witness in it; what the height says and what the header
says must agree, and the header is taken from the witness which is going to be proved. `verdict`
goes through this in order and gives the first reason against the bundle. It is linked if there was
something to hold it against; without that it is accepted as the first.
-/

namespace Hazync
namespace Tip

open ByteStrings

/-! ## `choose_tip` -/

/-- `choose_tip`: the height, and those that are passed over. A bound of 0 is none. -/
def chooseTip (heights : List ℕ) (maxBehind : ℤ) : Option ℕ × List ℕ :=
  let hs := heights.insertionSort (· ≤ ·)
  if hs = [] then (none, [])
  else if maxBehind ≠ 0 ∧ maxBehind < hs.length then (hs.getLast?, hs.dropLast)
  else (hs.head?, [])

/-- So many wait that the newest is chosen and others are passed over. -/
def Jumps (heights : List ℕ) (maxBehind : ℤ) : Prop :=
  maxBehind ≠ 0 ∧ maxBehind < heights.length ∧ 2 ≤ heights.length

variable {hs skipped : List ℕ} {maxBehind : ℤ} {c x : ℕ}

/-- Of heights that are in order. -/
theorem chooseTip_eq (hsorted : hs.Pairwise (· < ·)) :
    chooseTip hs maxBehind =
      if hs = [] then (none, [])
      else if maxBehind ≠ 0 ∧ maxBehind < hs.length then (hs.getLast?, hs.dropLast)
      else (hs.head?, []) := by
  unfold chooseTip
  rw [(hsorted.imp fun h => le_of_lt h).insertionSort_eq]

/-- The newest is chosen over the others, or the lowest over none. -/
theorem chooseTip_cases (hsorted : hs.Pairwise (· < ·))
    (h : chooseTip hs maxBehind = (some c, skipped)) :
    (Jumps hs maxBehind ∧ hs = skipped ++ [c]) ∨
      (¬ Jumps hs maxBehind ∧ skipped = [] ∧ ∃ rest, hs = c :: rest) := by
  rw [chooseTip_eq hsorted] at h
  split_ifs at h with hnil hcond
  · exact absurd (Prod.mk.inj h).1 (by simp)
  · obtain ⟨hlast, rfl⟩ := Prod.mk.inj h
    have heq : hs = hs.dropLast ++ [c] := (List.dropLast_append_getLast? c hlast).symm
    by_cases htwo : 2 ≤ hs.length
    · exact .inl ⟨⟨hcond.1, hcond.2, htwo⟩, heq⟩
    · have hlen := congrArg List.length heq
      have hdrop : hs.dropLast = [] := by
        rw [← List.length_eq_zero_iff]
        simp at hlen ⊢
        omega
      rw [hdrop] at heq
      exact .inr ⟨fun hj => htwo hj.2.2, hdrop, [], heq⟩
  · obtain ⟨hhead, rfl⟩ := Prod.mk.inj h
    exact .inr ⟨fun hj => hcond ⟨hj.1, hj.2.1⟩, rfl, List.head?_eq_some_iff.mp hhead⟩

/-- Only what waits is passed over. -/
theorem subset_of_skipped : (chooseTip hs maxBehind).2 ⊆ hs := by
  intro x hx
  simp only [chooseTip] at hx
  split_ifs at hx
  · exact absurd hx List.not_mem_nil
  · exact (List.mem_insertionSort _).mp (List.dropLast_subset _ hx)
  · exact absurd hx List.not_mem_nil

/-- What is chosen was there. -/
theorem chosen_mem (hsorted : hs.Pairwise (· < ·)) (h : chooseTip hs maxBehind = (some c, skipped)) :
    c ∈ hs := by
  obtain ⟨_, rfl⟩ | ⟨_, _, rest, rfl⟩ := chooseTip_cases hsorted h
  · exact List.mem_append_right _ (List.mem_singleton.mpr rfl)
  · exact List.mem_cons_self

/-- Where others are passed over it is the newest. -/
theorem chosen_greatest (hsorted : hs.Pairwise (· < ·))
    (h : chooseTip hs maxBehind = (some c, skipped)) (hjumps : Jumps hs maxBehind) (hx : x ∈ hs) :
    x ≤ c := by
  obtain ⟨_, rfl⟩ | ⟨hnot, _⟩ := chooseTip_cases hsorted h
  · obtain hx | hx := List.mem_append.mp hx
    · exact ((List.pairwise_append.mp hsorted).2.2 x hx c (List.mem_singleton.mpr rfl)).le
    · exact (List.mem_singleton.mp hx).le
  · exact absurd hjumps hnot

/-- Where none is it is the lowest. -/
theorem chosen_least (hsorted : hs.Pairwise (· < ·)) (h : chooseTip hs maxBehind = (some c, skipped))
    (hjumps : ¬ Jumps hs maxBehind) (hx : x ∈ hs) : c ≤ x := by
  obtain ⟨hj, _⟩ | ⟨_, _, rest, rfl⟩ := chooseTip_cases hsorted h
  · exact absurd hj hjumps
  · obtain rfl | hx := List.mem_cons.mp hx
    · exact le_rfl
    · exact ((List.pairwise_cons.mp hsorted).1 x hx).le

/-- The heights that are passed over are those below the one that is chosen. -/
theorem mem_skipped (hsorted : hs.Pairwise (· < ·)) (h : chooseTip hs maxBehind = (some c, skipped)) :
    x ∈ skipped ↔ x ∈ hs ∧ x < c := by
  obtain ⟨_, rfl⟩ | ⟨hnot, rfl, _⟩ := chooseTip_cases hsorted h
  · constructor
    · intro hx
      exact ⟨List.mem_append_left _ hx,
        (List.pairwise_append.mp hsorted).2.2 x hx c (List.mem_singleton.mpr rfl)⟩
    · rintro ⟨hx, hlt⟩
      obtain hx | hx := List.mem_append.mp hx
      · exact hx
      · exact absurd (List.mem_singleton.mp hx) hlt.ne
  · refine ⟨fun hx => absurd hx List.not_mem_nil, ?_⟩
    rintro ⟨hx, hlt⟩
    exact absurd (chosen_least hsorted h hnot hx) (not_le.mpr hlt)

/-- None is passed over without a jump. -/
theorem skipped_eq_nil (hsorted : hs.Pairwise (· < ·))
    (h : chooseTip hs maxBehind = (some c, skipped)) : skipped = [] ↔ ¬ Jumps hs maxBehind := by
  obtain ⟨hj, rfl⟩ | ⟨hnot, hnil, _⟩ := chooseTip_cases hsorted h
  · refine ⟨fun hnil => absurd hj.2.2 (by simp [hnil]), fun hnot => absurd hj hnot⟩
  · exact ⟨fun _ => hnot, fun _ => hnil⟩

/-! ## `verdict` -/

/-- A bundle: the height that `bundle_height` reads, what `bytes` makes of the witness's header and of
    `in_tip`, which may be absent. -/
structure Bundle where
  height : Option ℤ
  headerBytes : Option Bytes
  inTip : Option (Option Bytes)
  deriving DecidableEq

/-- `HEADER_LEN` -/
def HEADER_LEN : ℕ := 80

/-- `bundle_header` -/
def bundleHeader (b : Bundle) : Option Bytes := b.headerBytes.filter (·.length = HEADER_LEN)

/-- The parent that a header names, `PARENT_SLICE`. -/
def parentOf (header : Bytes) : Bytes := slice header 4 36

/-- `display_hash` -/
def displayHash (h : Bytes) : String := hex h.reverse

/-- What a verdict says. -/
inductive LinkWhy where
  | notObject
  | noHeight
  | named (expect got : ℤ)
  | noHeader
  | inTipDisagrees
  | inTipNotBytes
  | prevUnusable (len : ℕ)
  | unlinked (height : ℤ)
  | gap (height : ℤ) (parent want : Bytes)
  | child (height : ℤ) (want : Bytes)
  deriving DecidableEq

/-- The text of the reason, in the source's words. -/
def LinkWhy.text : LinkWhy → String
  | .notObject => "the bundle is not an object"
  | .noHeight => "the bundle states no height"
  | .named expect got =>
    "the bundle NAMED " ++ toString expect ++ " states height " ++ toString got ++
      " — refusing to prove a block under the wrong height"
  | .noHeader => "no usable " ++ toString HEADER_LEN ++ "-byte header in the bundle"
  | .inTipDisagrees =>
    "the bundle's in_tip disagrees with its own header's parent — the bundle is internally inconsistent"
  | .inTipNotBytes => "the bundle's in_tip is not bytes"
  | .prevUnusable len =>
    "the previous header is unusable: a block header is " ++ toString HEADER_LEN ++ " bytes, got " ++
      toString len
  | .unlinked height =>
    "height " ++ toString height ++ " is consistent within the bundle, but there is no previously " ++
      "proved block to link it to (first tip block of the session)"
  | .gap height parent want =>
    "block " ++ toString height ++ " builds on " ++ displayHash parent ++
      " but the block we proved last hashes to " ++ displayHash want ++
      " — this is a GAP or a fork, not the next link"
  | .child height want =>
    "block " ++ toString height ++ " is the child of the block we proved last (" ++
      String.ofList ((displayHash want).toList.take 16) ++ "…)"

/-- The block was refused for the parent that it has. -/
def LinkWhy.isGap : LinkWhy → Bool
  | .gap .. => true
  | _ => false

/-- What is decided about a bundle. -/
structure Verdict where
  ok : Bool := false
  linked : Bool := false
  why : LinkWhy
  height : Option ℤ := none
  parent : Option String := none
  deriving DecidableEq

section Verdict

variable (sha256 : Bytes → Bytes)

/-- `block_hash`, of a header of 80 bytes. -/
def blockHash (header : Bytes) : Bytes := sha256 (sha256 header)

/-- The hash that a parent is to have, or the length of a header that has none. -/
def wanted (prev parentHash : Option Bytes) : Except ℕ (Option Bytes) :=
  match prev with
  | some header =>
    if header.length = HEADER_LEN then .ok (some (blockHash sha256 header)) else .error header.length
  | none => .ok parentHash

/-- `verdict` of a document, which is `none` if it is not an object. -/
def verdict (doc : Option Bundle) (expect : ℤ) (prev : Option Bytes) (parentHash : Option Bytes) :
    Verdict :=
  match doc with
  | none => { why := .notObject }
  | some b =>
    match b.height with
    | none => { why := .noHeight }
    | some got =>
      if expect ≠ got then { why := .named expect got, height := some got }
      else
        match bundleHeader b with
        | none => { why := .noHeader, height := some got }
        | some header =>
          let parent := parentOf header
          let out (ok linked : Bool) (why : LinkWhy) : Verdict :=
            { ok, linked, why, height := some got, parent := some (displayHash parent) }
          if b.inTip = some none then out false false .inTipNotBytes
          else if ∃ t ∈ b.inTip, t ≠ some parent then out false false .inTipDisagrees
          else
            match wanted sha256 prev parentHash with
            | .error len => out false false (.prevUnusable len)
            | .ok none => out true false (.unlinked got)
            | .ok (some want) =>
              if parent ≠ want then out false false (.gap got parent want)
              else out true true (.child got want)

variable {sha256} {doc : Option Bundle} {expect : ℤ} {prev parentHash : Option Bytes}

/-- A block is only refused for its parent where there is one to hold it against. -/
theorem prev_of_gap (h : (verdict sha256 doc expect prev none).why.isGap) : prev ≠ none := by
  rintro rfl
  unfold verdict at h
  split at h
  · exact Bool.false_ne_true h
  split at h
  · exact Bool.false_ne_true h
  split at h
  · exact Bool.false_ne_true h
  split at h
  · exact Bool.false_ne_true h
  simp only at h
  split at h
  · exact Bool.false_ne_true h
  split at h
  · exact Bool.false_ne_true h
  · exact Bool.false_ne_true h

/-- A block that may be proved has a header, and is the child of the block before it. -/
theorem header_of_ok (h : (verdict sha256 doc expect prev none).ok) :
    ∃ b header, doc = some b ∧ bundleHeader b = some header ∧
      ∀ p ∈ prev, parentOf header = blockHash sha256 p := by
  unfold verdict at h
  split at h
  · exact absurd h Bool.false_ne_true
  split at h
  · exact absurd h Bool.false_ne_true
  split at h
  · exact absurd h Bool.false_ne_true
  split at h
  · exact absurd h Bool.false_ne_true
  case h_2 b _ _ _ _ _ header hheader =>
    refine ⟨b, header, rfl, hheader, fun p hp => ?_⟩
    obtain rfl := Option.mem_def.mp hp
    simp only at h
    split at h
    · exact absurd h Bool.false_ne_true
    split at h
    · exact absurd h Bool.false_ne_true
    simp only [wanted] at h
    by_cases hlen : p.length = HEADER_LEN
    · rw [if_pos hlen] at h
      simp only at h
      split at h
      · exact absurd h Bool.false_ne_true
      case isFalse hparent => exact not_not.mp hparent
    · rw [if_neg hlen] at h
      exact absurd h Bool.false_ne_true

end Verdict

end Tip
end Hazync
