import Mathlib.Data.Nat.Digits.Defs
import Mathlib.Logic.Encodable.Pi
import Mathlib.Tactic.DeriveEncodable
import Hazync.Guest.OpTrue
import Hazync.Lib.FoldTree

/-!
# Trees of ranges and the chain

The blocks of a range can be proved in any order and folded along any tree. Which tree it is does
not show in the committed state, and the same blocks taken one by one with `chain_step` end in the
same place.

## Trees

Which ranges a host folds first depends on which proofs are finished. The tree of folds is of no
consequence as long as joining is associative and a seam depends only on the two states that meet.
That much is a fact about trees of any kind of joins, and is in `Lib/FoldTree`; here it is shown
that ranges are such (`seamed`): a fold commits the join of the two exactly if they meet and both
have receipts.

The other half of the theorem is a simulation. `chain_step` is given blocks one after the other,
each on the journal of the step before, and comes to the state after the range, with the work added.
The work is a 256-bit sum and is added modulo 2²⁵⁶ on both tracks, so the order of the additions
does not show in it.

`Commit` is the assumption that a journal decodes to what it was written from; that the zkVM has
receipts for what was committed is a hypothesis of the theorem.
-/

namespace Hazync
namespace Guest

open ByteStrings
open Accumulator (Stump normalize)

variable {H : Type}

/-- `env::commit`: the journal a state is written as, which decodes to that state. -/
structure Commit (zkvm : Zkvm H) where
  range : RangeState H → Bytes
  chain : ChainState H → Bytes
  decode_range : ∀ st, zkvm.decodeRange (range st) = some st
  decode_chain : ∀ st, zkvm.decodeChain (chain st) = some st

/-- The range begins where the chain has come to. -/
def RangeState.Starts (st : RangeState H) (prev : ChainState H) : Prop :=
  prev.height + 1 = st.lo ∧ prev.tip.Agrees st.before

/-- `next` is where the chain has come to from `prev` over the blocks of the range. -/
def RangeState.Reaches (st : RangeState H) (prev next : ChainState H) : Prop :=
  next.kind = KIND_CHAIN ∧ next.height = st.hi ∧ next.tip = st.after ∧
    next.cumWork = add256 prev.cumWork st.rangeWork

/-- The range of two that meet. -/
def RangeState.join (l r : RangeState H) : RangeState H where
  kind := KIND_RANGE
  lo := l.lo
  hi := r.hi
  before := l.before
  inSmtRoot := l.inSmtRoot
  after := r.after
  outSmtRoot := r.outSmtRoot
  rangeWork := add256 l.rangeWork r.rangeWork
  selfId := l.selfId

section

variable [DecidableEq H] (hs : Hashing H) (core : Core) (zkvm : Zkvm H) (selfId : ImageId)

/-- What a tree of `prove_range` and `fold_range` executions under one id commits. -/
inductive RangeProof : RangeState H → Prop
  | block {before : Boundary H} {w : BlockWitness H} {st : RangeState H} :
      proveRange hs core before w selfId = some st → RangeProof st
  | fold {lJournal rJournal : Bytes} {l r st : RangeState H} :
      zkvm.decodeRange lJournal = some l → zkvm.decodeRange rJournal = some r →
      RangeProof l → RangeProof r → foldRange zkvm selfId lJournal rJournal = some st →
      RangeProof st

variable {zkvm}

/-- `fold_range` on the journals of two states. -/
def foldJournals (commit : Commit zkvm) (l r : RangeState H) : Option (RangeState H) :=
  foldRange zkvm selfId (commit.range l) (commit.range r)

/-- `chain_step` again and again, each on the journal of the one before. A step is a block and its
    `is_base`. -/
def chainSteps (commit : Commit zkvm) (st : ChainState H) (steps : List (BlockWitness H × UInt32)) :
    Option (ChainState H) :=
  steps.foldlM (fun st s => chainStep hs core zkvm (commit.chain st) s.1 s.2 selfId) st

end

/-! ## Joins -/

/-- The sums of work can be grouped in any way. -/
theorem add256_assoc (a b c : ℕ) : add256 (add256 a b) c = add256 a (add256 b c) := by
  rw [add256, add256, add256, add256, Nat.mod_add_mod, Nat.add_mod_mod, Nat.add_assoc]

theorem seams : FoldTree.Seams (seamOk (H := H)) RangeState.join where
  left := Iff.rfl
  right := Iff.rfl
  assoc := by
    intro a b c
    simp only [RangeState.join, add256_assoc]

/-- A run of joins begins where its first range does. -/
theorem foldl_join_front (st : RangeState H) (ranges : List (RangeState H)) :
    (ranges.foldl RangeState.join st).lo = st.lo ∧
      (ranges.foldl RangeState.join st).before = st.before ∧
      (ranges.foldl RangeState.join st).inSmtRoot = st.inSmtRoot := by
  induction ranges generalizing st with
  | nil => exact ⟨rfl, rfl, rfl⟩
  | cons next ranges ih => exact ih (st.join next)

theorem RangeState.Reaches.join {l r : RangeState H} {prev mid next : ChainState H}
    (hl : l.Reaches prev mid) (hr : r.Reaches mid next) : (l.join r).Reaches prev next := by
  obtain ⟨-, -, -, hwork⟩ := hl
  obtain ⟨hkind, hheight, htip, hwork'⟩ := hr
  refine ⟨hkind, hheight, htip, ?_⟩
  rw [hwork', hwork, add256_assoc]
  rfl

section

variable [DecidableEq H] {hs : Hashing H} {core : Core} {zkvm : Zkvm H} {selfId : ImageId}
  {l r st : RangeState H}

omit [DecidableEq H] in
/-- The seam, with the states compared as a whole. -/
theorem seamOk_iff :
    seamOk l r ↔ l.hi + 1 = r.lo ∧ l.after.Agrees r.before ∧ l.outSmtRoot = r.inSmtRoot := by
  rw [seamOk, Boundary.Agrees]
  tauto

/-- What is committed has the kind of a range and the id of the guest. -/
theorem RangeProof.tags (h : RangeProof hs core zkvm selfId st) :
    st.kind = KIND_RANGE ∧ st.selfId = selfId := by
  cases h with
  | block h =>
    obtain ⟨r, -, -, rfl⟩ := proveRange_eq_some.mp h
    exact ⟨rfl, rfl⟩
  | fold _ _ _ _ h =>
    obtain ⟨l, r, -, -, -, -, -, -, -, rfl⟩ := foldRange_eq_some.mp h
    exact ⟨rfl, rfl⟩

/-- A fold of two ranges that were proved. -/
theorem foldRange_iff {lJournal rJournal : Bytes} (hl : zkvm.decodeRange lJournal = some l)
    (hr : zkvm.decodeRange rJournal = some r) (hpl : RangeProof hs core zkvm selfId l)
    (hpr : RangeProof hs core zkvm selfId r) :
    foldRange zkvm selfId lJournal rJournal = some st ↔
      (zkvm.verify selfId lJournal = true ∧ zkvm.verify selfId rJournal = true) ∧ seamOk l r ∧
        st = l.join r := by
  rw [foldRange_eq_some]
  constructor
  · rintro ⟨l', r', hvl, hvr, hl', hr', -, hself, hseam, rfl⟩
    obtain rfl := Option.some.inj (hl.symm.trans hl')
    obtain rfl := Option.some.inj (hr.symm.trans hr')
    exact ⟨⟨hvl, hvr⟩, hseam, by rw [RangeState.join, hself.1]⟩
  · rintro ⟨⟨hvl, hvr⟩, hseam, rfl⟩
    exact ⟨l, r, hvl, hvr, hl, hr, ⟨hpl.tags.1, hpr.tags.1⟩, ⟨hpl.tags.2, hpr.tags.2⟩, hseam,
      by rw [RangeState.join, hpl.tags.2]⟩

/-- Ranges that were proved fold where they meet. -/
theorem seamed (commit : Commit zkvm)
    (hranges : ∀ st, RangeProof hs core zkvm selfId st → zkvm.verify selfId (commit.range st) = true) :
    FoldTree.Seamed (foldJournals selfId commit) (RangeProof hs core zkvm selfId) seamOk
      RangeState.join where
  toSeams := seams
  eq_some := by
    intro a b c ha hb
    rw [foldJournals, foldRange_iff (commit.decode_range a) (commit.decode_range b) ha hb]
    exact ⟨And.right, fun h => ⟨⟨hranges a ha, hranges b hb⟩, h⟩⟩
  closed := by
    intro a b ha hb hmeets
    refine .fold (commit.decode_range a) (commit.decode_range b) ha hb ?_
    rw [foldRange_iff (commit.decode_range a) (commit.decode_range b) ha hb]
    exact ⟨⟨hranges a ha, hranges b hb⟩, hmeets, rfl⟩

/-- What a tree commits is the join of ranges of single blocks that meet. -/
theorem RangeProof.exists_blocks (h : RangeProof hs core zkvm selfId st) :
    ∃ first rest, (∀ x ∈ first :: rest, ∃ before w, proveRange hs core before w selfId = some x) ∧
      (first :: rest).IsChain seamOk ∧ st = rest.foldl RangeState.join first := by
  induction h with
  | @block before w st h =>
    exact ⟨st, [], fun x hx => ⟨before, w, List.mem_singleton.mp hx ▸ h⟩,
      List.isChain_singleton _, rfl⟩
  | @fold lJournal rJournal l r st hl hr hpl hpr h ihl ihr =>
    obtain ⟨a, as, hblocksl, hmeetsl, rfl⟩ := ihl
    obtain ⟨b, bs, hblocksr, hmeetsr, rfl⟩ := ihr
    obtain ⟨-, hseam, rfl⟩ := (foldRange_iff hl hr hpl hpr).mp h
    refine ⟨a, as ++ b :: bs, fun x hx => ?_,
      (seams.isChain_append a b as bs).mpr ⟨hmeetsl, hmeetsr, hseam⟩, (seams.join_append a b as bs).symm⟩
    rw [← List.cons_append, List.mem_append] at hx
    exact hx.elim (hblocksl x) (hblocksr x)

/-! ## The chain over the same blocks -/

variable {before : Boundary H} {w : BlockWitness H} {prev : ChainState H} {b : Boundary H}

omit [DecidableEq H] in
/-- What a block owes to a state it owes to every state that agrees with it. -/
theorem Extends.congr {height : UInt32} {r : BlockResult H} (h : b.Agrees before)
    (he : Extends core before height w r) :
    Extends core b height w r ∧ b.next height r = before.next height r := by
  obtain ⟨htip, hroots, hleaves, hnbits, htime, hepoch, hrecent⟩ := h
  constructor
  · exact
      { valid := he.valid
        prevhash := by rw [htip]; exact he.prevhash
        roots := by rw [hroots]; exact he.roots
        leaves := by rw [hleaves]; exact he.leaves
        nbits := by
          rw [expectedNbits, hnbits, hepoch, htime]
          exact he.nbits
        time := by rw [hrecent]; exact he.time }
  · rw [Boundary.next, Boundary.next, hepoch, hrecent]

omit [DecidableEq H] in
theorem addWork_eq (cum : ℕ) (nBits : UInt32) :
    addWork core cum nBits = add256 cum (addWork core 0 nBits) := by
  rw [addWork, addWork, add256, Nat.zero_add, Nat.add_mod_mod]

/-- Where a block is proved as a range, `chain_step` proves it on a chain state at that place. -/
theorem chainStep_of_proveRange (commit : Commit zkvm) {isBase : UInt32}
    (h : proveRange hs core before w selfId = some st) (hkind : prev.kind = KIND_CHAIN)
    (hstarts : st.Starts prev)
    (hbase : isBase = 0 → zkvm.verify selfId (commit.chain prev) = true ∧ prev.selfId = selfId) :
    ∃ next, chainStep hs core zkvm (commit.chain prev) w isBase selfId = some next ∧
      next.selfId = selfId ∧ st.Reaches prev next := by
  obtain ⟨r, hr, he, rfl⟩ := proveRange_eq_some.mp h
  obtain ⟨hheight, hagrees⟩ := hstarts
  obtain ⟨hextends, hnext⟩ := he.congr hagrees
  have hrecent : prev.tip.recent = before.recent := hagrees.2.2.2.2.2.2
  refine ⟨_, extendChain_eq_some.mpr ⟨prev, r, fun h0 => (hbase h0).1, commit.decode_chain prev,
    hkind, fun h0 => (hbase h0).2, hheight.symm, ?_, hextends, rfl⟩, rfl, rfl, rfl, hnext,
    addWork_eq _ _⟩
  rw [hrecent]
  exact hr

/-- The blocks of ranges that meet, run over from a chain state where the first begins. -/
theorem chainSteps_of_ranges (commit : Commit zkvm)
    (hchains : ∀ journal w isBase st, chainStep hs core zkvm journal w isBase selfId = some st →
      zkvm.verify selfId (commit.chain st) = true)
    {first : BlockWitness H × UInt32} {steps : List (BlockWitness H × UInt32)}
    {ranges : List (RangeState H)}
    (hfirst : ∃ before, proveRange hs core before first.1 selfId = some st)
    (hrest : List.Forall₂ (fun (s : BlockWitness H × UInt32) st =>
      ∃ before, proveRange hs core before s.1 selfId = some st) steps ranges)
    (hmeets : (st :: ranges).IsChain seamOk) (hkind : prev.kind = KIND_CHAIN)
    (hstarts : st.Starts prev)
    (hbase : first.2 = 0 → zkvm.verify selfId (commit.chain prev) = true ∧ prev.selfId = selfId) :
    ∃ final, chainSteps hs core selfId commit prev (first :: steps) = some final ∧
      (ranges.foldl RangeState.join st).Reaches prev final := by
  induction hrest generalizing prev st first with
  | nil =>
    obtain ⟨before, hfirst⟩ := hfirst
    obtain ⟨next, hstep, -, hnext⟩ := chainStep_of_proveRange commit hfirst hkind hstarts hbase
    refine ⟨next, ?_, hnext⟩
    rw [chainSteps, List.foldlM_cons, hstep]
    rfl
  | @cons s next steps ranges hs' _ ih =>
    obtain ⟨before, hfirst⟩ := hfirst
    obtain ⟨mid, hstep, hself, hmid⟩ := chainStep_of_proveRange commit hfirst hkind hstarts hbase
    obtain ⟨hseam, hmeets⟩ := List.isChain_cons_cons.mp hmeets
    obtain ⟨hadjacent, hagrees, -⟩ := seamOk_iff.mp hseam
    have hstarts' : next.Starts mid :=
      ⟨hmid.2.1 ▸ hadjacent, hmid.2.2.1 ▸ hagrees⟩
    obtain ⟨final, hrun, hfinal⟩ := ih hs' hmeets hmid.1 hstarts'
      fun _ => ⟨hchains _ _ _ _ hstep, hself⟩
    refine ⟨final, ?_, ?_⟩
    · rw [chainSteps, List.foldlM_cons, hstep]
      exact hrun
    · rw [List.foldl_cons, seams.join_foldl]
      exact hmid.join hfinal

/-! ## The theorem -/

omit [DecidableEq H] in
/-- The work of a run of joins. -/
theorem foldl_join_rangeWork {ranges : List (RangeState H)} (h : st.rangeWork < 2 ^ 256) :
    (ranges.foldl RangeState.join st).rangeWork =
      (st.rangeWork + (ranges.map RangeState.rangeWork).sum) % 2 ^ 256 := by
  induction ranges generalizing st with
  | nil => simpa using (Nat.mod_eq_of_lt h).symm
  | cons next ranges ih =>
    have hlt : (st.join next).rangeWork < 2 ^ 256 := Nat.mod_lt _ (by positivity)
    rw [List.foldl_cons, ih hlt, List.map_cons, List.sum_cons, RangeState.join, add256,
      Nat.mod_add_mod, Nat.add_assoc]

theorem rangeWork_of_proveRange (h : proveRange hs core before w selfId = some st) :
    st.rangeWork = blockProof core w.nbits % 2 ^ 256 := by
  obtain ⟨r, hr, -, rfl⟩ := proveRange_eq_some.mp h
  rw [← (validateBlock_header hr).2.2.1, addWork, Nat.zero_add]

/-- The work of the ranges is that of their blocks. -/
theorem sum_rangeWork {blocks : List (BlockWitness H)} {ranges : List (RangeState H)}
    (h : List.Forall₂ (fun w st => ∃ before, proveRange hs core before w selfId = some st)
      blocks ranges) :
    (ranges.map RangeState.rangeWork).sum % 2 ^ 256 =
      (blocks.map fun w => blockProof core w.nbits).sum % 2 ^ 256 := by
  induction h with
  | nil => rfl
  | cons hst _ ih =>
    obtain ⟨before, hst⟩ := hst
    rw [List.map_cons, List.sum_cons, List.map_cons, List.sum_cons, rangeWork_of_proveRange hst,
      Nat.mod_add_mod, ← Nat.add_mod_mod, ih, Nat.add_mod_mod]

/-- **The tree does not matter, and the chain comes to the same state.** Every tree of folds over
proved blocks is accepted exactly when the neighbours meet; all accepted trees commit one state,
with the sum of the work; and from a chain state where the range begins, `chain_step` over the
same blocks is accepted and reaches the state after the range. -/
theorem fold_tree_irrelevant (commit : Commit zkvm)
    (hranges : ∀ st, RangeProof hs core zkvm selfId st → zkvm.verify selfId (commit.range st) = true)
    (hchains : ∀ journal w isBase st, chainStep hs core zkvm journal w isBase selfId = some st →
      zkvm.verify selfId (commit.chain st) = true)
    {blocks : List (BlockWitness H)} {ranges : List (RangeState H)}
    (hblocks : List.Forall₂ (fun w st => ∃ before, proveRange hs core before w selfId = some st)
      blocks ranges) :
    (∀ t : FoldTree (RangeState H), t.leaves = ranges →
      ((t.eval (foldJournals selfId commit)).isSome ↔ ranges.IsChain seamOk)) ∧
    (∀ (t t' : FoldTree (RangeState H)) (st st' : RangeState H), t.leaves = ranges →
      t'.leaves = ranges → t.eval (foldJournals selfId commit) = some st →
      t'.eval (foldJournals selfId commit) = some st' → st = st') ∧
    ∀ (t : FoldTree (RangeState H)) (st : RangeState H), t.leaves = ranges →
      t.eval (foldJournals selfId commit) = some st →
      st.rangeWork = (blocks.map fun w => blockProof core w.nbits).sum % 2 ^ 256 ∧
      ∀ (prev : ChainState H) (steps : List (BlockWitness H × UInt32)),
        prev.kind = KIND_CHAIN → st.Starts prev → steps.map Prod.fst = blocks →
        (∀ s ∈ steps.head?, s.2 = 0 →
          zkvm.verify selfId (commit.chain prev) = true ∧ prev.selfId = selfId) →
        ∃ final, chainSteps hs core selfId commit prev steps = some final ∧
          st.Reaches prev final := by
  have hproofs : ∀ st ∈ ranges, RangeProof hs core zkvm selfId st := by
    intro st hst
    obtain ⟨k, hk⟩ := List.mem_iff_getElem?.mp hst
    obtain ⟨hlt, hget⟩ := List.getElem?_eq_some_iff.mp hk
    obtain ⟨before, h⟩ := hblocks.get (hblocks.length_eq ▸ hlt) hlt
    have hget : ranges.get ⟨k, hlt⟩ = st := hget
    rw [hget] at h
    exact .block h
  -- a tree folds exactly where its leaves meet, to the fold from the left
  have heval {t : FoldTree (RangeState H)} (ht : t.leaves = ranges) {a : RangeState H}
      {as : List (RangeState H)} (hleaves : ranges = a :: as) {st : RangeState H} :
      t.eval (foldJournals selfId commit) = some st ↔
        ranges.IsChain seamOk ∧ st = as.foldl RangeState.join a := by
    rw [(seamed commit hranges).eval_eq_some (ht.trans hleaves) (by rw [ht]; exact hproofs), ht]
  refine ⟨?_, ?_, ?_⟩
  · intro t ht
    obtain ⟨a, as, hleaves⟩ := t.exists_leaves
    rw [Option.isSome_iff_exists]
    constructor
    · rintro ⟨st, hst⟩
      exact ((heval ht (ht.symm.trans hleaves)).mp hst).1
    · intro hmeets
      exact ⟨_, (heval ht (ht.symm.trans hleaves)).mpr ⟨hmeets, rfl⟩⟩
  · intro t t' st st' ht ht' hst hst'
    obtain ⟨a, as, hleaves⟩ := t.exists_leaves
    have hleaves := ht.symm.trans hleaves
    rw [((heval ht hleaves).mp hst).2, ((heval ht' hleaves).mp hst').2]
  · intro t st ht hst
    obtain ⟨a, as, hleaves⟩ := t.exists_leaves
    have hleaves := ht.symm.trans hleaves
    obtain ⟨hmeets, rfl⟩ := (heval ht hleaves).mp hst
    subst hleaves
    -- the works add up
    have hsum := sum_rangeWork hblocks
    rw [List.map_cons, List.sum_cons] at hsum
    obtain ⟨w, ws, hfirst, hrest, rfl⟩ := List.forall₂_cons_right_iff.mp hblocks
    refine ⟨?_, ?_⟩
    · obtain ⟨before, hfirst⟩ := hfirst
      have hlt : a.rangeWork < 2 ^ 256 := by
        rw [rangeWork_of_proveRange hfirst]
        exact Nat.mod_lt _ (by positivity)
      rw [foldl_join_rangeWork hlt, hsum]
    -- the same blocks as steps of a chain end in the same state
    · intro prev steps hkind hstarts hsteps hbase
      cases steps with
      | nil => cases hsteps
      | cons s steps =>
        obtain ⟨rfl, rfl⟩ := List.cons.inj hsteps
        rw [List.forall₂_map_left_iff] at hrest
        refine chainSteps_of_ranges commit hchains hfirst hrest hmeets hkind ?_ (hbase s rfl)
        obtain ⟨hlo, hbefore, -⟩ := foldl_join_front a as
        rw [RangeState.Starts, hlo, hbefore] at hstarts
        exact hstarts

end

/-! ## The first two blocks -/

namespace OpTrue

/-- Bytes can be numbered, and so can all that is made of them. -/
instance encodableUInt8 : Encodable UInt8 :=
  Encodable.ofLeftInverse UInt8.toNat UInt8.ofNat fun _ => UInt8.ofNat_toNat
instance encodableUInt32 : Encodable UInt32 :=
  Encodable.ofLeftInverse UInt32.toNat UInt32.ofNat fun _ => UInt32.ofNat_toNat
instance encodableUInt64 : Encodable UInt64 :=
  Encodable.ofLeftInverse UInt64.toNat UInt64.ofNat fun _ => UInt64.ofNat_toNat

deriving instance Encodable for Boundary
deriving instance Encodable for RangeState
deriving instance Encodable for ChainState

/-- The base-256 digits of a code. -/
def encodeJournal {α : Type} [Encodable α] (a : α) : Bytes :=
  (Nat.digits 256 (Encodable.encode a)).map UInt8.ofNat

/-- The code that the digits write. -/
def decodeJournal {α : Type} [Encodable α] (journal : Bytes) : Option α :=
  Encodable.decode (Nat.ofDigits 256 (journal.map UInt8.toNat))

/-- A journal decodes to what it was made of. -/
theorem decode_encodeJournal {α : Type} [Encodable α] (a : α) :
    decodeJournal (encodeJournal a) = some a := by
  have hdigits : ((Nat.digits 256 (Encodable.encode a)).map UInt8.ofNat).map UInt8.toNat =
      Nat.digits 256 (Encodable.encode a) := by
    rw [List.map_map]
    refine (List.map_congr_left fun d hd => ?_).trans (List.map_id' _)
    have hlt : d < 256 := Nat.digits_lt_base (by decide) hd
    exact UInt8.toNat_ofNat_of_lt' hlt
  rw [decodeJournal, encodeJournal, hdigits, Nat.ofDigits_digits, Encodable.encodek]

/-- A zkVM whose guest has the id `0` and has proved whatever it is asked for. -/
def zkvm : Zkvm Bytes where
  verify id _ := id = .replicate 8 0
  decodeRange := decodeJournal
  decodeChain := decodeJournal
  decodeChunk _ := none

theorem verify_zkvm (journal : Bytes) : zkvm.verify (.replicate 8 0) journal = true := by
  simp only [zkvm, decide_true]

/-- The journals of the sample. -/
def commit : Commit zkvm where
  range := encodeJournal
  chain := encodeJournal
  decode_range := decode_encodeJournal
  decode_chain := decode_encodeJournal

/-- The ranges of the first two blocks fold, and the chain gets from block 0 to the same state. -/
theorem fold_tree_irrelevant_blocks : ∃ w₁ w₂ st₁ st₂ st final,
    proveRange idealHashing core genesisTip w₁ (.replicate 8 0) = some st₁ ∧
      proveRange idealHashing core st₁.after w₂ (.replicate 8 0) = some st₂ ∧
      (FoldTree.node (.leaf st₁) (.leaf st₂)).eval (foldJournals (.replicate 8 0) commit) = some st ∧
      st.rangeWork = (blockProof core w₁.nbits + blockProof core w₂.nbits) % 2 ^ 256 ∧
      chainSteps idealHashing core (.replicate 8 0) commit
        (genesisAnchor idealHashing (.replicate 8 0)) [(w₁, 1), (w₂, 0)] = some final ∧
      st.Reaches (genesisAnchor idealHashing (.replicate 8 0)) final := by
  obtain ⟨wit₁, st₁, h₁, hlo₁, hhi₁, hbefore₁, -, hout₁, hafter₁⟩ := proveRange_block1
  obtain ⟨wit₂, st₂, h₂, hlo₂, -, hbefore₂, hin₂, -⟩ := proveRange_block2
  set w₁ := block1.withSmt (Smt.emptyRoot idealHashing) wit₁
  set w₂ := block2.withSmt (spendSmt idealHashing).root wit₂
  have hmeets : [st₁, st₂].IsChain seamOk := by
    refine List.isChain_pair.mpr (seamOk_iff.mpr ⟨?_, ?_, ?_⟩)
    · rw [hhi₁, hlo₂]
      rfl
    · rw [hafter₁, hbefore₂]
      exact .refl _
    · rw [hout₁, hin₂]
  obtain ⟨haccept, -, hall⟩ := fold_tree_irrelevant commit
    (fun st _ => verify_zkvm (commit.range st)) (fun _ _ _ st _ => verify_zkvm (commit.chain st))
    (.cons ⟨_, h₁⟩ (.cons ⟨_, h₂⟩ .nil))
  obtain ⟨st, hst⟩ := Option.isSome_iff_exists.mp
    ((haccept (.node (.leaf st₁) (.leaf st₂)) rfl).mpr hmeets)
  obtain ⟨hwork, hchain⟩ := hall (.node (.leaf st₁) (.leaf st₂)) st rfl hst
  have hstarts : st.Starts (genesisAnchor idealHashing (.replicate 8 0)) := by
    obtain ⟨-, -, rfl⟩ := (foldRange_iff (commit.decode_range st₁) (commit.decode_range st₂)
      (.block h₁) (.block h₂)).mp hst
    refine ⟨hlo₁.symm, ?_⟩
    rw [RangeState.join, hbefore₁]
    exact .refl _
  obtain ⟨final, hrun, hreaches⟩ := hchain (genesisAnchor idealHashing (.replicate 8 0))
    [(w₁, 1), (w₂, 0)] rfl hstarts rfl (fun s hs h0 => by cases hs; cases h0)
  refine ⟨w₁, w₂, st₁, st₂, st, final, h₁, hafter₁ ▸ h₂, hst, ?_, hrun, hreaches⟩
  simpa using hwork

end OpTrue
end Guest
end Hazync
