import Mathlib.Data.List.Sort
import Hazync.Guest.Block
import Hazync.Guest.Chunk

/-!
# Ranges and chains (`prove_range`, `fold_range`, `chain_step`, `aggregate`)

The modes that commit a state. Each takes the block check as it is and adds what a block owes to
the one before it: the previous hash, the accumulator, the difficulty and the time. `prove_range`
takes the state before its block from the host and commits it with the state after; `fold_range`
joins two ranges that meet. `chain_step` and `aggregate` take it from the journal of the step
before, which the zkVM has verified unless the step is the base of its chain.

The zkVM is not part of the repository: `Zkvm` is what these modes call of it.

## Who says what the state is

All four modes run the same block check, and then compare the block with a state. They differ in
where the state is from. In `prove_range` the host gives it, and nothing is known of it but that it
is committed; the comparison means something once a fold has joined the range to the one before it.
In the chain modes it is decoded from a journal, and `env::verify` has been asked whether the image
has a receipt with that journal, unless the witness says that this is the base. Then the state is
anybody's, and `anchor_id` commits what it was.

For each mode there is one theorem that says exactly when it commits what (`proveRange_eq_some`,
`foldRange_eq_some`, `extendChain_eq_some`). The modules after this one use these and not the
definitions.
-/

namespace Hazync
namespace Guest

open ByteStrings
open Accumulator (Stump normalize)

variable {H : Type}

/-- `KIND_CHAIN` -/
def KIND_CHAIN : UInt32 := 0xC4A10002
/-- `KIND_RANGE` -/
def KIND_RANGE : UInt32 := 0xC4A10006

/-- The difficulty is set anew every 2016 blocks. -/
def RETARGET_INTERVAL : UInt32 := 2016

/-- `[u32; 8]`, an image id. -/
abbrev ImageId := List.Vector UInt32 8

/-- The state between two blocks: the `in_` and the `out_` fields of a range, and the fields of a
    chain state that the next block is checked against. -/
structure Boundary (H : Type) where
  tipHash : Bytes32
  roots : List (Option H)
  leaves : UInt64
  nbits : UInt32
  time : UInt32
  epochStart : UInt32
  recent : List UInt32
  deriving DecidableEq

/-- `RangeState`. Chainwork is a 256-bit number. -/
structure RangeState (H : Type) where
  kind : UInt32
  lo : UInt32
  hi : UInt32
  before : Boundary H
  inSmtRoot : H
  after : Boundary H
  outSmtRoot : H
  rangeWork : ℕ
  selfId : ImageId
  deriving DecidableEq

/-- `ChainState`: `tip` has its `tip_hash`, `utxo_roots`, `utxo_leaves`, `prev_nbits`,
    `prev_time`, `epoch_start` and `recent_times`. -/
structure ChainState (H : Type) where
  kind : UInt32
  tip : Boundary H
  cumWork : ℕ
  height : UInt32
  anchorId : H
  selfId : ImageId
  deriving DecidableEq

/-- `env::verify` and `risc0_zkvm::serde`. -/
structure Zkvm (H : Type) where
  /-- Whether the image has a receipt with this journal. -/
  verify : ImageId → Bytes → Bool
  decodeRange : Bytes → Option (RangeState H)
  decodeChain : Bytes → Option (ChainState H)
  decodeChunk : Bytes → Option (ChunkOut H)

/-- `add256` -/
def add256 (a b : ℕ) : ℕ := (a + b) % 2 ^ 256

/-- `median_time_past` -/
def medianTimePast (times : List UInt32) : UInt32 :=
  ((times.insertionSort (· ≤ ·))[times.length / 2]?).getD 0

/-- The last eleven timestamps. -/
def pushTime (recent : List UInt32) (time : UInt32) : List UInt32 :=
  (recent ++ [time]).drop ((recent ++ [time]).length - 11)

section Modes

variable [DecidableEq H] (hs : Hashing H) (core : Core)

/-- What a block at `height` is checked for against the state before it, and the state after. -/
def advance (b : Boundary H) (height : UInt32) (w : BlockWitness H) (r : BlockResult H) :
    Option (Boundary H) :=
  let prevhashOk := slice w.header 4 36 = b.tipHash.toList
  let carryOk := normalize w.rootPrev.roots = normalize b.roots ∧ w.rootPrev.numLeaves = b.leaves
  let expectedNbits := if height % RETARGET_INTERVAL ≠ 0 then b.nbits
    else calcNextBits core b.nbits b.epochStart b.time
  let retargetOk := r.nbits = expectedNbits
  let timeOk := medianTimePast b.recent < r.blockTime
  if r.blockValid ∧ prevhashOk ∧ carryOk ∧ retargetOk ∧ timeOk then
    some
      { tipHash := r.tipHash
        roots := r.rootNextRoots
        leaves := r.rootNextLeaves
        nbits := r.nbits
        time := r.blockTime
        epochStart := if height % RETARGET_INTERVAL = 0 then r.blockTime else b.epochStart
        recent := pushTime b.recent r.blockTime }
  else none

/-- `prove_range` -/
def proveRange (before : Boundary H) (w : BlockWitness H) (selfId : ImageId) :
    Option (RangeState H) := do
  let r ← validateBlock hs core w (medianTimePast before.recent) Chunks.none
  let after ← advance core before w.height w r
  some
    { kind := KIND_RANGE
      lo := w.height
      hi := w.height
      before := before
      inSmtRoot := w.inSmtRoot
      after := after
      outSmtRoot := r.outSmtRoot
      rangeWork := addWork core 0 r.nbits
      selfId := selfId }

/-- The seam of `fold_range`. -/
def seamOk (l r : RangeState H) : Prop :=
  l.hi + 1 = r.lo ∧ l.after.tipHash = r.before.tipHash ∧
    normalize l.after.roots = normalize r.before.roots ∧ l.after.leaves = r.before.leaves ∧
    l.after.nbits = r.before.nbits ∧ l.after.time = r.before.time ∧
    l.after.epochStart = r.before.epochStart ∧ l.after.recent = r.before.recent ∧
    l.outSmtRoot = r.inSmtRoot

instance (l r : RangeState H) : Decidable (seamOk l r) := by
  unfold seamOk
  infer_instance

/-- `fold_range` -/
def foldRange (zkvm : Zkvm H) (selfId : ImageId) (lJournal rJournal : Bytes) :
    Option (RangeState H) := do
  guard (zkvm.verify selfId lJournal)
  guard (zkvm.verify selfId rJournal)
  let l ← zkvm.decodeRange lJournal
  let r ← zkvm.decodeRange rJournal
  guard (l.kind = KIND_RANGE ∧ r.kind = KIND_RANGE)
  guard (l.selfId = selfId ∧ r.selfId = selfId)
  guard (seamOk l r)
  some
    { kind := KIND_RANGE
      lo := l.lo
      hi := r.hi
      before := l.before
      inSmtRoot := l.inSmtRoot
      after := r.after
      outSmtRoot := r.outSmtRoot
      rangeWork := add256 l.rangeWork r.rangeWork
      selfId := selfId }

/-- The part `chain_step` and `aggregate` share: the block on top of the previous chain state,
    with the scripts of the chunks when there are any. -/
def extendChain (zkvm : Zkvm H) (selfId : ImageId) (prevJournal : Bytes) (w : BlockWitness H)
    (isBase : UInt32) (chunks : Chunks H) : Option (ChainState H) := do
  guard (isBase = 0 → zkvm.verify selfId prevJournal)
  let prev ← zkvm.decodeChain prevJournal
  guard (prev.kind = KIND_CHAIN)
  guard (isBase = 0 → prev.selfId = selfId)
  guard (w.height = prev.height + 1)
  let r ← validateBlock hs core w (medianTimePast prev.tip.recent) chunks
  let tip ← advance core prev.tip (prev.height + 1) w r
  some
    { kind := KIND_CHAIN
      tip := tip
      cumWork := addWork core prev.cumWork r.nbits
      height := prev.height + 1
      anchorId := if isBase = 1 then hs.dsha256 prevJournal else prev.anchorId
      selfId := selfId }

/-- `chain_step` -/
def chainStep (zkvm : Zkvm H) (prevJournal : Bytes) (w : BlockWitness H) (isBase : UInt32)
    (selfId : ImageId) : Option (ChainState H) :=
  extendChain hs core zkvm selfId prevJournal w isBase Chunks.none

/-- One round of the loop over the chunks' journals. -/
def addJournal (zkvm : Zkvm H) (selfId : ImageId) (t : ChunkTotals H) (journal : Bytes) :
    Option (ChunkTotals H) := do
  guard (zkvm.verify selfId journal)
  let out ← zkvm.decodeChunk journal
  addChunk t out

/-- The journals of the chunks, each verified, decoded and added. -/
def addJournals (zkvm : Zkvm H) (selfId : ImageId) (journals : List Bytes) :
    Option (ChunkTotals H) := journals.foldlM (addJournal zkvm selfId) ChunkTotals.start

/-- `aggregate` -/
def aggregate (zkvm : Zkvm H) (selfId : ImageId) (chunkJournals : List Bytes)
    (prevJournal : Bytes) (w : BlockWitness H) (isBase : UInt32) : Option (ChainState H) := do
  let totals ← addJournals zkvm selfId chunkJournals
  extendChain hs core zkvm selfId prevJournal w isBase totals.chunks

/-! ## What a committed state stands on -/

/-- The two states are the same, the roots up to trailing `None`s. -/
def Boundary.Agrees (a b : Boundary H) : Prop :=
  a.tipHash = b.tipHash ∧ normalize a.roots = normalize b.roots ∧ a.leaves = b.leaves ∧
    a.nbits = b.nbits ∧ a.time = b.time ∧ a.epochStart = b.epochStart ∧ a.recent = b.recent

omit [DecidableEq H] in
/-- A state agrees with itself. -/
theorem Boundary.Agrees.refl (a : Boundary H) : a.Agrees a :=
  ⟨rfl, rfl, rfl, rfl, rfl, rfl, rfl⟩

omit [DecidableEq H] in
/-- Agreement goes both ways. -/
theorem Boundary.Agrees.symm {a b : Boundary H} (h : a.Agrees b) : b.Agrees a := by
  obtain ⟨htip, hroots, hleaves, hnbits, htime, hepoch, hrecent⟩ := h
  exact ⟨htip.symm, hroots.symm, hleaves.symm, hnbits.symm, htime.symm, hepoch.symm, hrecent.symm⟩

/-- The difficulty bits that a block at `height` has to have. -/
def expectedNbits (b : Boundary H) (height : UInt32) : UInt32 :=
  if height % RETARGET_INTERVAL ≠ 0 then b.nbits else calcNextBits core b.nbits b.epochStart b.time

/-- The state after a block at `height`. -/
def Boundary.next (b : Boundary H) (height : UInt32) (r : BlockResult H) : Boundary H where
  tipHash := r.tipHash
  roots := r.rootNextRoots
  leaves := r.rootNextLeaves
  nbits := r.nbits
  time := r.blockTime
  epochStart := if height % RETARGET_INTERVAL = 0 then r.blockTime else b.epochStart
  recent := pushTime b.recent r.blockTime

/-- What a block owes to the state before it, and that it passes. -/
structure Extends (b : Boundary H) (height : UInt32) (w : BlockWitness H) (r : BlockResult H) :
    Prop where
  /-- Every flag of the block check holds. -/
  valid : r.blockValid = true
  /-- The header names the tip of the state. -/
  prevhash : slice w.header 4 36 = b.tipHash.toList
  /-- The accumulator that the block spends from is that of the state. -/
  roots : normalize w.rootPrev.roots = normalize b.roots
  leaves : w.rootPrev.numLeaves = b.leaves
  /-- Its target is what the state expects at this height. -/
  nbits : r.nbits = expectedNbits core b height
  /-- It is later than the median of the state's last eleven times. -/
  time : medianTimePast b.recent < r.blockTime

variable {hs core} {b b' : Boundary H} {height : UInt32} {w : BlockWitness H} {r : BlockResult H}

/-- **A block advances the state exactly when it extends it.** -/
theorem advance_eq_some :
    advance core b height w r = some b' ↔ Extends core b height w r ∧ b' = b.next height r := by
  dsimp only [advance]
  rw [Option.ite_none_right_eq_some, Option.some_inj]
  constructor
  · rintro ⟨⟨hvalid, hprevhash, ⟨hroots, hleaves⟩, hnbits, htime⟩, rfl⟩
    exact ⟨⟨hvalid, hprevhash, hroots, hleaves, hnbits, htime⟩, rfl⟩
  · rintro ⟨h, rfl⟩
    exact ⟨⟨h.valid, h.prevhash, ⟨h.roots, h.leaves⟩, h.nbits, h.time⟩, rfl⟩

/-- A chain state is committed for a block that extends the previous one and passes. -/
theorem extendChain_eq_some {zkvm : Zkvm H} {selfId : ImageId} {prevJournal : Bytes}
    {isBase : UInt32} {chunks : Chunks H} {st : ChainState H} :
    extendChain hs core zkvm selfId prevJournal w isBase chunks = some st ↔
      ∃ prev r, (isBase = 0 → zkvm.verify selfId prevJournal = true) ∧
        zkvm.decodeChain prevJournal = some prev ∧ prev.kind = KIND_CHAIN ∧
        (isBase = 0 → prev.selfId = selfId) ∧ w.height = prev.height + 1 ∧
        validateBlock hs core w (medianTimePast prev.tip.recent) chunks = some r ∧
        Extends core prev.tip w.height w r ∧
        st = { kind := KIND_CHAIN, tip := prev.tip.next w.height r,
               cumWork := addWork core prev.cumWork r.nbits, height := w.height,
               anchorId := if isBase = 1 then hs.dsha256 prevJournal else prev.anchorId,
               selfId := selfId } := by
  constructor
  · intro h
    obtain ⟨_, hverify, h⟩ := Option.bind_eq_some_iff.mp h
    obtain ⟨prev, hprev, h⟩ := Option.bind_eq_some_iff.mp h
    obtain ⟨_, hkind, h⟩ := Option.bind_eq_some_iff.mp h
    obtain ⟨_, hself, h⟩ := Option.bind_eq_some_iff.mp h
    obtain ⟨_, hheight, h⟩ := Option.bind_eq_some_iff.mp h
    obtain ⟨r, hr, h⟩ := Option.bind_eq_some_iff.mp h
    obtain ⟨tip, htip, h⟩ := Option.bind_eq_some_iff.mp h
    cases h
    rw [Option.guard_eq_some'] at hverify hkind hself hheight
    rw [← hheight] at htip
    obtain ⟨hextends, rfl⟩ := advance_eq_some.mp htip
    exact ⟨prev, r, hverify, hprev, hkind, hself, hheight, hr, hextends, by rw [hheight]⟩
  · rintro ⟨prev, r, hverify, hprev, hkind, hself, hheight, hr, hextends, rfl⟩
    have htip := advance_eq_some.mpr ⟨hextends, rfl⟩
    rw [hheight] at htip
    rw [extendChain]
    simp only [(Option.guard_eq_some' ()).mpr hverify, hprev, hkind,
      (Option.guard_eq_some' ()).mpr hself, hheight, hr, htip, guard_true, Option.bind_eq_bind,
      Option.bind_some, Option.pure_def]

/-- A range is committed for a block that passes on the state before it. -/
theorem proveRange_eq_some {before : Boundary H} {selfId : ImageId} {st : RangeState H} :
    proveRange hs core before w selfId = some st ↔
      ∃ r, validateBlock hs core w (medianTimePast before.recent) Chunks.none = some r ∧
        Extends core before w.height w r ∧
        st = { kind := KIND_RANGE, lo := w.height, hi := w.height, before := before,
               inSmtRoot := w.inSmtRoot, after := before.next w.height r,
               outSmtRoot := r.outSmtRoot, rangeWork := addWork core 0 r.nbits,
               selfId := selfId } := by
  constructor
  · intro h
    obtain ⟨r, hr, h⟩ := Option.bind_eq_some_iff.mp h
    obtain ⟨after, hafter, h⟩ := Option.bind_eq_some_iff.mp h
    cases h
    obtain ⟨hextends, rfl⟩ := advance_eq_some.mp hafter
    exact ⟨r, hr, hextends, rfl⟩
  · rintro ⟨r, hr, hextends, rfl⟩
    rw [proveRange, hr, Option.bind_eq_bind, Option.bind_some,
      advance_eq_some.mpr ⟨hextends, rfl⟩]
    rfl

/-- Two ranges fold exactly when both verify under the id and they meet at the seam. -/
theorem foldRange_eq_some {zkvm : Zkvm H} {selfId : ImageId} {lJournal rJournal : Bytes}
    {st : RangeState H} :
    foldRange zkvm selfId lJournal rJournal = some st ↔
      ∃ l r, zkvm.verify selfId lJournal = true ∧ zkvm.verify selfId rJournal = true ∧
        zkvm.decodeRange lJournal = some l ∧ zkvm.decodeRange rJournal = some r ∧
        (l.kind = KIND_RANGE ∧ r.kind = KIND_RANGE) ∧ (l.selfId = selfId ∧ r.selfId = selfId) ∧
        seamOk l r ∧
        st = { kind := KIND_RANGE, lo := l.lo, hi := r.hi, before := l.before,
               inSmtRoot := l.inSmtRoot, after := r.after, outSmtRoot := r.outSmtRoot,
               rangeWork := add256 l.rangeWork r.rangeWork, selfId := selfId } := by
  constructor
  · intro h
    obtain ⟨_, hl, h⟩ := Option.bind_eq_some_iff.mp h
    obtain ⟨_, hr, h⟩ := Option.bind_eq_some_iff.mp h
    obtain ⟨l, hdl, h⟩ := Option.bind_eq_some_iff.mp h
    obtain ⟨r, hdr, h⟩ := Option.bind_eq_some_iff.mp h
    obtain ⟨_, hkind, h⟩ := Option.bind_eq_some_iff.mp h
    obtain ⟨_, hself, h⟩ := Option.bind_eq_some_iff.mp h
    obtain ⟨_, hseam, h⟩ := Option.bind_eq_some_iff.mp h
    cases h
    rw [Option.guard_eq_some'] at hl hr hkind hself hseam
    exact ⟨l, r, hl, hr, hdl, hdr, hkind, hself, hseam, rfl⟩
  · rintro ⟨l, r, hl, hr, hdl, hdr, hkind, hself, hseam, rfl⟩
    rw [foldRange]
    simp only [hl, hr, hdl, hdr, hkind.1, hkind.2, hself.1, hself.2, hseam, guard_true,
      Option.bind_eq_bind, Option.bind_some, Option.pure_def, and_self]

theorem advance_ok (h : advance core b height w r = some b') :
    r.blockValid = true ∧ slice w.header 4 36 = b.tipHash.toList ∧
      (normalize w.rootPrev.roots = normalize b.roots ∧ w.rootPrev.numLeaves = b.leaves) ∧
      medianTimePast b.recent < r.blockTime ∧ b'.roots = r.rootNextRoots ∧
      b'.leaves = r.rootNextLeaves ∧ b'.time = r.blockTime ∧
      b'.recent = pushTime b.recent r.blockTime := by
  obtain ⟨he, rfl⟩ := advance_eq_some.mp h
  exact ⟨he.valid, he.prevhash, ⟨he.roots, he.leaves⟩, he.time, rfl, rfl, rfl, rfl⟩

theorem extendChain_ok {zkvm : Zkvm H} {selfId : ImageId} {prevJournal : Bytes}
    {isBase : UInt32} {chunks : Chunks H} {st : ChainState H}
    (h : extendChain hs core zkvm selfId prevJournal w isBase chunks = some st) :
    ∃ prev r, zkvm.decodeChain prevJournal = some prev ∧ w.height = prev.height + 1 ∧
      validateBlock hs core w (medianTimePast prev.tip.recent) chunks = some r ∧
      advance core prev.tip w.height w r = some st.tip ∧ st.height = w.height := by
  obtain ⟨prev, r, -, hprev, -, -, hheight, hr, hextends, rfl⟩ := extendChain_eq_some.mp h
  exact ⟨prev, r, hprev, hheight, hr, advance_eq_some.mpr ⟨hextends, rfl⟩, rfl⟩

theorem proveRange_ok {before : Boundary H} {selfId : ImageId} {st : RangeState H}
    (h : proveRange hs core before w selfId = some st) :
    ∃ r, validateBlock hs core w (medianTimePast before.recent) Chunks.none = some r ∧
      advance core before w.height w r = some st.after ∧ st.before = before ∧
      st.lo = w.height ∧ st.hi = w.height ∧ st.inSmtRoot = w.inSmtRoot ∧
      st.outSmtRoot = r.outSmtRoot := by
  obtain ⟨r, hr, hextends, rfl⟩ := proveRange_eq_some.mp h
  exact ⟨r, hr, advance_eq_some.mpr ⟨hextends, rfl⟩, rfl, rfl, rfl, rfl, rfl⟩

end Modes
end Guest
end Hazync
