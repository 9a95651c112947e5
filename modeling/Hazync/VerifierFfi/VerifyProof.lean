import Mathlib.Data.List.ReduceOption
import Hazync.Guest.Genesis

/-!
# The C interface to the verifier (`hazync_verify_proof`, `verifier-ffi/src/lib.rs`)

A node hands in the bytes of a receipt and gets the chain state that it commits to. The state has
room for 32 roots and takes the non-empty ones only, so the heights they stand at are not in it.

The pointers are not null here, `usize` is of 64 bits, and the receipt is a parameter: risc0 and
`bincode` are not part of the repository.

## What a node gets

A node that calls this has the bytes of a receipt and wants a state to start from. The answer is a
code and, if that is success, a structure of fixed size that the function has filled in. It has what
a header chain needs to be continued, and the roots of the set of unspent coins. The order of the
checks is that of the source: the receipt is read, verified under the image that is built in, its
journal decoded, and then the journal is checked, with a code for each thing that can be wrong.

What the soundness of the proof system gives is stated where it is used. Here it is only said what
the function has seen when it succeeds: a receipt that verifies under the image's id, with a journal
of a range that was folded under the same id and begins at genesis (`hazyncVerifyProof_ok`).

The id is kept as text and turned into words each time. It is a constant, and the conversion
succeeds on it, but that is a computation and not an assumption.
-/

namespace Hazync
namespace VerifierFfi

open ByteStrings Guest
open Accumulator (normalize)

variable {H : Type}

/-- The id of the guest's image, as text. -/
def METHOD_ID_HEX : String := "37987b85ec665970ac6c5e8031deb8160ac8ed846f09056c3790b5f78c8bb5dd"

def HAZYNC_OK : Int32 := 0
def HAZYNC_ERR_NULL : Int32 := -1
def HAZYNC_ERR_PARSE : Int32 := -2
def HAZYNC_ERR_PROOF : Int32 := -3
def HAZYNC_ERR_JOURNAL : Int32 := -4
def HAZYNC_ERR_NOT_ANCHORED : Int32 := -5
def HAZYNC_ERR_SELF_ID : Int32 := -6
def HAZYNC_ERR_KIND : Int32 := -7
def HAZYNC_ERR_TOO_MANY_ROOTS : Int32 := -8
def HAZYNC_ERR_DUMP_MAGIC : Int32 := -9
def HAZYNC_ERR_DUMP_VERSION : Int32 := -10
def HAZYNC_ERR_DUMP_HEIGHT : Int32 := -11
def HAZYNC_ERR_DUMP_COUNT : Int32 := -12
def HAZYNC_ERR_DUMP_TRUNC : Int32 := -13
def HAZYNC_ERR_DUMP_POS : Int32 := -14
def HAZYNC_ERR_DUMP_ROOTS : Int32 := -15

/-- So many roots have a place. -/
def HAZYNC_MAX_ROOTS : ℕ := 32

/-- `HazyncState` -/
structure HazyncState (H : Type) where
  height : UInt32
  /-- In display order. -/
  tipHash : Bytes32
  cumulativeWorkLo : UInt64
  cumulativeWorkHi : UInt64
  utxoLeaves : UInt64
  nextBits : UInt32
  epochStartTime : UInt32
  prevTime : UInt32
  rootCount : UInt32
  utxoRoots : List.Vector H HAZYNC_MAX_ROOTS

/-- The roots that are there: the array is filled up with zeros. -/
def HazyncState.roots (pv : HazyncState H) : List H := pv.utxoRoots.toList.take pv.rootCount.toNat

/-- The receipts of risc0: `bincode::deserialize`, `Receipt::verify` and the journal. -/
structure Receipts where
  Receipt : Type
  deserialize : Bytes → Option Receipt
  verify : Receipt → ImageId → Bool
  journal : Receipt → Bytes

/-! ## The code -/

/-- The value of a hexadecimal digit. -/
def hexDigit (c : Char) : Option ℕ :=
  if '0' ≤ c ∧ c ≤ '9' then some (c.toNat - '0'.toNat)
  else if 'a' ≤ c ∧ c ≤ 'f' then some (c.toNat - 'a'.toNat + 10)
  else if 'A' ≤ c ∧ c ≤ 'F' then some (c.toNat - 'A'.toNat + 10)
  else none

/-- The characters two by two. -/
def hexBytes : List Char → Option Bytes
  | a :: b :: rest => do
    let hi ← hexDigit a
    let lo ← hexDigit b
    let bytes ← hexBytes rest
    some (UInt8.ofNat (16 * hi + lo) :: bytes)
  | [] => some []
  | _ => none

/-- `method_id_words` -/
def methodIdWords : Option ImageId := do
  let b ← hexBytes METHOD_ID_HEX.toList
  let words ← (List.range 8).mapM fun i => (slice? b (i * 4) (i * 4 + 4)).map fun w =>
    UInt32.ofNat (ofLe w)
  if h : words.length = 8 then some ⟨words, h⟩ else none

/-- `work_u128`: the low half of the 256-bit work. -/
def workU128 (work : ℕ) : ℕ := work % 2 ^ 128

/-- `total_work`, which wraps in a release build. -/
def totalWork (st : RangeState H) : ℕ := (GENESIS_WORK + workU128 st.rangeWork) % 2 ^ 128

/-- The struct that `hazync_verify_proof` fills in. -/
def writeState (hs : Hashing H) (st : RangeState H) (present : List H) : HazyncState H where
  height := st.hi
  tipHash := ⟨st.after.tipHash.toList.reverse, by simp⟩
  cumulativeWorkLo := UInt64.ofNat (totalWork st)
  cumulativeWorkHi := UInt64.ofNat (totalWork st >>> 64)
  utxoLeaves := st.after.leaves
  nextBits := st.after.nbits
  epochStartTime := st.after.epochStart
  prevTime := st.after.time
  rootCount := UInt32.ofNat present.length
  utxoRoots := List.Vector.ofFn fun i => present[i.val]?.getD hs.zero

/-- The checks from the decoded journal on. -/
def writeRange [DecidableEq H] (hs : Hashing H) (words : ImageId) (st : RangeState H) :
    Except Int32 (HazyncState H) :=
  if st.selfId ≠ words then .error HAZYNC_ERR_SELF_ID
  else if st.kind ≠ KIND_RANGE then .error HAZYNC_ERR_KIND
  else if st.isGenesisAnchored hs ≠ .ok () then .error HAZYNC_ERR_NOT_ANCHORED
  else
    let present := (normalize st.after.roots).reduceOption
    if HAZYNC_MAX_ROOTS < present.length then .error HAZYNC_ERR_TOO_MANY_ROOTS
    else .ok (writeState hs st present)

/-- `hazync_verify_proof`: the code of a failure, or the state it has written. -/
def hazyncVerifyProof [DecidableEq H] (hs : Hashing H) (zkvm : Zkvm H) (receipts : Receipts)
    (proof : Bytes) : Except Int32 (HazyncState H) :=
  if proof.length = 0 then .error HAZYNC_ERR_NULL
  else
    match receipts.deserialize proof with
    | none => .error HAZYNC_ERR_PARSE
    | some receipt =>
      match methodIdWords with
      | none => .error HAZYNC_ERR_PARSE
      | some words =>
        if receipts.verify receipt words = false then .error HAZYNC_ERR_PROOF
        else
          match zkvm.decodeRange (receipts.journal receipt) with
          | none => .error HAZYNC_ERR_JOURNAL
          | some st => writeRange hs words st

/-! ## What a success says -/

section

variable [DecidableEq H] {hs : Hashing H} {zkvm : Zkvm H} {receipts : Receipts} {proof : Bytes}
  {pv : HazyncState H}

/-- What a range has passed when its state is written. -/
structure Verified (hs : Hashing H) (words : ImageId) (st : RangeState H) : Prop where
  /-- It was folded under the id of the pinned image. -/
  selfId : st.selfId = words
  kind : st.kind = KIND_RANGE
  /-- It begins at genesis. -/
  anchored : st.isGenesisAnchored hs = .ok ()
  /-- Its roots fit into the C structure. -/
  room : (normalize st.after.roots).reduceOption.length ≤ HAZYNC_MAX_ROOTS

/-- What a range has passed when its state is written. -/
theorem writeRange_ok {words : ImageId} {st : RangeState H} (h : writeRange hs words st = .ok pv) :
    Verified hs words st ∧ pv = writeState hs st (normalize st.after.roots).reduceOption := by
  unfold writeRange at h
  split at h
  · cases h
  rename_i hself
  split at h
  · cases h
  rename_i hkind
  split at h
  · cases h
  rename_i hanchored
  dsimp only at h
  split at h
  · cases h
  rename_i hroom
  exact ⟨⟨not_not.mp hself, not_not.mp hkind, not_not.mp hanchored, Nat.not_lt.mp hroom⟩,
    (Except.ok.inj h).symm⟩

/-- And such a range is written. -/
theorem Verified.writeRange {words : ImageId} {st : RangeState H} (h : Verified hs words st) :
    writeRange hs words st = .ok (writeState hs st (normalize st.after.roots).reduceOption) := by
  rw [VerifierFfi.writeRange, if_neg (not_not.mpr h.selfId), if_neg (not_not.mpr h.kind),
    if_neg (not_not.mpr h.anchored)]
  exact if_neg (Nat.not_lt.mpr h.room)

/-- A state is written from the journal of a receipt under the pinned image. -/
theorem hazyncVerifyProof_ok (h : hazyncVerifyProof hs zkvm receipts proof = .ok pv) :
    ∃ words receipt st, methodIdWords = some words ∧ receipts.verify receipt words = true ∧
      zkvm.decodeRange (receipts.journal receipt) = some st ∧ Verified hs words st ∧
      pv = writeState hs st (normalize st.after.roots).reduceOption := by
  unfold hazyncVerifyProof at h
  split at h
  · cases h
  cases hreceipt : receipts.deserialize proof with
  | none =>
    rw [hreceipt] at h
    cases h
  | some receipt =>
    rw [hreceipt] at h
    cases hwords : methodIdWords with
    | none =>
      rw [hwords] at h
      cases h
    | some words =>
      rw [hwords] at h
      dsimp only at h
      split at h
      · cases h
      rename_i hverify
      cases hst : zkvm.decodeRange (receipts.journal receipt) with
      | none =>
        rw [hst] at h
        cases h
      | some st =>
        rw [hst] at h
        obtain ⟨hverified, hpv⟩ := writeRange_ok h
        exact ⟨words, receipt, st, rfl, Bool.not_eq_false _ ▸ hverify, hst, hverified, hpv⟩

end

/-! ## The roots of a written state -/

section

variable {hs : Hashing H} {st : RangeState H} {present : List H}

/-- The roots that are written are read back. -/
theorem roots_writeState (h : present.length ≤ HAZYNC_MAX_ROOTS) :
    (writeState hs st present).roots = present := by
  have hcount : (UInt32.ofNat present.length).toNat = present.length := by
    rw [UInt32.toNat_ofNat', Nat.mod_eq_of_lt (lt_of_le_of_lt h (by decide))]
  have hroots : (writeState hs st present).utxoRoots.toList =
      List.ofFn fun i : Fin HAZYNC_MAX_ROOTS => present[i.val]?.getD hs.zero :=
    List.Vector.toList_ofFn _
  rw [HazyncState.roots, hroots, writeState, hcount]
  apply List.ext_getElem
  · simpa using h
  · intro i _ hi
    simp [hi]

end

end VerifierFfi
end Hazync
