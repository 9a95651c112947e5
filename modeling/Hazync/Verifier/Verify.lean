import Hazync.VerifierFfi.VerifyProof

/-!
# The standalone verifier (`verify`, `verifier/src/lib.rs`)

The check of the command line tool and of the browser build. A receipt that does not verify or that
lies about itself is `Invalid`, and a sound proof of a range that starts elsewhere is `NotAnchored`;
only a genesis-anchored range has a value. The receipts are the parameter they are in the C
interface.

## An answer with a reason

Unlike the C interface, which returns a code, this function is for people. Its errors are texts, and
there are two kinds: the proof is bad, or the proof is good and does not say what was asked for. A
range that starts later than genesis is of the second kind. The text names the range. So the order
of the checks is visible from outside: what stands before the predicate of the anchor only decides
which error it is (`verifyJournal_eq_ok`).

The id of the image is compared as text, of 64 digits, with the one that is built in. The text of an
id tells the id, as each byte has two digits, so that comparing the texts is comparing the words
(`selfIdHex_eq_iff`). Numbers are reported as they are; the work is a 256-bit number in the journal,
and the low half of it is added to that of genesis in 128 bits.
-/

namespace Hazync
namespace Verifier

open ByteStrings Guest
open Accumulator (normalize)
open VerifierFfi (METHOD_ID_HEX Receipts methodIdWords workU128)

variable {H : Type}

/-- `VerifyError`. Of a text that ends in what a library reports, the part before it. -/
inductive VerifyError where
  | invalid (detail : String)
  | notAnchored (lo hi : UInt32) (detail : String)
  deriving DecidableEq

/-- What is said of a range that is anchored. -/
structure Verified (H : Type) where
  height : UInt32
  /-- In display order. -/
  tipHash : String
  tipHashInternal : String
  cumulativeWork : ℕ
  rangeWork : ℕ
  utxoLeaves : UInt64
  utxoRoots : List String
  nextBits : UInt32
  epochStartTime : UInt32
  recentTimes : List UInt32
  proofBytes : ℕ

/-- `&s[..n]` -/
def head (s : String) (n : ℕ) : String := String.ofList (s.toList.take n)

/-- The value of a verified range. The sum wraps in a release build. -/
def verified (hs : Hashing H) (st : RangeState H) (proofBytes : ℕ) : Verified H where
  height := st.hi
  tipHash := hex st.after.tipHash.toList.reverse
  tipHashInternal := hex st.after.tipHash.toList
  cumulativeWork := (GENESIS_WORK + workU128 st.rangeWork) % 2 ^ 128
  rangeWork := workU128 st.rangeWork
  utxoLeaves := st.after.leaves
  utxoRoots := st.after.roots.filterMap fun r => r.map fun h => hex (hs.bytes h)
  nextBits := st.after.nbits
  epochStartTime := st.after.epochStart
  recentTimes := st.after.recent
  proofBytes := proofBytes

/-- `self_id` as text, word by word. -/
def selfIdHex (st : RangeState H) : String := hex (st.selfId.toList.flatMap le32)

/-- The assertions on a decoded journal. -/
def verifyJournal [DecidableEq H] (hs : Hashing H) (st : RangeState H) (proofBytes : ℕ) :
    Except VerifyError (Verified H) :=
  if selfIdHex st ≠ METHOD_ID_HEX then
    .error (.invalid ("journal self_id " ++ head (selfIdHex st) 16 ++ " != guest image id " ++
      head METHOD_ID_HEX 16))
  else if st.kind ≠ KIND_RANGE then
    .error (.invalid "receipt is not a RangeState (wrong domain tag)")
  else if st.lo ≠ 1 then
    .error (.notAnchored st.lo st.hi "Its range starts above block 1.")
  else if st.before.tipHash ≠ GENESIS_HASH then
    .error (.notAnchored st.lo st.hi "Its in-boundary tip is not the genesis block hash.")
  else
    match st.isGenesisAnchored hs with
    | .error detail => .error (.invalid ("in-boundary is not genesis: " ++ detail))
    | .ok () => .ok (verified hs st proofBytes)

/-- `verify` -/
def verify [DecidableEq H] (hs : Hashing H) (zkvm : Zkvm H) (receipts : Receipts)
    (bytes : Bytes) : Except VerifyError (Verified H) :=
  match receipts.deserialize bytes with
  | none => .error (.invalid "not a receipt: ")
  | some receipt =>
    match methodIdWords with
    | none => .error (.invalid "bad embedded METHOD_ID")
    | some imageId =>
      if receipts.verify receipt imageId = false then
        .error (.invalid ("the proof is not valid for guest " ++ head METHOD_ID_HEX 8 ++
          " — forged, tampered, corrupt, or produced by a different guest build.\n  underlying: "))
      else
        match zkvm.decodeRange (receipts.journal receipt) with
        | none => .error (.invalid "journal is not a RangeState: ")
        | some st => verifyJournal hs st bytes.length

/-! ## The image id as text -/

/-- The embedded text is that of the embedded words. -/
theorem methodIdHex_eq {words : ImageId} (h : methodIdWords = some words) :
    hex (words.toList.flatMap le32) = METHOD_ID_HEX := by
  have hmap : methodIdWords.map (fun w => hex (w.toList.flatMap le32)) = some METHOD_ID_HEX := by
    decide
  rw [h] at hmap
  exact Option.some.inj hmap

/-- The text of `self_id` is the embedded one exactly when the words are. -/
theorem selfIdHex_eq_iff {words : ImageId} (h : methodIdWords = some words) {st : RangeState H} :
    selfIdHex st = METHOD_ID_HEX ↔ st.selfId = words := by
  rw [← methodIdHex_eq h, selfIdHex]
  constructor
  · intro heq
    have hbytes := hex_injective heq
    have hlen : st.selfId.toList.length = words.toList.length := by
      rw [List.Vector.toList_length, List.Vector.toList_length]
    rw [← List.append_nil (st.selfId.toList.flatMap le32),
      ← List.append_nil (words.toList.flatMap le32)] at hbytes
    exact List.Vector.toList_injective (flatMap_append_inj le32_append_inj hlen hbytes).1
  · rintro rfl
    rfl

section

variable [DecidableEq H] {hs : Hashing H} {st : RangeState H} {words : ImageId} {n : ℕ}

/-- What stands before the shared predicate is in it, so it only chooses the error. -/
theorem verifyJournal_eq_ok (h : methodIdWords = some words) {v : Verified H} :
    verifyJournal hs st n = .ok v ↔ (st.selfId = words ∧ st.kind = KIND_RANGE ∧
      st.isGenesisAnchored hs = .ok ()) ∧ v = verified hs st n := by
  rw [verifyJournal]
  by_cases hself : selfIdHex st ≠ METHOD_ID_HEX
  · rw [if_pos hself]
    refine iff_of_false nofun fun hok => hself ?_
    exact (selfIdHex_eq_iff h).mpr hok.1.1
  rw [if_neg hself, ← selfIdHex_eq_iff h, and_iff_right (not_not.mp hself)]
  by_cases hkind : st.kind ≠ KIND_RANGE
  · rw [if_pos hkind]
    exact iff_of_false nofun fun hok => hkind hok.1.1
  rw [if_neg hkind, and_iff_right (not_not.mp hkind)]
  by_cases hlo : st.lo ≠ 1
  · rw [if_pos hlo]
    exact iff_of_false nofun fun hok => hlo (isGenesisAnchored_iff.mp hok.1).1
  rw [if_neg hlo]
  by_cases htip : st.before.tipHash ≠ GENESIS_HASH
  · rw [if_pos htip]
    exact iff_of_false nofun fun hok => htip (isGenesisAnchored_iff.mp hok.1).2.1.1
  rw [if_neg htip]
  cases st.isGenesisAnchored hs with
  | error detail => exact iff_of_false nofun fun hok => nomatch hok.1
  | ok u => exact ⟨fun hok => ⟨rfl, (Except.ok.inj hok).symm⟩, fun hok => by rw [hok.2]⟩

end

end Verifier
end Hazync
