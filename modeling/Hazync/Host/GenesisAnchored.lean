import Hazync.Accumulator.Forest
import Hazync.Coordinator.RangeId
import Hazync.Host.BoundaryDigest
import Hazync.VerifierFfi.DumpExact
import Hazync.Verifier.Verify

/-!
# What genesis-anchored means (`prover/host/src/main.rs`, `coordinator/server.py`)

Five consumers check a range receipt. The standalone verifier and the C interface call the shared
predicate; `verify-range` and `verify-snark` of the host call a copy of it that is kept by hand;
`verify-any` calls the copy only where the range claims the genesis tip, and the coordinator then
looks at two strings of the line it prints. They accept the same journals as anchored, and say the
same of them.

`METHOD_ID` of the host is a parameter: the build of the guest makes it. A panic, and an exit of
the process, are `none`.

## Why five

That a range starts at genesis is said in several places because the readers are different programs:
a binary for anybody, a library for node software written in C, two commands that the operator runs
by hand, and a coordinator that calls the host and reads one line of its output. If one of them were
more lenient than the others, a receipt could be shown as proved from genesis by the one and refused
by another. So they are compared, field by field.

All of them have the same beginning: read the receipt, verify it under the image, decode the journal
(`journal?`). What follows is a list of checks, and `Anchored` is that list: the id of the guest,
the kind, and the predicate `isGenesisAnchored` of the journal. `verify-any` is different. It
accepts ranges that are not anchored, and pins the boundary only where the range names the genesis
tip; the coordinator then asks of the line whether the tip is that of genesis and the first block is
1. Neither alone would do, and the two together are the predicate (`verifyAnyCmd_eq_some`).

Two differences are left, and the statement says them. The C interface has a fixed number of root
slots, and says so where a forest has more. And the host prints 128 bits of the work, so what they
say of it is compared where the work fits.
-/

namespace Hazync
namespace Host

open ByteStrings Guest
open Accumulator (Forest normalize)
open VerifierFfi (HazyncState HAZYNC_ERR_TOO_MANY_ROOTS Receipts hazyncVerifyProof methodIdWords
  workU128 writeRange writeState)
open Verifier (verify verifyJournal verified)

variable {H : Type}

/-! ## The commands of the host -/

section

variable [DecidableEq H] (hs : Hashing H)

/-- `assert_genesis_in_boundary` -/
def assertGenesisInBoundary (st : RangeState H) : Option Unit := do
  guard (st.lo = 1)
  guard (st.before.tipHash = GENESIS_HASH)
  guard (st.before.leaves = 0)
  guard (st.before.nbits = GENESIS_BITS)
  guard (st.before.epochStart = GENESIS_TIME)
  let empty ← (Forest.new : Forest H).roots
  guard (normalize st.before.roots = normalize empty)
  guard (st.before.recent = [GENESIS_TIME])
  guard (st.before.time = GENESIS_TIME)
  guard (st.inSmtRoot = Smt.emptyRoot hs)

variable (zkvm : Zkvm H) (receipts : Receipts) (methodId : ImageId)

/-- `verify_receipt`, which ends the process where the receipt does not verify. -/
def verifyReceipt (r : receipts.Receipt) : Option Unit := guard (receipts.verify r methodId = true)

/-- What `verify-range` and `verify-snark` print. -/
structure RangeReport where
  hi : UInt32
  outTipHash : String
  rangeWork : ℕ
  totalCumWork : ℕ
  utxoLeaves : UInt64
  deriving DecidableEq

/-- The report of a range: `total` is a 256-bit number, and printed by its low half. -/
def report (st : RangeState H) : RangeReport where
  hi := st.hi
  outTipHash := hex st.after.tipHash.toList
  rangeWork := workU128 st.rangeWork
  totalCumWork := workU128 (add256 GENESIS_WORK st.rangeWork)
  utxoLeaves := st.after.leaves

/-- `verify_range_cmd` -/
def verifyRangeCmd (bin : Bytes) : Option RangeReport := do
  let r ← receipts.deserialize bin
  verifyReceipt receipts methodId r
  let st ← zkvm.decodeRange (receipts.journal r)
  guard (st.selfId = methodId)
  guard (st.kind = KIND_RANGE)
  guard (st.lo = 1)
  assertGenesisInBoundary hs st
  some (report st)

/-- `verify_snark_cmd`, which prints the size of the file as well. -/
def verifySnarkCmd (bin : Bytes) : Option (RangeReport × ℕ) := do
  let r ← receipts.deserialize bin
  verifyReceipt receipts methodId r
  let st ← zkvm.decodeRange (receipts.journal r)
  guard (st.selfId = methodId)
  guard (st.kind = KIND_RANGE)
  guard (st.lo = 1)
  assertGenesisInBoundary hs st
  some (report st, bin.length)

/-- The values of the `RANGE-OK` line, as they are printed. -/
structure RangeOk where
  lo : String
  hi : String
  inTip : String
  outTip : String
  outLeaves : String
  rangeWork : String
  inBhash : String
  outBhash : String
  anchored : String
  deriving DecidableEq

def rangeOk (st : RangeState H) : RangeOk where
  lo := toString st.lo.toNat
  hi := toString st.hi.toNat
  inTip := hex st.before.tipHash.toList
  outTip := hex st.after.tipHash.toList
  outLeaves := toString st.after.leaves.toNat
  rangeWork := toString (workU128 st.rangeWork)
  inBhash := hex (hs.bytes (inBhash hs st))
  outBhash := hex (hs.bytes (outBhash hs st))
  anchored := if st.before.tipHash = GENESIS_HASH ∧ st.lo = 1 then "yes" else "no"

/-- `verify_any_cmd`: the pin stands only where the range claims the genesis tip. -/
def verifyAnyCmd (bin : Bytes) : Option RangeOk := do
  let r ← receipts.deserialize bin
  verifyReceipt receipts methodId r
  let st ← zkvm.decodeRange (receipts.journal r)
  guard (st.selfId = methodId)
  guard (st.kind = KIND_RANGE)
  if st.before.tipHash = GENESIS_HASH then
    assertGenesisInBoundary hs st
  some (rangeOk hs st)

end

/-! ## The coordinator -/

/-- `GENESIS_TIP`, where the environment does not set another. -/
def GENESIS_TIP : String := "6fe28c0ab6f1b372c1a6a246ae63f74f931e8365e15a089c68d6190000000000"

/-- `is_genesis_anchored` -/
def isGenesisAnchored (inTip lo : String) : Bool :=
  inTip = GENESIS_TIP ∧ Coordinator.int lo.toList = some 1

/-- The constant of the coordinator is the hash that the guest pins. -/
theorem hex_genesisHash : hex GENESIS_HASH.toList = GENESIS_TIP := by decide

/-! ## The copies agree -/

theorem guard_eq_some {p : Prop} [Decidable p] {u : Unit} :
    (guard p : Option Unit) = some u ↔ p := by
  by_cases hp : p <;> simp [guard, hp]

theorem guard_bind_eq_some {α : Type} {p : Prop} [Decidable p] {f : Unit → Option α} {a : α} :
    (guard p : Option Unit).bind f = some a ↔ p ∧ f () = some a := by
  by_cases hp : p <;> simp [guard, hp]

section

variable [DecidableEq H] {hs : Hashing H} {zkvm : Zkvm H} {receipts : Receipts}
  {methodId : ImageId} {st : RangeState H}

omit [DecidableEq H] in
/-- The roots of the empty forest are empty slots, however many. -/
theorem roots_new : ∃ empty, (Forest.new : Forest H).roots = some empty ∧ normalize empty = [] := by
  have htrees : (Forest.new : Forest H).trees = [] := by
    show Accumulator.treesLoop 0 64 0 = []
    decide
  refine ⟨Accumulator.emptyRoots 0, by rw [Forest.roots, htrees]; rfl, ?_⟩
  show normalize _ = normalize []
  refine Accumulator.normalize_eq_iff.mpr fun h => ?_
  rw [Accumulator.emptyRoots, List.getElem?_replicate]
  split <;> rfl

/-- The copy that is kept by hand asserts what the shared predicate does. -/
theorem assertGenesisInBoundary_iff {u : Unit} :
    assertGenesisInBoundary hs st = some u ↔ st.isGenesisAnchored hs = .ok () := by
  obtain ⟨empty, hempty, hnormal⟩ := roots_new (H := H)
  have hnormal' : normalize (genesisTip : Boundary H).roots = [] := rfl
  rw [assertGenesisInBoundary, isGenesisAnchored_iff, Boundary.Agrees, hempty, hnormal']
  simp only [Option.bind_eq_bind, Option.bind_some, hnormal, guard_bind_eq_some, guard_eq_some]
  constructor
  · rintro ⟨hlo, htip, hleaves, hnbits, hepoch, hroots, hrecent, htime, hsmt⟩
    exact ⟨hlo, ⟨htip, hroots, hleaves, hnbits, htime, hepoch, hrecent⟩, hsmt⟩
  · rintro ⟨hlo, ⟨htip, hroots, hleaves, hnbits, htime, hepoch, hrecent⟩, hsmt⟩
    exact ⟨hlo, htip, hleaves, hnbits, hepoch, hroots, hrecent, htime, hsmt⟩

/-! ## What each consumer accepts -/

variable {bin : Bytes}

/-- The journal of a receipt that verifies under the image. -/
def journal? (zkvm : Zkvm H) (receipts : Receipts) (methodId : ImageId) (bin : Bytes) :
    Option (RangeState H) := do
  let r ← receipts.deserialize bin
  guard (receipts.verify r methodId = true)
  zkvm.decodeRange (receipts.journal r)

/-- A range journal of this guest that is anchored at genesis. -/
structure Anchored (hs : Hashing H) (methodId : ImageId) (st : RangeState H) : Prop where
  /-- Folded under the id that the reader expects of the guest. -/
  selfId : st.selfId = methodId
  kind : st.kind = KIND_RANGE
  /-- From block 1 on, over the state after genesis. -/
  anchored : st.isGenesisAnchored hs = .ok ()

/-- An anchored range starts at block 1. -/
theorem Anchored.lo (h : Anchored hs methodId st) : st.lo = 1 :=
  (isGenesisAnchored_iff.mp h.anchored).1

/-- Its tip before is the genesis block. -/
theorem Anchored.tipHash (h : Anchored hs methodId st) : st.before.tipHash = GENESIS_HASH :=
  (isGenesisAnchored_iff.mp h.anchored).2.1.1

/-- The copy that is kept by hand takes it. -/
theorem Anchored.pinned (h : Anchored hs methodId st) :
    assertGenesisInBoundary hs st = some () :=
  assertGenesisInBoundary_iff.mpr h.anchored

omit [DecidableEq H] in
/-- A command that reads the journal and goes on from it. -/
theorem bind_journal_eq_some {α : Type} {f : RangeState H → Option α} {a : α} :
    ((receipts.deserialize bin).bind fun r => (verifyReceipt receipts methodId r).bind fun _ =>
      (zkvm.decodeRange (receipts.journal r)).bind f) = some a ↔
    ∃ st, journal? zkvm receipts methodId bin = some st ∧ f st = some a := by
  rw [journal?]
  cases receipts.deserialize bin with
  | none => exact iff_of_false nofun fun ⟨_, h, _⟩ => nomatch h
  | some r =>
    simp only [Option.bind_eq_bind, Option.bind_some, verifyReceipt, guard_bind_eq_some]
    constructor
    · rintro ⟨hv, h⟩
      obtain ⟨st, hst, h⟩ := Option.bind_eq_some_iff.mp h
      exact ⟨st, ⟨hv, hst⟩, h⟩
    · rintro ⟨st, ⟨hv, hst⟩, h⟩
      exact ⟨hv, by rw [hst]; exact h⟩

/-- `verify-range` takes the anchored ranges, and reports what it read. -/
theorem verifyRangeCmd_eq_some {rep : RangeReport} :
    verifyRangeCmd hs zkvm receipts methodId bin = some rep ↔
      ∃ st, journal? zkvm receipts methodId bin = some st ∧ Anchored hs methodId st ∧
        rep = report st := by
  rw [verifyRangeCmd]
  simp only [Option.bind_eq_bind]
  rw [bind_journal_eq_some]
  refine exists_congr fun st => and_congr_right fun _ => ?_
  simp only [guard_bind_eq_some]
  constructor
  · rintro ⟨hself, hkind, -, h⟩
    obtain ⟨u, hpin, h⟩ := Option.bind_eq_some_iff.mp h
    exact ⟨⟨hself, hkind, assertGenesisInBoundary_iff.mp hpin⟩, (Option.some.inj h).symm⟩
  · rintro ⟨h, rfl⟩
    refine ⟨h.selfId, h.kind, h.lo, ?_⟩
    rw [h.pinned, Option.bind_some]

/-- So does `verify-snark`. -/
theorem verifySnarkCmd_eq_some {rep : RangeReport} {size : ℕ} :
    verifySnarkCmd hs zkvm receipts methodId bin = some (rep, size) ↔
      ∃ st, journal? zkvm receipts methodId bin = some st ∧ Anchored hs methodId st ∧
        rep = report st ∧ size = bin.length := by
  rw [verifySnarkCmd]
  simp only [Option.bind_eq_bind]
  rw [bind_journal_eq_some]
  refine exists_congr fun st => and_congr_right fun _ => ?_
  simp only [guard_bind_eq_some]
  constructor
  · rintro ⟨hself, hkind, -, h⟩
    obtain ⟨u, hpin, h⟩ := Option.bind_eq_some_iff.mp h
    obtain ⟨hrep, hsize⟩ := Prod.mk.inj (Option.some.inj h)
    exact ⟨⟨hself, hkind, assertGenesisInBoundary_iff.mp hpin⟩, hrep.symm, hsize.symm⟩
  · rintro ⟨h, rfl, rfl⟩
    refine ⟨h.selfId, h.kind, h.lo, ?_⟩
    rw [h.pinned, Option.bind_some]

omit [DecidableEq H] in
/-- The strings of the line name the genesis tip and block 1 exactly when the range does. -/
theorem isGenesisAnchored_rangeOk :
    isGenesisAnchored (rangeOk hs st).inTip (rangeOk hs st).lo = true ↔
      st.before.tipHash = GENESIS_HASH ∧ st.lo = 1 := by
  have htip : hex st.before.tipHash.toList = GENESIS_TIP ↔ st.before.tipHash = GENESIS_HASH := by
    rw [← hex_genesisHash]
    exact ⟨fun h => List.Vector.toList_injective (hex_injective h), fun h => by rw [h]⟩
  have hlo : Coordinator.int (toString st.lo.toNat).toList = some 1 ↔ st.lo = 1 := by
    rw [Nat.toString_eq_ofList_toDigits, String.toList_ofList, Coordinator.int_toDigits,
      Option.some_inj, ← UInt32.toNat_inj]
    rfl
  rw [isGenesisAnchored, decide_eq_true_iff]
  exact and_congr htip hlo

/-- **The pin of `verify-any` and the two fields of the coordinator are together the predicate.** -/
theorem verifyAnyCmd_eq_some {line : RangeOk} :
    (verifyAnyCmd hs zkvm receipts methodId bin = some line ∧
      isGenesisAnchored line.inTip line.lo = true) ↔
      ∃ st, journal? zkvm receipts methodId bin = some st ∧ Anchored hs methodId st ∧
        line = rangeOk hs st := by
  rw [verifyAnyCmd]
  simp only [Option.bind_eq_bind]
  rw [bind_journal_eq_some]
  simp only [guard_bind_eq_some]
  constructor
  · rintro ⟨⟨st, hst, hself, hkind, h⟩, hanchored⟩
    refine ⟨st, hst, ?_⟩
    by_cases htip : st.before.tipHash = GENESIS_HASH
    · rw [if_pos htip] at h
      obtain ⟨u, hpin, h⟩ := Option.bind_eq_some_iff.mp h
      exact ⟨⟨hself, hkind, assertGenesisInBoundary_iff.mp hpin⟩, (Option.some.inj h).symm⟩
    · rw [if_neg htip] at h
      obtain rfl : rangeOk hs st = line := Option.some.inj h
      exact absurd (isGenesisAnchored_rangeOk.mp hanchored).1 htip
  · rintro ⟨st, hst, h, rfl⟩
    refine ⟨⟨st, hst, h.selfId, h.kind, ?_⟩, isGenesisAnchored_rangeOk.mpr ⟨h.tipHash, h.lo⟩⟩
    rw [if_pos h.tipHash, h.pinned]
    rfl

/-- Whatever it prints is of the journal. -/
theorem eq_rangeOk_of_verifyAnyCmd {line : RangeOk}
    (h : verifyAnyCmd hs zkvm receipts methodId bin = some line) :
    ∃ st, journal? zkvm receipts methodId bin = some st ∧ line = rangeOk hs st := by
  rw [verifyAnyCmd] at h
  simp only [Option.bind_eq_bind] at h
  obtain ⟨st, hst, h⟩ := bind_journal_eq_some.mp h
  simp only [guard_bind_eq_some] at h
  obtain ⟨-, -, h⟩ := h
  refine ⟨st, hst, ?_⟩
  split at h
  · obtain ⟨-, -, h⟩ := Option.bind_eq_some_iff.mp h
    exact (Option.some.inj h).symm
  · exact (Option.some.inj h).symm

/-- And the standalone verifier. -/
theorem verify_eq_ok (hid : methodIdWords = some methodId) {v : Verifier.Verified H} :
    verify hs zkvm receipts bin = .ok v ↔
      ∃ st, journal? zkvm receipts methodId bin = some st ∧ Anchored hs methodId st ∧
        v = verified hs st bin.length := by
  rw [verify, journal?, hid]
  cases receipts.deserialize bin with
  | none => exact iff_of_false nofun fun ⟨_, h, _⟩ => nomatch h
  | some r =>
    simp only [Option.bind_eq_bind, Option.bind_some, guard_bind_eq_some]
    by_cases hv : receipts.verify r methodId = false
    · rw [if_pos hv]
      refine iff_of_false nofun fun ⟨_, h, _⟩ => ?_
      rw [hv] at h
      exact nomatch h.1
    rw [if_neg hv]
    cases zkvm.decodeRange (receipts.journal r) with
    | none => exact iff_of_false nofun fun ⟨_, h, _⟩ => nomatch h.2
    | some st =>
      dsimp only
      rw [Verifier.verifyJournal_eq_ok hid]
      constructor
      · rintro ⟨⟨hself, hkind, hanchored⟩, rfl⟩
        exact ⟨st, ⟨Bool.not_eq_false _ ▸ hv, rfl⟩, ⟨hself, hkind, hanchored⟩, rfl⟩
      · rintro ⟨st', ⟨-, hst⟩, h, rfl⟩
        obtain rfl : st = st' := Option.some.inj hst
        exact ⟨⟨h.selfId, h.kind, h.anchored⟩, rfl⟩

/-- The C interface takes a journal, or has no room for its roots. -/
def Takes (r : Except Int32 (HazyncState H)) : Prop :=
  (∃ pv, r = .ok pv) ∨ r = .error HAZYNC_ERR_TOO_MANY_ROOTS

omit [DecidableEq H] in
theorem not_takes_error {code : Int32} (h : code ≠ HAZYNC_ERR_TOO_MANY_ROOTS) :
    ¬ Takes (.error code : Except Int32 (HazyncState H)) := by
  rintro (⟨_, hok⟩ | herr)
  · cases hok
  · exact h (Except.error.inj herr)

/-- The C interface takes the anchored ranges. -/
theorem takes_writeRange : Takes (writeRange hs methodId st) ↔ Anchored hs methodId st := by
  rw [writeRange]
  by_cases hself : st.selfId ≠ methodId
  · rw [if_pos hself]
    exact iff_of_false (not_takes_error (by decide)) fun h => hself h.selfId
  rw [if_neg hself]
  by_cases hkind : st.kind ≠ KIND_RANGE
  · rw [if_pos hkind]
    exact iff_of_false (not_takes_error (by decide)) fun h => hkind h.kind
  rw [if_neg hkind]
  by_cases hanchored : st.isGenesisAnchored hs ≠ .ok ()
  · rw [if_pos hanchored]
    exact iff_of_false (not_takes_error (by decide)) fun h => hanchored h.anchored
  rw [if_neg hanchored]
  refine iff_of_true ?_ ⟨not_not.mp hself, not_not.mp hkind, not_not.mp hanchored⟩
  dsimp only
  split
  · exact .inr rfl
  · exact .inl ⟨_, rfl⟩

/-- From a journal on, the C interface is `writeRange`. -/
theorem hazyncVerifyProof_of_journal (hid : methodIdWords = some methodId)
    (hnil : receipts.deserialize [] = none)
    (h : journal? zkvm receipts methodId bin = some st) :
    hazyncVerifyProof hs zkvm receipts bin = writeRange hs methodId st := by
  rw [journal?] at h
  obtain ⟨r, hr, h⟩ := Option.bind_eq_some_iff.mp h
  obtain ⟨hv, hst⟩ := guard_bind_eq_some.mp h
  have hlen : bin.length ≠ 0 := by
    intro h0
    rw [List.length_eq_zero_iff.mp h0, hnil] at hr
    cases hr
  rw [hazyncVerifyProof, if_neg hlen, hr, hid]
  dsimp only
  rw [if_neg (Bool.not_eq_false _ ▸ hv), hst]

/-- Without a journal it fails, and not for want of room. -/
theorem hazyncVerifyProof_of_none (hid : methodIdWords = some methodId)
    (h : journal? zkvm receipts methodId bin = none) :
    ¬ Takes (hazyncVerifyProof hs zkvm receipts bin) := by
  rw [journal?] at h
  rw [hazyncVerifyProof, hid]
  split
  · exact not_takes_error (by decide)
  cases hr : receipts.deserialize bin with
  | none => exact not_takes_error (by decide)
  | some r =>
    rw [hr] at h
    dsimp only
    split
    · exact not_takes_error (by decide)
    · rename_i hv
      rw [Bool.not_eq_false] at hv
      simp only [Option.bind_eq_bind, Option.bind_some, hv, guard_true, Option.pure_def] at h
      rw [h]
      exact not_takes_error (by decide)

/-- So it does from the bytes on. -/
theorem takes_hazyncVerifyProof (hid : methodIdWords = some methodId)
    (hnil : receipts.deserialize [] = none) :
    Takes (hazyncVerifyProof hs zkvm receipts bin) ↔
      ∃ st, journal? zkvm receipts methodId bin = some st ∧ Anchored hs methodId st := by
  cases hj : journal? zkvm receipts methodId bin with
  | none => exact iff_of_false (hazyncVerifyProof_of_none hid hj) fun ⟨_, h, _⟩ => nomatch h
  | some st =>
    rw [hazyncVerifyProof_of_journal hid hnil hj, takes_writeRange]
    constructor
    · intro h
      exact ⟨st, rfl, h⟩
    · rintro ⟨st', hst, h⟩
      obtain rfl : st = st' := Option.some.inj hst
      exact h

/-! ## What they say -/

/-- What the consumers have in common to say of a range. -/
structure Report where
  height : UInt32
  /-- In the order of the journal. -/
  tipHash : Bytes32
  leaves : UInt64
  work : ℕ

/-- `work` is said where 128 bits hold it. -/
def Report.SaidBy (c : Report) (work : ℕ) : Prop := c.work < 2 ^ 128 → work = c.work

/-- The value of the standalone verifier says it. -/
def SaysVerified (c : Report) (v : Verifier.Verified H) : Prop :=
  v.height = c.height ∧ v.tipHash = hex c.tipHash.toList.reverse ∧
    v.tipHashInternal = hex c.tipHash.toList ∧ v.utxoLeaves = c.leaves ∧ c.SaidBy v.cumulativeWork

def SaysState (c : Report) (pv : HazyncState H) : Prop :=
  pv.height = c.height ∧ pv.tipHash.toList = c.tipHash.toList.reverse ∧
    pv.utxoLeaves = c.leaves ∧
    c.SaidBy (pv.cumulativeWorkLo.toNat + 2 ^ 64 * pv.cumulativeWorkHi.toNat)

def SaysReport (c : Report) (rep : RangeReport) : Prop :=
  rep.hi = c.height ∧ rep.outTipHash = hex c.tipHash.toList ∧ rep.utxoLeaves = c.leaves ∧
    c.SaidBy rep.totalCumWork

/-- The line has its numbers as text, and the work of the range without that of genesis. -/
def SaysLine (c : Report) (line : RangeOk) : Prop :=
  line.hi = toString c.height.toNat ∧ line.outTip = hex c.tipHash.toList ∧
    line.outLeaves = toString c.leaves.toNat ∧
    ∃ work, line.rangeWork = toString work ∧ c.SaidBy (GENESIS_WORK + work)

/-- What there is to say of a journal. -/
def common (st : RangeState H) : Report where
  height := st.hi
  tipHash := st.after.tipHash
  leaves := st.after.leaves
  work := GENESIS_WORK + st.rangeWork

omit [DecidableEq H] in
theorem workU128_of_lt (h : GENESIS_WORK + st.rangeWork < 2 ^ 128) :
    workU128 st.rangeWork = st.rangeWork :=
  Nat.mod_eq_of_lt (lt_of_le_of_lt (Nat.le_add_left _ _) h)

omit [DecidableEq H] in
/-- The value of the standalone verifier. -/
theorem saysVerified (st : RangeState H) (n : ℕ) : SaysVerified (common st) (verified hs st n) := by
  refine ⟨rfl, rfl, rfl, rfl, fun h => ?_⟩
  show (GENESIS_WORK + workU128 st.rangeWork) % 2 ^ 128 = GENESIS_WORK + st.rangeWork
  rw [workU128_of_lt h]
  exact Nat.mod_eq_of_lt h

omit [DecidableEq H] in
/-- The state of the C interface. -/
theorem saysState (st : RangeState H) (present : List H) :
    SaysState (common st) (writeState hs st present) := by
  refine ⟨rfl, rfl, rfl, fun h => ?_⟩
  have htotal : VerifierFfi.totalWork st = GENESIS_WORK + st.rangeWork := by
    rw [VerifierFfi.totalWork, workU128_of_lt h]
    exact Nat.mod_eq_of_lt h
  show (UInt64.ofNat (VerifierFfi.totalWork st)).toNat +
    2 ^ 64 * (UInt64.ofNat (VerifierFfi.totalWork st >>> 64)).toNat = GENESIS_WORK + st.rangeWork
  have hlt : GENESIS_WORK + st.rangeWork < 2 ^ 128 := h
  rw [htotal, UInt64.toNat_ofNat', UInt64.toNat_ofNat', Nat.shiftRight_eq_div_pow]
  omega

omit [DecidableEq H] in
/-- What the commands print. -/
theorem saysReport (st : RangeState H) : SaysReport (common st) (report st) := by
  refine ⟨rfl, rfl, rfl, fun h => ?_⟩
  show workU128 (add256 GENESIS_WORK st.rangeWork) = GENESIS_WORK + st.rangeWork
  have hlt : GENESIS_WORK + st.rangeWork < 2 ^ 128 := h
  rw [workU128, add256]
  omega

omit [DecidableEq H] in
/-- The line of `verify-any`. -/
theorem saysLine (st : RangeState H) : SaysLine (common st) (rangeOk hs st) := by
  refine ⟨rfl, rfl, rfl, _, rfl, fun h => ?_⟩
  rw [workU128_of_lt h]
  rfl

/-- **The consumers agree on what genesis-anchored means, and on what they say of it.** A receipt is
taken by the standalone verifier exactly when the C interface takes it, when `verify-range` and
`verify-snark` succeed, and when `verify-any` succeeds with fields that the coordinator takes for
anchored. Each then says the height, the tip, the leaves and the work of the journal. -/
theorem consumers_agree (hid : methodIdWords = some methodId)
    (hnil : receipts.deserialize [] = none) (bin : Bytes) :
    ((∃ v, verify hs zkvm receipts bin = .ok v) ↔
      Takes (hazyncVerifyProof hs zkvm receipts bin)) ∧
    ((∃ v, verify hs zkvm receipts bin = .ok v) ↔
      ∃ rep, verifyRangeCmd hs zkvm receipts methodId bin = some rep) ∧
    ((∃ v, verify hs zkvm receipts bin = .ok v) ↔
      ∃ rep, verifySnarkCmd hs zkvm receipts methodId bin = some rep) ∧
    ((∃ v, verify hs zkvm receipts bin = .ok v) ↔
      ∃ line, verifyAnyCmd hs zkvm receipts methodId bin = some line ∧
        isGenesisAnchored line.inTip line.lo = true) ∧
    ∀ st, journal? zkvm receipts methodId bin = some st →
      (∀ v, verify hs zkvm receipts bin = .ok v → SaysVerified (common st) v) ∧
      (∀ pv, hazyncVerifyProof hs zkvm receipts bin = .ok pv → SaysState (common st) pv) ∧
      (∀ rep, verifyRangeCmd hs zkvm receipts methodId bin = some rep →
        SaysReport (common st) rep) ∧
      (∀ rep, verifySnarkCmd hs zkvm receipts methodId bin = some rep →
        SaysReport (common st) rep.1) ∧
      (∀ line, verifyAnyCmd hs zkvm receipts methodId bin = some line →
        SaysLine (common st) line) := by
  -- each consumer accepts exactly the anchored journals; the first is the measure
  have haccept : (∃ v, verify hs zkvm receipts bin = .ok v) ↔
      ∃ st, journal? zkvm receipts methodId bin = some st ∧ Anchored hs methodId st := by
    simp only [verify_eq_ok hid]
    constructor
    · rintro ⟨v, st, hst, h, -⟩
      exact ⟨st, hst, h⟩
    · rintro ⟨st, hst, h⟩
      exact ⟨_, st, hst, h, rfl⟩
  rw [haccept]
  refine ⟨(takes_hazyncVerifyProof hid hnil).symm, ?_, ?_, ?_, fun st hst => ⟨?_, ?_, ?_, ?_, ?_⟩⟩
  · simp only [verifyRangeCmd_eq_some]
    constructor
    · rintro ⟨st, hst, h⟩
      exact ⟨_, st, hst, h, rfl⟩
    · rintro ⟨rep, st, hst, h, -⟩
      exact ⟨st, hst, h⟩
  · constructor
    · rintro ⟨st, hst, h⟩
      exact ⟨(_, _), verifySnarkCmd_eq_some.mpr ⟨st, hst, h, rfl, rfl⟩⟩
    · rintro ⟨⟨rep, size⟩, hrep⟩
      obtain ⟨st, hst, h, -, -⟩ := verifySnarkCmd_eq_some.mp hrep
      exact ⟨st, hst, h⟩
  · simp only [verifyAnyCmd_eq_some]
    constructor
    · rintro ⟨st, hst, h⟩
      exact ⟨_, st, hst, h, rfl⟩
    · rintro ⟨line, st, hst, h, -⟩
      exact ⟨st, hst, h⟩
  -- and what each prints is read off that one journal
  · intro v hv
    obtain ⟨st', hst', -, rfl⟩ := (verify_eq_ok hid).mp hv
    obtain rfl : st = st' := Option.some.inj (hst.symm.trans hst')
    exact saysVerified st _
  · intro pv hpv
    rw [hazyncVerifyProof_of_journal hid hnil hst] at hpv
    obtain ⟨-, rfl⟩ := VerifierFfi.writeRange_ok hpv
    exact saysState st _
  · intro rep hrep
    obtain ⟨st', hst', -, rfl⟩ := verifyRangeCmd_eq_some.mp hrep
    obtain rfl : st = st' := Option.some.inj (hst.symm.trans hst')
    exact saysReport st
  · rintro ⟨rep, size⟩ hrep
    obtain ⟨st', hst', -, rfl, -⟩ := verifySnarkCmd_eq_some.mp hrep
    obtain rfl : st = st' := Option.some.inj (hst.symm.trans hst')
    exact saysReport st
  · intro line hline
    obtain ⟨st', hst', rfl⟩ := eq_rangeOk_of_verifyAnyCmd hline
    obtain rfl : st = st' := Option.some.inj (hst.symm.trans hst')
    exact saysLine st

/-- One receipt that verifies: a byte, and the journal behind it. -/
def heldReceipt (journal : Bytes) (words : ImageId) : Receipts where
  Receipt := Bytes
  deserialize b := if b = [] then none else some b.tail
  verify receipt id := receipt = journal ∧ id = words
  journal := id

/-- The range of block 1 is taken by all of them. -/
theorem consumers_agree_block1 : ∃ (receipts : Receipts) (bin : Bytes) (words : ImageId)
    (v : Verifier.Verified Bytes) (line : RangeOk),
    verify idealHashing OpTrue.zkvm receipts bin = .ok v ∧ v.height = 1 ∧
      verifyAnyCmd idealHashing OpTrue.zkvm receipts words bin = some line ∧
      isGenesisAnchored line.inTip line.lo = true := by
  obtain ⟨words, hwords⟩ := Option.isSome_iff_exists.mp VerifierFfi.isSome_methodIdWords
  obtain ⟨wit, st, hst, hlo, hhi, hbefore, hin, -, -⟩ := OpTrue.proveRange_block1
  have hproof : RangeProof idealHashing OpTrue.core OpTrue.zkvm words { st with selfId := words } :=
    .block (VerifierFfi.proveRange_selfId hst)
  generalize hst' : ({ st with selfId := words } : RangeState Bytes) = st' at hproof
  have hanchored : Anchored idealHashing words st' :=
    { selfId := hproof.tags.2
      kind := hproof.tags.1
      anchored := by
        rw [isGenesisAnchored_iff, ← hst']
        exact ⟨hlo, by rw [hbefore]; exact .refl _, hin⟩ }
  have hjournal : journal? OpTrue.zkvm (heldReceipt (OpTrue.commit.range st') words) words
      (0 :: OpTrue.commit.range st') = some st' := by
    have hdecode := OpTrue.commit.decode_range st'
    simp [journal?, heldReceipt, guard, hdecode]
  have hverify := (verify_eq_ok hwords).mpr ⟨st', hjournal, hanchored, rfl⟩
  have hnil : (heldReceipt (OpTrue.commit.range st') words).deserialize [] = none := rfl
  obtain ⟨line, hline, hfields⟩ := (consumers_agree hwords hnil _).2.2.2.1.mp ⟨_, hverify⟩
  refine ⟨_, _, words, _, line, hverify, ?_, hline, hfields⟩
  rw [← hst']
  exact hhi

end

end Host
end Hazync
