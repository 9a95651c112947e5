import Hazync.Bridge.SnapshotRecords
import Hazync.Lib.Parallel

/-!
# What a bound snapshot is

The check takes a file just where its records are those of the coins whose leaves the end of the
range commits to (`snapshotVerify_eq_some`): a run of records is read in one way, and a count and
roots have one list of leaves. It does not ask where the range begins.

The characterisation is an equivalence, so it says both that no file of other coins is taken and
that a file of the right ones is. Not asked are two things: that the range begins at genesis, which
is a check of another command, and that the file has at most one coin at an outpoint, which follows
where the leaves are those of a chain.

The condition `cs ≠ []` is the length test of the header: a file that ends after the header is
refused, also where the accumulator is empty.
-/

namespace Hazync
namespace Bridge

open ByteStrings
open Accumulator (Forest Stump normalize)
open Guest (Coin Core ImageId KIND_RANGE RangeState Zkvm)
open Host (Anchored guard_bind_eq_some bind_journal_eq_some journal?)
open VerifierFfi (Receipts rd32_field rd64_field)

variable {H : Type} {hs : Hashing H} {zkvm : Zkvm H} {receipts : Receipts} {methodId : ImageId}
  {headerTime : ℕ → Option UInt32} {b proof : Bytes} {st : RangeState H} {cs : List SnapCoin}
  {coins : List Coin}

/-! ## The header -/

/-- The header, with what follows it. -/
def snapHeader (height : UInt32) (count : UInt64) : Bytes :=
  SNAP_MAGIC ++ (le32 height ++ le64 count)

theorem length_snapHeader (height : UInt32) (count : UInt64) :
    (snapHeader height count).length = 20 := by
  unfold snapHeader SNAP_MAGIC
  simp

theorem snapshot_eq (height : UInt32) (cs : List SnapCoin) : snapshot height cs =
    snapHeader height (UInt64.ofNat cs.length) ++ cs.flatMap SnapCoin.bytes := by
  unfold snapshot snapHeader
  simp only [List.append_assoc]

/-- A file that is long enough and has the magic has a header. -/
theorem exists_snapHeader (hlen : 20 < b.length) (hmagic : slice? b 0 8 = some SNAP_MAGIC) :
    ∃ height count rest, b = snapHeader height count ++ rest ∧ rest ≠ [] := by
  obtain ⟨b₁, rest₁, rfl, h₁⟩ := exists_split (b := b) (n := 8) (by omega)
  rw [List.length_append, h₁] at hlen
  have hfirst : slice? (b₁ ++ rest₁) 0 8 = some b₁ :=
    slice?_field [] rest₁ rfl rfl (by rw [h₁]; rfl)
  obtain rfl : SNAP_MAGIC = b₁ := Option.some.inj (hmagic.symm.trans hfirst)
  obtain ⟨b₂, rest₂, rfl, h₂⟩ := exists_split (b := rest₁) (n := 4) (by omega)
  rw [List.length_append, h₂] at hlen
  obtain ⟨b₃, rest₃, rfl, h₃⟩ := exists_split (b := rest₂) (n := 8) (by omega)
  rw [List.length_append, h₃] at hlen
  refine ⟨UInt32.ofNat (ofLe b₂), UInt64.ofNat (ofLe b₃), rest₃, ?_, ?_⟩
  · unfold snapHeader
    rw [le32_ofLe h₂, le64_ofLe h₃]
    simp only [List.append_assoc]
  · rintro rfl
    rw [List.length_nil] at hlen
    omega

variable [DecidableEq H]

/-- From the receipt on. -/
def bindJournal (hs : Hashing H) (zkvm : Zkvm H) (receipts : Receipts) (methodId : ImageId)
    (height : UInt32) (coins : List Coin) (proof : Bytes) : Option Bool := do
  let r ← receipts.deserialize proof
  Host.verifyReceipt receipts methodId r
  let rs ← zkvm.decodeRange (receipts.journal r)
  guard (rs.selfId = methodId)
  guard (rs.kind = KIND_RANGE)
  let roots ← (Forest.fromLeaves hs.parent (coins.map (Coin.leaf hs))).roots
  some (rs.hi = height ∧ rs.after.leaves = UInt64.ofNat (coins.map (Coin.leaf hs)).length ∧
    normalize rs.after.roots = normalize roots)

/-- The check on a file that has a header: the records, the end of the file, the receipt. -/
theorem snapshotVerify_header {height : UInt32} {count : UInt64} {rest : Bytes} (hrest : rest ≠ [])
    (hb : b = snapHeader height count ++ rest) :
    snapshotVerify hs zkvm receipts methodId headerTime b proof =
      (readSnapCoins headerTime b count.toNat 20).bind fun r =>
        (guard (r.2 = b.length) : Option Unit).bind fun _ =>
          bindJournal hs zkvm receipts methodId height r.1 proof := by
  have hmagic : slice? b 0 8 = some SNAP_MAGIC :=
    slice?_field [] (le32 height ++ le64 count ++ rest) (by simp [hb, snapHeader]) rfl rfl
  have hlen : 20 < b.length := by
    have hpos := List.length_pos_iff.mpr hrest
    rw [hb, List.length_append, length_snapHeader]
    omega
  have hheight : VerifierFfi.rd32 b 8 = some height :=
    rd32_field SNAP_MAGIC (le64 count ++ rest) (by simp [hb, snapHeader]) rfl
  have hcount : VerifierFfi.rd64 b 12 = some count :=
    rd64_field (SNAP_MAGIC ++ le32 height) rest (by simp [hb, snapHeader]) (by simp [SNAP_MAGIC])
  unfold snapshotVerify
  rw [hheight, hcount]
  simp only [hmagic, hlen, true_and, guard, if_true, pure, Option.bind_eq_bind, Option.bind_some]
  rfl

/-! ## What the check takes -/

/-- The roots of the forest that is built again are the journal's just where the journal commits to
    the leaves. -/
theorem bindJournal_eq_some {height : UInt32} (hlen : coins.length < 2 ^ 64) :
    bindJournal hs zkvm receipts methodId height coins proof = some true ↔
      ∃ st, journal? zkvm receipts methodId proof = some st ∧ st.selfId = methodId ∧
        st.kind = KIND_RANGE ∧ st.hi = height ∧
        st.after.stump.Commits hs.parent (coins.map (Coin.leaf hs)) := by
  generalize hL : coins.map (Coin.leaf hs) = L
  have hlength : L.length < 2 ^ 64 := by rwa [← hL, List.length_map]
  obtain ⟨v, hv, -⟩ := Accumulator.Reference.naiveRoots_spec hs.parent L
  have hroots : (Forest.fromLeaves hs.parent L).roots = some v :=
    (Forest.roots_of_isCache (Forest.Kept.fromLeaves L).cache).trans hv
  have hcount : ∀ n : UInt64, n = UInt64.ofNat L.length ↔ n.toNat = L.length := by
    intro n
    rw [← UInt64.toNat_inj, UInt64.toNat_ofNat', Nat.mod_eq_of_lt hlength]
  have hcommits : ∀ st : RangeState H, st.after.stump.Commits hs.parent L ↔
      st.after.leaves = UInt64.ofNat L.length ∧ normalize st.after.roots = normalize v := by
    intro st
    rw [hcount]
    constructor
    · rintro ⟨hnum, hsame⟩
      rw [hv, Option.map_some, Option.some.injEq] at hsame
      exact ⟨hnum, hsame.symm⟩
    · rintro ⟨hnum, hsame⟩
      refine ⟨hnum, ?_⟩
      rw [hv, Option.map_some, ← hsame]
      rfl
  unfold bindJournal
  rw [hL, hroots]
  simp only [Option.bind_eq_bind]
  rw [bind_journal_eq_some]
  refine exists_congr fun st => and_congr_right fun _ => ?_
  simp only [guard_bind_eq_some, Option.bind_some, Option.some.injEq, decide_eq_true_eq, hcommits]

/-- **The files that are taken**: what the journal of a range of this guest commits to, at the
    height where the range ends, in the order of the leaves; an empty set is not taken. -/
theorem snapshotVerify_eq_some :
    snapshotVerify hs zkvm receipts methodId headerTime b proof = some true ↔
      ∃ st cs coins, journal? zkvm receipts methodId proof = some st ∧ st.selfId = methodId ∧
        st.kind = KIND_RANGE ∧ b = snapshot st.hi cs ∧ cs ≠ [] ∧
        cs.mapM (SnapCoin.timed headerTime) = some coins ∧
        st.after.stump.Commits hs.parent (coins.map (Coin.leaf hs)) := by
  constructor
  · intro h
    -- the length guards leave a header and at least one byte
    obtain ⟨height, count, rest, hb, hrest⟩ : ∃ height count rest,
        b = snapHeader height count ++ rest ∧ rest ≠ [] := by
      have hguard := h
      unfold snapshotVerify at hguard
      simp only [Option.bind_eq_bind, guard_bind_eq_some] at hguard
      exact exists_snapHeader hguard.1.1 hguard.1.2
    rw [snapshotVerify_header hrest hb] at h
    obtain ⟨⟨coins, p⟩, hread, h⟩ := Option.bind_eq_some_iff.mp h
    obtain ⟨hp, h⟩ := guard_bind_eq_some.mp h
    obtain ⟨cs, post, rfl, hlen, hcoins, hend⟩ :=
      exists_snapCoins hread hb (length_snapHeader height count).symm
    have hlength := Parallel.length_of_mapM hcoins
    -- the records end where the file does
    have hpost : post = [] := by
      have htotal := congrArg List.length hb
      dsimp only at hp
      rw [List.length_append, List.length_append, length_snapHeader] at htotal
      exact List.length_eq_zero_iff.mp (by omega)
    subst hpost
    rw [List.append_nil] at hb hrest
    obtain ⟨st, hjournal, hself, hkind, rfl, hcommits⟩ := (bindJournal_eq_some (by
      rw [hlength, hlen]
      exact count.toNat_lt)).mp h
    refine ⟨st, cs, coins, hjournal, hself, hkind, ?_, ?_, hcoins, hcommits⟩
    · rw [hb, snapshot_eq, hlen, UInt64.ofNat_toNat]
    · rintro rfl
      exact hrest rfl
  -- the other way, the emitted file is read back coin by coin
  · rintro ⟨st, cs, coins, hjournal, hself, hkind, hb, hne, hcoins, hcommits⟩
    have hlength := Parallel.length_of_mapM hcoins
    have hlen : cs.length < 2 ^ 64 := by
      have hnum := hcommits.length_lt
      rwa [List.length_map, hlength] at hnum
    rw [snapshot_eq] at hb
    have hrest : cs.flatMap SnapCoin.bytes ≠ [] := by
      obtain ⟨c, cs, rfl⟩ := List.exists_cons_of_ne_nil hne
      rw [← List.length_pos_iff, List.flatMap_cons, List.length_append, c.length_bytes]
      omega
    -- the count fits its eight bytes, since the leaf count of the state does
    have hcount : (UInt64.ofNat cs.length).toNat = cs.length := by
      rw [UInt64.toNat_ofNat', Nat.mod_eq_of_lt hlen]
    have hbuf : b = snapHeader st.hi (UInt64.ofNat cs.length) ++
        (cs.flatMap SnapCoin.bytes ++ []) := by
      rw [List.append_nil]
      exact hb
    have hread := readSnapCoins_flatMap hcoins hbuf (length_snapHeader _ _).symm
    rw [snapshotVerify_header hrest hb, hcount, hread, Option.bind_some, guard_bind_eq_some]
    refine ⟨?_, (bindJournal_eq_some (hlength ▸ hlen)).mpr ⟨st, hjournal, hself, hkind, rfl,
      hcommits⟩⟩
    rw [hb, List.length_append, length_snapHeader]

end Bridge
end Hazync
