import Hazync.Bridge.Walk
import Hazync.VerifierFfi.DumpExact

/-!
# Dumping the bridge's coins (`cmd_dump_snapshot`, `prover/host/src/main.rs`)

The coins of a checkpoint are written in the order of their outpoints, each with the position of its
leaf in the accumulator, which is found by hashing the coin again. The check of the dump
(`hazync_check_utxo_dump`) is code of another crate. That it accepts what is written here comes down
to the leaves being those of the map (`Tracks`): then every coin has a position, no two have the
same one, and the leaves at those positions are the ones the roots were made of.

A position is a `u32`, in the forest's index and in the dump. Up to 2^32 coins that is enough.

## What is compared with what

`dumpSnapshot` is the writer. The reader is `Hazync.VerifierFfi.UtxoDump`, which parses the bytes,
puts each coin's leaf into the slot of its position and compares the roots of the slots with those
of a proven state. The two meet in `Lists`: the coins of a dump, each at the position of its leaf,
and every position taken once. `OneToOne` is what a checkpoint has to be for that, and it follows
from the walk (`Hazync.Bridge.OwnDump`).
-/

namespace Hazync
namespace Bridge

open ByteStrings
open Accumulator (Forest)
open Guest (Core Coin)
open VerifierFfi

variable {H : Type}

def HZUTXO_MAGIC : Bytes := [0x48, 0x5a, 0x55, 0x54, 0x58, 0x4f, 0, 0]
def HZUTXO_VERSION : UInt32 := 1

/-- `pos_of`: `none` is the panic of a leaf that is there twice. -/
def positionsOf [DecidableEq H] (leaves : List H) : Option (H → Option UInt32) :=
  leaves.zipIdx.foldlM (fun posOf l =>
    if (posOf l.1).isSome then none
    else some (Function.update posOf l.1 (some (UInt32.ofNat l.2)))) fun _ => none

/-- The record of one coin; `none` is a panic. -/
def dumpRecord (hs : Hashing H) (blockMtp : List UInt32) (posOf : H → Option UInt32)
    (e : Outpoint × Unspent) : Option Bytes := do
  let coinMtp ← blockMtp[e.2.height.toNat]?
  let pos ← posOf ((e.2.coin e.1 coinMtp).leaf hs)
  some (e.1.txid.toList ++ (le32 e.1.vout ++ (le64 e.2.value.toUInt64 ++ (le32 e.2.height ++
    ((if e.2.isCoinbase then 1 else 0) :: (le32 coinMtp ++ (le32 pos ++
      (le32 (UInt32.ofNat e.2.spk.length) ++ e.2.spk))))))))

/-- `cmd_dump_snapshot` on a checkpoint: the bytes it writes, or `none` where it panics. -/
def dumpSnapshot [DecidableEq H] (hs : Hashing H) (st : BridgeState H) : Option Bytes :=
  if st.utxo.entries.length ≠ st.leaves.length then none
  else do
    let posOf ← positionsOf st.leaves
    let body ← st.utxo.entries.mapM (dumpRecord hs st.blockMtp posOf)
    some (HZUTXO_MAGIC ++ (le32 HZUTXO_VERSION ++ (le32 st.height ++
      (le64 (UInt64.ofNat st.utxo.entries.length) ++ body.flatten))))

/-- A state of the verifier that has the height, the leaf count and the non-empty roots of a
    forest. -/
structure Describes (pv : HazyncState H) (height : UInt32) (F : Forest H) : Prop where
  height : pv.height = height
  leaves : pv.utxoLeaves.toNat = F.leaves.length
  /-- The roots without the empty places, as the state lists them. -/
  roots : F.roots.map List.reduceOption = some pv.roots
  /-- They fit into the array of the C structure. -/
  room : pv.rootCount.toNat ≤ HAZYNC_MAX_ROOTS

/-- Map and leaves describe the same coins, one leaf a coin. -/
structure BridgeState.OneToOne (hs : Hashing H) (st : BridgeState H) : Prop where
  /-- There is a median time for the block of each coin, so that its leaf can be hashed. -/
  times : ∀ e ∈ st.utxo.entries, e.2.height.toNat < st.blockMtp.length
  nodup : st.leaves.Nodup
  /-- The order of the leaves is that of the forest, and not of the map. -/
  leaves : st.leaves.Perm (st.utxo.entries.map (leafOf hs st.blockMtp))

/-! ## The positions -/

/-- The positions of leaves that are all different: each leaf has its own and no other leaf has one.
    Where a leaf is there twice the source panics, since a dump of it could not be checked. -/
theorem positionsOf_eq [DecidableEq H] {leaves : List H} (hnodup : leaves.Nodup) :
    ∃ posOf, positionsOf leaves = some posOf ∧
      ∀ leaf pos, posOf leaf = some pos ↔ ∃ i, leaves[i]? = some leaf ∧ pos = UInt32.ofNat i := by
  induction leaves using List.reverseRecOn with
  | nil => exact ⟨fun _ => none, rfl, by simp⟩
  | append_singleton leaves last ih =>
    rw [List.nodup_append] at hnodup
    obtain ⟨hnodup, -, hlast⟩ := hnodup
    obtain ⟨posOf, hposOf, hspec⟩ := ih hnodup
    have hnone : posOf last = none := by
      rw [Option.eq_none_iff_forall_ne_some]
      intro pos hpos
      obtain ⟨i, hi, -⟩ := (hspec last pos).mp hpos
      exact hlast last (List.mem_of_getElem? hi) last (List.mem_singleton_self last) rfl
    refine ⟨Function.update posOf last (some (UInt32.ofNat leaves.length)), ?_, ?_⟩
    · unfold positionsOf at hposOf ⊢
      rw [List.zipIdx_append, List.foldlM_append, hposOf]
      simp [hnone]
    · intro leaf pos
      by_cases hleaf : leaf = last
      · subst hleaf
        rw [Function.update_self, Option.some.injEq]
        constructor
        · intro hpos
          exact ⟨leaves.length, List.getElem?_concat_length, hpos.symm⟩
        · intro h
          obtain ⟨i, hi, rfl⟩ := h
          rcases Nat.lt_trichotomy i leaves.length with hlt | rfl | hgt
          · rw [List.getElem?_append_left hlt] at hi
            exact absurd rfl (hlast leaf (List.mem_of_getElem? hi) leaf (List.mem_singleton_self _))
          · rfl
          · rw [List.getElem?_eq_none (by rw [List.length_append, List.length_singleton]; omega)] at hi
            cases hi
      · rw [Function.update_of_ne hleaf, hspec]
        refine exists_congr fun i => and_congr_left fun _ => ?_
        rcases Nat.lt_or_ge i leaves.length with hlt | hge
        · rw [List.getElem?_append_left hlt]
        · rw [List.getElem?_eq_none hge, List.getElem?_append_right hge]
          simp only [reduceCtorEq, false_iff]
          intro hi
          exact hleaf (List.mem_singleton.mp (List.mem_of_getElem? hi))

/-! ## The records -/

/-- The record of a coin, as the check reads it. -/
def recordOf (e : Outpoint × Unspent) (mtp pos : UInt32) (hspk : e.2.spk.length < 2 ^ 32) :
    DumpCoin where
  txid := e.1.txid
  vout := e.1.vout
  value := e.2.value.toUInt64
  height := e.2.height
  coinbase := if e.2.isCoinbase then 1 else 0
  mtp := mtp
  pos := pos
  spkLen := UInt32.ofNat e.2.spk.length
  spk := e.2.spk
  spk_length := by rw [UInt32.toNat_ofNat', Nat.mod_eq_of_lt hspk]

section

variable {hs : Hashing H} {blockMtp : List UInt32} {posOf : H → Option UInt32}
  {e : Outpoint × Unspent}

theorem coin_recordOf {mtp pos : UInt32} (hspk : e.2.spk.length < 2 ^ 32) :
    (recordOf e mtp pos hspk).coin = e.2.coin e.1 mtp := by
  obtain ⟨⟨txid, vout⟩, ⟨value, spk, height, isCoinbase⟩⟩ := e
  unfold recordOf DumpCoin.coin CoinHead.coin Unspent.coin
  cases isCoinbase <;> simp

/-- The bytes that are written are those of the record. -/
theorem dumpRecord_eq {mtp pos : UInt32} (hspk : e.2.spk.length < 2 ^ 32)
    (hmtp : blockMtp[e.2.height.toNat]? = some mtp)
    (hpos : posOf ((e.2.coin e.1 mtp).leaf hs) = some pos) :
    dumpRecord hs blockMtp posOf e = some (recordOf e mtp pos hspk).bytes := by
  unfold dumpRecord
  rw [hmtp, Option.bind_eq_bind, Option.bind_some, hpos, Option.bind_some]
  simp [recordOf, DumpCoin.bytes, CoinHead.bytes]

/-- Where every coin has a position, the records of all of them are written. -/
theorem exists_records {leaves : List H} (hroom : leaves.length ≤ 2 ^ 32)
    (hposOf : ∀ leaf pos, posOf leaf = some pos ↔
      ∃ i, leaves[i]? = some leaf ∧ pos = UInt32.ofNat i) {es : List (Outpoint × Unspent)}
    (hes : ∀ e ∈ es, e.2.height.toNat < blockMtp.length ∧ e.2.spk.length < 2 ^ 32 ∧
      leafOf hs blockMtp e ∈ leaves) :
    ∃ coins : List DumpCoin,
      es.mapM (dumpRecord hs blockMtp posOf) = some (coins.map DumpCoin.bytes) ∧
        coins.map (fun c => leaves[c.pos.toNat]?) = es.map (fun e => some (leafOf hs blockMtp e)) ∧
        coins.map (fun c => c.coin.leaf hs) = es.map (leafOf hs blockMtp) := by
  induction es with
  | nil => exact ⟨[], rfl, rfl, rfl⟩
  | cons e es ih =>
    obtain ⟨coins, hwritten, hplaces, hcoins⟩ := ih fun e he => hes e (List.mem_cons_of_mem _ he)
    obtain ⟨hheight, hspk, hmem⟩ := hes e List.mem_cons_self
    obtain ⟨i, hi⟩ := List.mem_iff_getElem?.mp hmem
    have hlt := (List.getElem?_eq_some_iff.mp hi).1
    have hmtp : blockMtp[e.2.height.toNat]? = some (blockMtp.getD e.2.height.toNat 0) := by
      rw [List.getD_eq_getElem _ _ hheight, List.getElem?_eq_getElem hheight]
    have hrecord := dumpRecord_eq hspk hmtp ((hposOf _ _).mpr ⟨i, hi, rfl⟩)
    refine ⟨recordOf e (blockMtp.getD e.2.height.toNat 0) (UInt32.ofNat i) hspk :: coins, ?_, ?_, ?_⟩
    · rw [List.mapM_cons, hrecord, hwritten]
      rfl
    · rw [List.map_cons, List.map_cons, hplaces]
      congr 1
      have hpos : (UInt32.ofNat i).toNat = i := by
        rw [UInt32.toNat_ofNat', Nat.mod_eq_of_lt (by omega)]
      exact (congrArg (leaves[·]?) hpos).trans hi
    · rw [List.map_cons, List.map_cons, hcoins, coin_recordOf]
      rfl

/-- Records of all the leaves, each at the position of its leaf, arrange the coins behind them.
    Since the leaf binds the coin, one position has one coin. -/
theorem lists_of_records (hleaf : hs.LeafInjective) {leaves : List H} {pv : HazyncState H}
    (hpv : pv.utxoLeaves.toNat = leaves.length) (hnodup : leaves.Nodup) {coins : List DumpCoin}
    (hperm : leaves.Perm (coins.map fun c => c.coin.leaf hs))
    (hplaces : ∀ c ∈ coins, leaves[c.pos.toNat]? = some (c.coin.leaf hs)) :
    Lists hs pv leaves coins := by
  have hlength : leaves.length = coins.length := by rw [hperm.length_eq, List.length_map]
  refine ⟨hlength ▸ hpv.symm, ?_⟩
  have hrange : leaves ∈ Set.range (List.map (Coin.leaf hs)) := by
    rw [Set.range_list_map]
    intro leaf hmem
    obtain ⟨c, -, rfl⟩ := List.mem_map.mp (hperm.mem_iff.mp hmem)
    exact ⟨c.coin, rfl⟩
  obtain ⟨arr, rfl⟩ := hrange
  have hinj := Guest.Coin.leaf_injective hleaf
  refine ⟨arr, ⟨?_, by rw [← hlength, List.length_map], ?_⟩, rfl⟩
  · -- Two records at one position would be of one leaf.
    have hlookup : (coins.map fun c => c.pos.toNat).map ((arr.map (Coin.leaf hs))[·]?) =
        (coins.map fun c => c.coin.leaf hs).map some := by
      rw [List.map_map, List.map_map]
      exact List.map_congr_left hplaces
    have hsome : ((coins.map fun c => c.coin.leaf hs).map some).Nodup :=
      ((hperm.nodup_iff).mp hnodup).map (Option.some_injective _)
    have hpos : (coins.map fun c => c.pos.toNat).Nodup :=
      List.Nodup.of_map ((arr.map (Coin.leaf hs))[·]?) (hlookup ▸ hsome)
    have hall := perm_range_of_nodup hpos fun p hp => by
      obtain ⟨c, hc, rfl⟩ := List.mem_map.mp hp
      rw [List.length_map, ← hlength]
      exact (List.getElem?_eq_some_iff.mp (hplaces c hc)).1
    rwa [List.length_map] at hall
  · intro c hc
    have hplace := hplaces c hc
    rw [List.getElem?_map] at hplace
    obtain ⟨coin, harr, heq⟩ := Option.map_eq_some_iff.mp hplace
    rw [harr, hinj heq]

end

/-! ## What the check does with them -/

section

variable {hs : Hashing H} {pv : HazyncState H} {L : List H}

/-- Records that fill the slots are read to the end. -/
theorem readCoins_of_filled {coins : List DumpCoin} {slots slots' : List (Option H)} {n : ℕ}
    (h : Filled hs slots coins slots') (hn : slots.length = n) {buf : Bytes} (pre post : Bytes)
    (hbuf : buf = pre ++ (coins.flatMap DumpCoin.bytes ++ post)) :
    readCoins hs buf n coins.length pre.length slots =
      some (.ok ((pre ++ coins.flatMap DumpCoin.bytes).length, slots')) := by
  induction h generalizing pre with
  | nil slots => rw [List.length_nil, readCoins, List.flatMap_nil, List.append_nil]
  | @cons slots slots' c coins hfree _ ih =>
    rw [List.flatMap_cons, List.append_assoc] at hbuf
    have hrest := ih ((List.length_set ..).trans hn) (pre ++ c.bytes)
      (by rw [hbuf, List.append_assoc])
    rw [List.length_cons, readCoins, readCoin_bytes hbuf, fillSlot_free hn hfree]
    rw [List.flatMap_cons, ← List.append_assoc, ← hrest]
    rfl

variable [DecidableEq H]

/-- The leaves that the state commits to pass: the roots that the check computes of them are those
    of the state. -/
theorem checkSlots_commits (hpv : pv.Commits hs.parent L) :
    checkSlots hs (L.map some) pv = some HAZYNC_OK := by
  obtain ⟨v, hv, -⟩ := Accumulator.Reference.naiveRoots_spec hs.parent L
  have hroots : (Forest.fromLeaves hs.parent L).roots = some v :=
    (Forest.roots_of_isCache (Forest.Kept.fromLeaves L).cache).trans hv
  have hpresent : v.reduceOption = pv.roots := by
    have hcommits := hpv.roots
    rw [hv] at hcommits
    exact Option.some.inj hcommits
  have hlist : pv.utxoRoots.toList.length = HAZYNC_MAX_ROOTS := pv.utxoRoots.toList_length
  have hcount : pv.roots.length = pv.rootCount.toNat := by
    rw [HazyncState.roots, List.length_take_of_le (by rw [hlist]; exact hpv.room)]
  unfold checkSlots
  rw [mapM_id_some]
  dsimp only
  rw [hroots, Option.bind_eq_bind, Option.bind_some, hpresent, if_neg (not_not.mpr hcount),
    rootsEqual_eq (by rw [Nat.zero_add, hcount, hlist]; exact hpv.room)]
  simp [HazyncState.roots]

/-- A dump that lists the coins of the state is accepted. Nothing is asked of how it came about. -/
theorem check_dump (hleaf : hs.LeafInjective) (hpv : pv.Commits hs.parent L) {coins : List DumpCoin}
    (h : Lists hs pv L coins) : hazyncCheckUtxoDump hs (dump pv coins) pv = some HAZYNC_OK := by
  obtain ⟨hlength, arr, harr, rfl⟩ := h
  have hfilled := (filled_iff hleaf).mpr ⟨arr, harr, rfl⟩
  have hfields : dump pv coins = DUMP_MAGIC ++ (le32 1 ++ (le32 pv.height ++ (le64 pv.utxoLeaves ++
      coins.flatMap DumpCoin.bytes))) := by
    unfold dump dumpHeader
    simp only [List.append_assoc]
  have hbuf : dump pv coins = dumpHeader pv.height pv.utxoLeaves ++
      (coins.flatMap DumpCoin.bytes ++ []) := by
    rw [List.append_nil]
    rfl
  have hread := readCoins_of_filled hfilled List.length_replicate _ _ hbuf
  rw [hlength] at hread
  have hHDR : (dumpHeader pv.height pv.utxoLeaves).length = HDR := rfl
  rw [hHDR] at hread
  rw [check_header hfields, if_neg (not_not.mpr rfl), if_neg (not_not.mpr rfl),
    if_neg (not_not.mpr rfl), hread, Option.bind_eq_bind, Option.bind_some]
  dsimp only
  rw [if_neg]
  · exact checkSlots_commits hpv
  · exact not_not.mpr rfl

end

end Bridge
end Hazync
