import Hazync.Guest.Counted

/-!
# The coins behind the leaves

The accumulator holds leaves, and a leaf is of one coin (`Stump.Holds`). An accepted block takes
the coins its inputs name out and puts the coins of its outputs in, so what it leaves, with what it
spends and overwrites, is no more than what there was and what it creates (`Extends.conserves`).
It is less only where an append wraps the leaf count.

## What is held

The accumulator is a commitment to a list of leaves, and a leaf is a hash. To speak of money one has
to say which coins the leaves are of. `Stump.Holds` does so for the leaves that the count reaches;
with a leaf hash that is one-to-one there is at most one coin for each.

Conservation is an inequality between multisets. A block that overwrites has coins taken out that
nobody has spent, so they are counted on the side of what went away. And if an append wraps the
64-bit count, the leaves below are out of reach, and the accumulator then holds less than it should,
never more.
-/

namespace Hazync
namespace Guest

open Ledger
open Accumulator (Stump)

variable {H : Type}

/-- The leaves that the leaf count reaches are those of `coins`. -/
def Stump.Holds (hs : Hashing H) (s : Stump H) (coins : List Coin) : Prop :=
  Stump.CommitsBelow 64 id hs.parent s (coins.map (Coin.leaf hs))

/-- The coins that the inputs of the transactions name. -/
def spentCoins (core : Core) (views : List (TxView H)) : List Coin :=
  views.flatMap (TxView.coins core)

/-- The coins that the coinbase of a grandfathered block overwrites. -/
def overwrittenCoins (core : Core) (w : BlockWitness H) (cb : Transaction) : List Coin :=
  match w.bip30 with
  | some ov => createdCoins core cb ov.oldHeight 1 ov.oldMtp
  | none => []

section

variable [DecidableEq H] {hs : Hashing H} {core : Core} {w : BlockWitness H} {mtp : UInt32}
  {chunks : Chunks H} {r : BlockResult H} {cb : Transaction} {views : List (TxView H)}
  {s : LoopState H} {stump : Stump H}

omit [DecidableEq H] in
theorem map_leaf_spentCoins :
    (spentCoins core views).map (Coin.leaf hs) =
      (views.map (TxView.leafTx hs core w mtp)).flatMap Tx.ins := by
  rw [spentCoins, List.map_flatMap, List.flatMap_map]
  rfl

/-- The leaves that an overwrite deletes are those of the earlier coinbase's coins. -/
theorem map_leaf_overwrittenCoins (hcb : core.unserializeTx w.coinbaseTx = some cb)
    {stump' : Stump H} (h : bip30Overwrite hs core w stump = some (stump', true)) :
    (superseded hs core w cb).map Prod.fst = (overwrittenCoins core w cb).map (Coin.leaf hs) := by
  obtain ⟨-, -, hsome⟩ := bip30Overwrite_ok hcb h
  cases hov : w.bip30 with
  | none =>
    rw [superseded, overwrittenCoins, hov]
    rfl
  | some ov =>
    rw [hsome ov hov, overwrittenCoins, hov]

omit [DecidableEq H] in
/-- A list of leaves, each of some coin, is the leaves of a list of coins. -/
theorem exists_coins {L : List H} {coins : List Coin}
    (h : (↑L : Multiset H) ≤ ↑(coins.map (Coin.leaf hs))) :
    ∃ coins' : List Coin, L = coins'.map (Coin.leaf hs) := by
  have hrange : L ∈ Set.range (List.map (Coin.leaf hs)) := by
    rw [Set.range_list_map]
    intro l hl
    obtain ⟨c, -, rfl⟩ := List.mem_map.mp (Multiset.mem_coe.mp (Multiset.mem_of_le h hl))
    exact ⟨c, rfl⟩
  obtain ⟨coins', rfl⟩ := hrange
  exact ⟨coins', rfl⟩

/-- A block with distinct txids: what it creates is what it spends of it and what it keeps. -/
theorem Validated.coe_outputLeaves (hleaf : hs.LeafInjective) (hdistinct : w.txids.Nodup)
    (hval : Validated hs core w mtp chunks r cb views s stump) :
    (↑(outputLeaves hs core w mtp cb views) : Multiset H) =
      ↑(internal (outputLeaves hs core w mtp cb views)
        ((spentCoins core views).map (Coin.leaf hs))) +
      ↑(keptLeaves hs core w mtp cb views) := by
  rw [hval.txids] at hdistinct
  rw [map_leaf_spentCoins, keptLeaves]
  refine coe_eq_spent_add_unspent (nodup_outputLeaves hleaf hdistinct) hval.internal_spends.1 ?_
  intro l hl
  exact of_decide_eq_true (List.mem_filter.mp hl).2

/-- **A block conserves the coins.** -/
theorem Extends.conserves (hleaf : hs.LeafInjective) (hnode : hs.NodeInjective) {b : Boundary H}
    {height : UInt32} (hval : Validated hs core w mtp chunks r cb views s stump)
    (he : Extends core b height w r) {coins : List Coin} (hcoins : Stump.Holds hs b.stump coins) :
    ∃ coins', Stump.Holds hs (b.next height r).stump coins' ∧
      (↑coins' + (↑(spentCoins core views) + ↑(overwrittenCoins core w cb)) : Multiset Coin) ≤
        ↑coins + ↑(outputCoins core w mtp cb views) := by
  obtain ⟨hok, -, hbip30⟩ := (blockValid_iff.mp he.valid).1
  have hbip := hval.bip30
  rw [hbip30] at hbip
  have hcreated := hval.coe_outputLeaves hleaf (bip30Check_ok hbip).1
  obtain ⟨D, L', hsplit, hle, hL'⟩ :=
    he.below hnode.parent (fun _ _ => rfl) le_rfl hval (.inl rfl) hcoins
  have hdeletes : (blockDeletes hs core w mtp cb views).map (fun p => id p.1) =
      external (outputLeaves hs core w mtp cb views) ((spentCoins core views).map (Coin.leaf hs)) ++
        (overwrittenCoins core w cb).map (Coin.leaf hs) := by
    have hins : (itemsFrom core 1 views).map (fun i => i.coin.leaf hs) =
        (views.map (TxView.leafTx hs core w mtp)).flatMap Ledger.Tx.ins := map_leaf_itemsFrom 1 views
    rw [map_leaf_spentCoins, ← hins, ← map_fst_externalDeletes,
      ← map_leaf_overwrittenCoins hval.coinbase hval.overwrite, ← List.map_append]
    rfl
  rw [hdeletes] at hsplit
  rw [List.map_id] at hle
  have hspent := coe_internal_add_external (outputLeaves hs core w mtp cb views)
    ((spentCoins core views).map (Coin.leaf hs))
  -- in leaves: the external spends and the overwritten leaves are deleted, the others set off
  have hleaves : (↑L' + (↑((spentCoins core views).map (Coin.leaf hs)) +
      ↑((overwrittenCoins core w cb).map (Coin.leaf hs))) : Multiset H) ≤
        ↑(coins.map (Coin.leaf hs)) + ↑(outputLeaves hs core w mtp cb views) := by
    rw [hsplit, hcreated, ← hspent, ← Multiset.coe_add]
    rw [← Multiset.coe_add] at hle
    refine (add_le_add_left hle _).trans (le_of_eq ?_)
    abel
  have hcover : (↑L' : Multiset H) ≤
      ↑((coins ++ outputCoins core w mtp cb views).map (Coin.leaf hs)) := by
    rw [List.map_append, ← outputLeaves_eq, ← Multiset.coe_add]
    exact (Multiset.le_add_right _ _).trans hleaves
  obtain ⟨coins', rfl⟩ := exists_coins hcover
  refine ⟨coins', hL', ?_⟩
  rw [outputLeaves_eq, Multiset.coe_add, Multiset.coe_add, Multiset.coe_add, ← List.map_append,
    ← List.map_append, ← List.map_append, ← Multiset.map_coe, ← Multiset.map_coe,
    Multiset.map_le_map_iff (Coin.leaf_injective hleaf)] at hleaves
  simpa only [Multiset.coe_add] using hleaves

end

end Guest
end Hazync
