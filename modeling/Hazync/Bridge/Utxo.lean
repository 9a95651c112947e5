import Mathlib.Data.Prod.Lex
import Hazync.Guest.VerifyInput
import Hazync.Lib.SortedMap
import Hazync.Smt.Keys

/-!
# The bridge's map of unspent coins (`bridge_update_utxo`, `prover/host/src/main.rs`)

The accumulator holds hashes; what a coin is, the bridge looks up in a map by outpoint. A block
takes the coins out that its inputs name, and puts those of its spendable outputs in that no input
of it names. What it took out and what it put in is the record that `undoUtxo`, the part of
`bridge_rewind_to` for this map, goes back by. It goes back exactly where no coin was put in over
another.

The map is ordered by outpoint in the source, a `BTreeMap`, and a dump lists it in that order;
`SortedMap` is the same. The amount is a `u64` there and read as signed here, as the guest's reading
of the 64 bits is; no arithmetic is done on it in the bridge.

An insert does not look whether there is a coin already. Consensus has it that there is none but for
the two coinbases, and the record of the block is right for all others. `get?_undoUtxo_record` says
what the undo does at *every* outpoint, so the exception can be read off it.
-/

namespace Hazync
namespace Bridge

open ByteStrings
open Guest (Core Transaction TxIn TxOut Coin)

/-- `([u8; 32], u32)`, a txid and an output index. -/
structure Outpoint where
  txid : Bytes32
  vout : UInt32
  deriving DecidableEq

/-- Pairs compare by their first difference. -/
instance : LinearOrder Outpoint :=
  let lexicographic : LinearOrder Outpoint :=
    LinearOrder.lift' (fun o => toLex (o.txid, o.vout.toNat)) fun a b h => by
      obtain ⟨htxid, hvout⟩ := Prod.mk.inj (toLex.injective h)
      cases a
      cases b
      cases htxid
      cases UInt32.toNat_inj.mp hvout
      rfl
  { lexicographic with
    toDecidableEq := inferInstance
    compare_eq_compareOfLessAndEq := fun a b =>
      (lexicographic.compare_eq_compareOfLessAndEq a b).trans (by congr) }

/-- `(u64, Vec<u8>, u32, bool)`. The amount is kept as the guest reads its 64 bits. -/
structure Unspent where
  value : Int64
  spk : Bytes
  height : UInt32
  isCoinbase : Bool
  deriving DecidableEq

/-- `Utxo` -/
abbrev Utxo := SortedMap Outpoint Unspent

/-- The coin that the map holds at an outpoint, given the time its leaf commits to. -/
def Unspent.coin (u : Unspent) (op : Outpoint) (mtp : UInt32) : Coin where
  txid := op.txid
  vout := op.vout
  value := u.value
  scriptPubKey := u.spk
  height := u.height
  isCoinbase := u.isCoinbase
  mtp := mtp

/-- `out_spendable` -/
def outSpendable (spk : Bytes) : Bool := ¬ (spk.head? = some 0x6a ∨ 10000 < spk.length)

/-- `bitcoin::Block`, the header by its fields. -/
structure Block where
  version : Int32
  prevBlockhash : Bytes32
  merkleRoot : Bytes32
  time : UInt32
  bits : UInt32
  nonce : UInt32
  txdata : List Transaction

/-- `previous_output` -/
def outpointOf (txin : TxIn) : Outpoint := ⟨txin.prevoutHash, txin.prevoutN⟩

/-- The outpoints that the inputs after the coinbase's name, in order. -/
def Block.spent (block : Block) : List Outpoint :=
  block.txdata.tail.flatMap fun t => t.vin.map outpointOf

/-- The coins of a transaction's spendable outputs, as the map holds them. -/
def spendableOutputs (core : Core) (height : UInt32) (isCoinbase : Bool) (t : Transaction) :
    List (Outpoint × Unspent) :=
  t.vout.zipIdx.filterMap fun (o, v) =>
    if outSpendable o.scriptPubKey then
      some (⟨core.getHash t, UInt32.ofNat v⟩, ⟨o.nValue, o.scriptPubKey, height, isCoinbase⟩)
    else none

/-- Those of all transactions of a block, of which the first is the coinbase. -/
def Block.outputs (core : Core) (block : Block) (height : UInt32) : List (Outpoint × Unspent) :=
  block.txdata.zipIdx.flatMap fun (t, i) => spendableOutputs core height (i = 0) t

/-- `UtxoDelta`: the coins removed, with what they were, and the coins created. -/
structure UtxoDelta where
  removed : List (Outpoint × Unspent)
  created : List Outpoint

/-- `if let Some(v) = utxo.remove(k) { removed.push((*k, v)) }` -/
def removeSpent (acc : Utxo × List (Outpoint × Unspent)) (k : Outpoint) :
    Utxo × List (Outpoint × Unspent) :=
  match acc.1.get? k with
  | some v => (acc.1.erase k, acc.2 ++ [(k, v)])
  | none => acc

/-- What the block leaves of its own outputs: `if spent.contains(..) { continue; }`. -/
def Block.kept (core : Core) (block : Block) (height : UInt32) : List (Outpoint × Unspent) :=
  (block.outputs core height).filter fun e => e.1 ∉ block.spent

/-- `bridge_update_utxo` -/
def updateUtxo (core : Core) (utxo : Utxo) (block : Block) (height : UInt32) : Utxo × UtxoDelta :=
  let (utxo, removed) := block.spent.foldl removeSpent (utxo, [])
  let kept := block.kept core height
  (utxo.insertAll kept, ⟨removed, kept.map Prod.fst⟩)

/-- The part of `bridge_rewind_to` for the map: out with what the block created, back with what it
    spent. -/
def undoUtxo (utxo : Utxo) (delta : UtxoDelta) : Utxo :=
  (utxo.eraseAll delta.created).insertAll delta.removed

/-! ## A block, and back -/

section

variable {core : Core} {utxo : Utxo} {block : Block} {height : UInt32} {k : Outpoint}

/-- The loop over the spent outpoints, taken apart: what it leaves, what it has removed, and that it
    has removed nothing twice. An outpoint that is not there is passed over, as are those of coins
    that the block makes itself. -/
theorem foldl_removeSpent (ks : List Outpoint) (utxo : Utxo) :
    (∀ k, (ks.foldl removeSpent (utxo, [])).1.get? k = if k ∈ ks then none else utxo.get? k) ∧
      (∀ k v, (k, v) ∈ (ks.foldl removeSpent (utxo, [])).2 ↔ k ∈ ks ∧ utxo.get? k = some v) ∧
      ((ks.foldl removeSpent (utxo, [])).2.map Prod.fst).Nodup := by
  induction ks using List.reverseRecOn with
  | nil => simp
  | append_singleton ks l ih =>
    obtain ⟨hget, hmem, hnodup⟩ := ih
    rw [List.foldl_concat, removeSpent]
    -- An outpoint named before is not there any more.
    cases hl : (ks.foldl removeSpent (utxo, [])).1.get? l with
    | none =>
      rw [hget] at hl
      refine ⟨fun k => ?_, fun k v => ?_, hnodup⟩
      · simp only [List.mem_append, List.mem_singleton]
        rw [hget]
        by_cases hk : k = l
        · subst hk
          simp [hl]
        · simp [hk]
      · simp only [List.mem_append, List.mem_singleton]
        rw [hmem]
        constructor
        · exact fun h => ⟨.inl h.1, h.2⟩
        · rintro ⟨hk | rfl, hv⟩
          · exact ⟨hk, hv⟩
          · refine ⟨?_, hv⟩
            by_contra hk
            rw [if_neg hk, hv] at hl
            cases hl
    | some w =>
      rw [hget] at hl
      obtain ⟨hnot, hw⟩ : l ∉ ks ∧ utxo.get? l = some w := by
        by_cases h : l ∈ ks
        · rw [if_pos h] at hl
          cases hl
        · rw [if_neg h] at hl
          exact ⟨h, hl⟩
      refine ⟨fun k => ?_, fun k v => ?_, ?_⟩
      · simp only [List.mem_append, List.mem_singleton, SortedMap.get?_erase]
        by_cases hk : k = l
        · simp [hk]
        · rw [Function.update_of_ne hk, hget]
          simp [hk]
      · simp only [List.mem_append, List.mem_singleton, hmem, Prod.mk.injEq]
        constructor
        · rintro (h | ⟨rfl, rfl⟩)
          · exact ⟨.inl h.1, h.2⟩
          · exact ⟨.inr rfl, hw⟩
        · rintro ⟨hk | rfl, hv⟩
          · exact .inl ⟨hk, hv⟩
          · exact .inr ⟨rfl, Option.some.inj (hv.symm.trans hw)⟩
      · dsimp only
        rw [List.map_append, List.nodup_append]
        refine ⟨hnodup, List.nodup_singleton _, ?_⟩
        rintro k hk m hm rfl
        obtain ⟨e, he, rfl⟩ := List.mem_map.mp hk
        obtain rfl := List.mem_singleton.mp hm
        exact hnot ((hmem e.1 e.2).mp he).1

theorem created_updateUtxo :
    (updateUtxo core utxo block height).2.created = (block.kept core height).map Prod.fst := rfl

/-- What a block neither spends nor creates stays as it is. -/
theorem get?_updateUtxo_of_notMem (h : k ∉ (block.kept core height).map Prod.fst) :
    (updateUtxo core utxo block height).1.get? k =
      if k ∈ block.spent then none else utxo.get? k := by
  rw [updateUtxo]
  refine (SortedMap.get?_insertAll_of_notMem h).trans ?_
  exact (foldl_removeSpent block.spent utxo).1 k

/-- What it creates is there. -/
theorem get?_updateUtxo_of_mem {v : Unspent}
    (hkeys : ((block.outputs core height).map Prod.fst).Nodup)
    (h : (k, v) ∈ block.kept core height) :
    (updateUtxo core utxo block height).1.get? k = some v := by
  refine SortedMap.get?_insertAll_of_mem ?_ h
  exact hkeys.sublist (List.filter_sublist.map Prod.fst)

theorem notMem_spent_of_kept (h : k ∈ (block.kept core height).map Prod.fst) : k ∉ block.spent := by
  obtain ⟨e, he, rfl⟩ := List.mem_map.mp h
  exact of_decide_eq_true (List.mem_filter.mp he).2

/-- The record of a block over any map: what the block spent is back, what it put in is gone, and
the rest is as the map has it. -/
theorem get?_undoUtxo_record (utxo now : Utxo) (block : Block) (height : UInt32) (k : Outpoint) :
    (undoUtxo now (updateUtxo core utxo block height).2).get? k =
      if k ∈ (block.kept core height).map Prod.fst then none
      else if k ∈ block.spent ∧ (utxo.get? k).isSome then utxo.get? k else now.get? k := by
  obtain ⟨-, hmem, hnodup⟩ := foldl_removeSpent block.spent utxo
  have hdelta : (updateUtxo core utxo block height).2.removed =
      (block.spent.foldl removeSpent (utxo, [])).2 := rfl
  rw [undoUtxo]
  by_cases hspent : k ∈ block.spent ∧ (utxo.get? k).isSome
  · obtain ⟨v, hv⟩ := Option.isSome_iff_exists.mp hspent.2
    have hnot : k ∉ (block.kept core height).map Prod.fst := fun h =>
      notMem_spent_of_kept h hspent.1
    rw [if_neg hnot, if_pos hspent, hdelta, hv]
    exact SortedMap.get?_insertAll_of_mem hnodup ((hmem k v).mpr ⟨hspent.1, hv⟩)
  · have hremoved : k ∉ (updateUtxo core utxo block height).2.removed.map Prod.fst := by
      intro h
      obtain ⟨e, he, rfl⟩ := List.mem_map.mp h
      obtain ⟨hin, hget⟩ := (hmem e.1 e.2).mp he
      exact hspent ⟨hin, by rw [hget]; rfl⟩
    rw [SortedMap.get?_insertAll_of_notMem hremoved, SortedMap.get?_eraseAll, created_updateUtxo,
      if_neg hspent]

end

end Bridge
end Hazync
