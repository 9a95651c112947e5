import Hazync.Guest.Validated
import Hazync.Lib.Ledger

/-!
# The coins a block creates

A transaction's coins differ in their output index and two transactions' coins in their txid, so a
block with distinct txids creates no coin twice (`nodup_outputLeaves`). A lookup in `createdAt`
then answers what the reference asks: whether the block creates the coin, and whether a
transaction before the spending one does.

## A lookup by leaf

The guest asks of a coin whether the block creates it by looking for its leaf in a map from leaves
to positions. The map keeps the first position, and the positions are those of transactions, from 0
for the coinbase. That a leaf is found at one place only needs that no two outputs of the block have
the same leaf: within a transaction they differ in the index, which fits in 32 bits because the
vectors do, and between transactions in the txid. The txids are distinct by a check of the guest's
own, which it makes for BIP30.
-/

namespace Hazync
namespace Guest

open ByteStrings

variable {H : Type}

/-- All coins the block creates, in canonical order. -/
def outputCoins (core : Core) (w : BlockWitness H) (mtp : UInt32) (cb : Transaction)
    (views : List (TxView H)) : List Coin :=
  createdCoins core cb w.height 1 mtp ++
    views.flatMap fun v => createdCoins core v.tx w.height 0 mtp

variable {hs : Hashing H} {core : Core} {w : BlockWitness H} {mtp : UInt32} {cb : Transaction}

/-- The created leaves are those of the created coins. -/
theorem outputLeaves_eq (views : List (TxView H)) :
    outputLeaves hs core w mtp cb views = (outputCoins core w mtp cb views).map (Coin.leaf hs) := by
  rw [outputLeaves, outputCoins, List.map_append, List.map_flatMap]
  rfl

/-! ## No coin twice -/

/-- A created coin is of a spendable output of the transaction. -/
theorem mem_createdCoins {tx : Transaction} {height isCb mtp : UInt32} {c : Coin}
    (h : c ∈ createdCoins core tx height isCb mtp) :
    ∃ v o, tx.vout[v]? = some o ∧ core.isUnspendable o.scriptPubKey = false ∧
      c = { txid := core.getHash tx, vout := UInt32.ofNat v, value := o.nValue,
            scriptPubKey := o.scriptPubKey, height := height, isCoinbase := isCb ≠ 0,
            mtp := mtp } := by
  obtain ⟨⟨o, v⟩, hmem, hc⟩ := List.mem_filterMap.mp h
  have hget := List.mk_mem_zipIdx_iff_getElem?.mp hmem
  dsimp only at hc
  by_cases hspendable : core.isUnspendable o.scriptPubKey = true
  · rw [if_pos hspendable] at hc
    cases hc
  · rw [if_neg hspendable] at hc
    exact ⟨v, o, hget, Bool.eq_false_iff.mpr hspendable, (Option.some.inj hc).symm⟩

theorem txid_of_mem_createdCoins {tx : Transaction} {height isCb mtp : UInt32} {c : Coin}
    (h : c ∈ createdCoins core tx height isCb mtp) : c.txid = core.getHash tx := by
  obtain ⟨v, o, -, -, rfl⟩ := mem_createdCoins h
  rfl

/-- A transaction creates no coin twice. -/
theorem nodup_createdCoins (tx : Transaction) (height isCb mtp : UInt32) :
    (createdCoins core tx height isCb mtp).Nodup := by
  have hidx : tx.vout.zipIdx.Pairwise fun p q => p.2 < q.2 := by
    have h := @List.pairwise_lt_range' 0 tx.vout.length 1 Nat.one_pos
    rwa [← List.zipIdx_map_snd 0 tx.vout, List.pairwise_map] at h
  refine List.Pairwise.filterMap _ ?_ (List.Pairwise.and_mem.mp hidx)
  rintro ⟨o, v⟩ ⟨o', v'⟩ ⟨hv, hv', hlt⟩ c hc c' hc' rfl
  have hbound : ∀ {o : TxOut} {v : ℕ}, (o, v) ∈ tx.vout.zipIdx → v < 2 ^ 32 := fun hmem =>
    lt_trans (List.getElem?_eq_some_iff.mp (List.mk_mem_zipIdx_iff_getElem?.mp hmem)).1 tx.vout_lt
  have hvout : ∀ {o : TxOut} {v : ℕ}, (if core.isUnspendable o.scriptPubKey then none else some
      ({ txid := core.getHash tx, vout := UInt32.ofNat v, value := o.nValue,
         scriptPubKey := o.scriptPubKey, height := height, isCoinbase := isCb ≠ 0,
         mtp := mtp } : Coin)) = some c → c.vout = UInt32.ofNat v := by
    intro o v h
    split at h
    · cases h
    · rw [← Option.some.inj h]
  have heq := congrArg UInt32.toNat ((hvout hc).symm.trans (hvout hc'))
  rw [UInt32.toNat_ofNat', UInt32.toNat_ofNat', Nat.mod_eq_of_lt (hbound hv),
    Nat.mod_eq_of_lt (hbound hv')] at heq
  exact absurd heq hlt.ne

/-- A block with distinct txids creates no coin twice. -/
theorem nodup_outputCoins {views : List (TxView H)}
    (h : (core.getHash cb :: views.map fun v => core.getHash v.tx).Nodup) :
    (outputCoins core w mtp cb views).Nodup := by
  obtain ⟨hcb, hviews⟩ := List.nodup_cons.mp h
  refine List.nodup_append.mpr ⟨nodup_createdCoins _ _ _ _, ?_, ?_⟩
  · refine List.nodup_flatMap.mpr ⟨fun v _ => nodup_createdCoins _ _ _ _, ?_⟩
    refine (List.pairwise_map.mp hviews).imp ?_
    intro u v hne c hu hv
    exact hne ((txid_of_mem_createdCoins hu).symm.trans (txid_of_mem_createdCoins hv))
  · rintro c hc d hd rfl
    obtain ⟨v, hv, hd⟩ := List.mem_flatMap.mp hd
    refine hcb (List.mem_map.mpr ⟨v, hv, ?_⟩)
    exact (txid_of_mem_createdCoins hd).symm.trans (txid_of_mem_createdCoins hc)

theorem nodup_outputLeaves (hleaf : hs.LeafInjective) {views : List (TxView H)}
    (h : (core.getHash cb :: views.map fun v => core.getHash v.tx).Nodup) :
    (outputLeaves hs core w mtp cb views).Nodup := by
  rw [outputLeaves_eq]
  exact (nodup_outputCoins h).map (Coin.leaf_injective hleaf)

/-! ## Lookups -/

theorem createdFrom_append (pos : ℕ) (us vs : List (TxView H)) :
    createdFrom hs core w mtp pos (us ++ vs) =
      createdFrom hs core w mtp pos us ++ createdFrom hs core w mtp (pos + us.length) vs := by
  induction us generalizing pos with
  | nil => rfl
  | cons u us ih =>
    rw [List.cons_append, createdFrom, createdFrom, ih, List.append_assoc, List.length_cons,
      Nat.add_assoc, Nat.add_comm 1]

theorem createdFrom_map_fst (pos : ℕ) (views : List (TxView H)) :
    (createdFrom hs core w mtp pos views).map Prod.fst =
      views.flatMap (TxView.created hs core w mtp) := by
  induction views generalizing pos with
  | nil => rfl
  | cons v views ih =>
    rw [createdFrom, List.map_append, ih, List.map_map, List.flatMap_cons]
    exact congrArg (· ++ _) (List.map_id _)

theorem createdAt_map_fst (views : List (TxView H)) :
    (createdAt hs core w mtp cb views).map Prod.fst = outputLeaves hs core w mtp cb views := by
  rw [createdAt, List.map_append, createdFrom_map_fst, List.map_map]
  exact congrArg (· ++ _) (List.map_id _)

/-- The positions of a stretch of transactions are its own. -/
theorem mem_createdFrom {pos : ℕ} {views : List (TxView H)} {l : H} {creator : UInt32}
    (h : (l, creator) ∈ createdFrom hs core w mtp pos views) :
    ∃ k, pos ≤ k ∧ k < pos + views.length ∧ creator = UInt32.ofNat k := by
  induction views generalizing pos with
  | nil => cases h
  | cons v views ih =>
    rcases List.mem_append.mp h with h | h
    · obtain ⟨_, -, heq⟩ := List.mem_map.mp h
      refine ⟨pos, le_rfl, ?_, (Prod.mk.inj heq).2.symm⟩
      exact Nat.lt_add_of_pos_right (Nat.succ_pos _)
    · obtain ⟨k, hk, hlt, heq⟩ := ih h
      refine ⟨k, Nat.le_of_succ_le hk, ?_, heq⟩
      rwa [List.length_cons, Nat.add_comm views.length, ← Nat.add_assoc]

/-- A leaf whose first position is before that of the next transaction is of an earlier one. -/
theorem mem_of_creator_lt {done rest : List (TxView H)} {l : H} {creator : UInt32}
    (hlen : (done ++ rest).length < 2 ^ 32)
    (hmem : (l, creator) ∈ createdAt hs core w mtp cb (done ++ rest))
    (hlt : creator < UInt32.ofNat (done.length + 1)) :
    l ∈ outputLeaves hs core w mtp cb done := by
  rw [createdAt, createdFrom_append, ← List.append_assoc] at hmem
  rcases List.mem_append.mp hmem with hmem | hmem
  · rw [← createdAt_map_fst, createdAt]
    exact List.mem_map.mpr ⟨_, hmem, rfl⟩
  · exfalso
    obtain ⟨k, hk, hk', rfl⟩ := mem_createdFrom hmem
    rw [List.length_append] at hlen
    rw [UInt32.lt_iff_toNat_lt, UInt32.toNat_ofNat', UInt32.toNat_ofNat',
      Nat.mod_eq_of_lt (by lia), Nat.mod_eq_of_lt (by lia)] at hlt
    lia

variable [DecidableEq H]

/-- A lookup finds nothing just where the block does not create the leaf. -/
theorem lookup_createdAt_eq_none {views : List (TxView H)} {l : H} :
    (createdAt hs core w mtp cb views).lookup l = none ↔
      l ∉ outputLeaves hs core w mtp cb views := by
  rw [List.lookup_eq_none_iff, ← createdAt_map_fst]
  constructor
  · intro h hmem
    obtain ⟨p, hp, rfl⟩ := List.mem_map.mp hmem
    exact absurd rfl (bne_iff_ne.mp (h p hp))
  · intro h p hp
    refine bne_iff_ne.mpr ?_
    rintro rfl
    exact h (List.mem_map.mpr ⟨p, hp, rfl⟩)

theorem mem_of_lookup {α β : Type*} [DecidableEq α] {ps : List (α × β)} {a : α} {b : β}
    (h : ps.lookup a = some b) : (a, b) ∈ ps := by
  obtain ⟨l₁, l₂, rfl, -⟩ := List.lookup_eq_some_iff.mp h
  simp

end Guest
end Hazync
