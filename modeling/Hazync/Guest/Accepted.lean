import Hazync.Guest.Block

/-!
# What the walks agree on

The block check reaches the transactions through the flat list of inputs, which it walks several
times. Two of the walks decide its shape: the one that gathers the created outputs ties the first
inputs to the transactions in block order, and the grouping gives each transaction one entry for
each of its inputs. `views_of_grouped` puts the two together: the inputs of an accepted block are
the concatenation of one group per transaction, and every other walk is an induction over these.

## Why the list is flat

The guest gets its inputs as one list with an index of the transaction on each, for the accumulator
deletes in the order of the block and the chunks cut the list anywhere. The transactions are blobs
beside it. Nothing in the types says that the list has an entry for each input of each transaction,
once and in order; the walks check it, each as much as it needs. The gathering walk looks at first
inputs only, and sees that they come in the order of the transactions. The grouping looks at what is
between two of them. Neither would be enough.

From here on the block is a list of views: a transaction with its raw bytes, its prevouts, and its
entries. Every statement about all inputs of a block goes through `views_of_grouped`, and no other
module looks at the flat list.
-/

namespace Hazync
namespace Guest

open ByteStrings
open Accumulator (Proof Stump normalize)

variable {H : Type}

/-- A transaction of the block, and its entries in the list of inputs. -/
structure TxView (H : Type) where
  raw : Blob
  prevouts : Blob
  tx : Transaction
  inputs : List (BlockInput H)

/-- `v` is transaction `ti` of the witness, with one entry for each of its inputs. -/
structure TxView.Fits (core : Core) (w : BlockWitness H) (ti : ℕ) (v : TxView H) : Prop where
  raw : w.txs[ti]? = some v.raw
  prevouts : w.txPrevouts[ti]? = some v.prevouts
  tx : core.unserializeTx v.raw.1 = some v.tx
  /-- One entry for each input. -/
  length : v.inputs.length = v.tx.vin.length
  pos : 0 < v.inputs.length
  /-- The entries come in the order of the inputs, and the first of them is marked. -/
  entry : ∀ (j : ℕ) (inp : BlockInput H), v.inputs[j]? = some inp →
    inp.txIdx.toNat = ti ∧ inp.inputIdx.toNat = j ∧ (inp.txFirst = 1 ↔ j = 0)

/-- The views are of the transactions from `ti` on. -/
inductive Viewed (core : Core) (w : BlockWitness H) : ℕ → List (TxView H) → Prop
  | nil : Viewed core w w.txs.length []
  | cons {ti : ℕ} {v : TxView H} {views : List (TxView H)} : v.Fits core w ti →
      Viewed core w (ti + 1) views → Viewed core w ti (v :: views)

/-- The leaves a transaction creates. -/
def TxView.created (hs : Hashing H) (core : Core) (w : BlockWitness H) (mtp : UInt32)
    (v : TxView H) : List H :=
  (createdCoins core v.tx w.height 0 mtp).map (Coin.leaf hs)

/-- The created leaves with their positions, from position `pos` on. -/
def createdFrom (hs : Hashing H) (core : Core) (w : BlockWitness H) (mtp : UInt32) :
    ℕ → List (TxView H) → List (H × UInt32)
  | _, [] => []
  | pos, v :: views =>
    (v.created hs core w mtp).map (fun l => (l, UInt32.ofNat pos)) ++
      createdFrom hs core w mtp (pos + 1) views

variable {hs : Hashing H} {core : Core} {w : BlockWitness H} {mtp : UInt32}

/-- There are as many views as transactions are left. -/
theorem Viewed.length {ti : ℕ} {views : List (TxView H)} (h : Viewed core w ti views) :
    ti + views.length = w.txs.length := by
  induction h with
  | nil => rfl
  | cons _ _ ih => rw [← ih, List.length_cons, Nat.add_assoc, Nat.add_comm 1]

/-- The raw bytes of the views are the transactions of the witness. -/
theorem Viewed.raws {ti : ℕ} {views : List (TxView H)} (h : Viewed core w ti views) :
    w.txs.drop ti = views.map TxView.raw := by
  induction h with
  | nil => exact List.drop_length
  | cons hv _ ih =>
    obtain ⟨hlt, hget⟩ := List.getElem?_eq_some_iff.mp hv.raw
    rw [List.drop_eq_getElem_cons hlt, hget, ih, List.map_cons]

/-- The `k`-th view is of the `k`-th transaction from here. -/
theorem Viewed.get {ti : ℕ} {views : List (TxView H)} (h : Viewed core w ti views) {k : ℕ}
    {v : TxView H} (hk : views[k]? = some v) : v.Fits core w (ti + k) := by
  induction h generalizing k with
  | nil => cases hk
  | cons hv _ ih =>
    cases k with
    | zero =>
      cases hk
      exact hv
    | succ k =>
      have := ih hk
      rwa [Nat.add_assoc, Nat.add_comm 1] at this

theorem Viewed.fits {ti : ℕ} {views : List (TxView H)} (h : Viewed core w ti views) :
    ∀ v ∈ views, ∃ k, v.Fits core w k := by
  intro v hv
  obtain ⟨k, hk⟩ := List.mem_iff_getElem?.mp hv
  exact ⟨ti + k, h.get hk⟩

/-! ## The gathering walk -/

/-- What the gathering of one transaction adds: the leaves of its outputs, each with the
    transaction's position. It fails where they outgrow the vector. -/
theorem gather_eq_some {raw : Bytes} {isCb : UInt32} {g g' : Gathered H} {txid : Bytes32}
    (h : gather hs core w mtp raw isCb g = some (g', txid)) :
    ∃ tx, core.unserializeTx raw = some tx ∧ txid = core.getHash tx ∧
      g' = { g with
        outputLeaves := g.outputLeaves ++
          (createdCoins core tx w.height isCb mtp).map (Coin.leaf hs)
        createdAt := g.createdAt ++
          ((createdCoins core tx w.height isCb mtp).map (Coin.leaf hs)).map fun l =>
            (l, UInt32.ofNat g.txPos) } ∧
      g'.outputLeaves.length ≤ vecCapacity32 := by
  rw [gather, txOutLeaves] at h
  cases htx : core.unserializeTx raw with
  | none => simp [htx] at h
  | some tx =>
    simp only [htx, Option.bind_eq_bind, Option.bind_some] at h
    split at h
    · rename_i hroom
      cases h
      refine ⟨tx, rfl, rfl, rfl, ?_⟩
      rwa [List.length_append]
    · cases h

theorem gatherInputs_skip {group rest : List (BlockInput H)} {g : Gathered H}
    (h : ∀ inp ∈ group, inp.txFirst ≠ 1) :
    gatherInputs hs core w mtp (group ++ rest) g = gatherInputs hs core w mtp rest g := by
  induction group with
  | nil => rfl
  | cons inp group ih =>
    rw [List.cons_append, gatherInputs, if_neg (h inp (by simp)),
      ih fun i hi => h i (List.mem_cons_of_mem _ hi)]

/-- The position never goes back, and a failed check stays failed. -/
theorem gatherInputs_mono {inputs : List (BlockInput H)} {g g' : Gathered H}
    (h : gatherInputs hs core w mtp inputs g = some g') (hok : g'.allOk = true) :
    g.allOk = true := by
  induction inputs generalizing g with
  | nil =>
    cases h
    exact hok
  | cons inp inputs ih =>
    rw [gatherInputs] at h
    split at h
    · split at h
      · cases h
        simp at hok
      · rename_i raw hraw
        obtain ⟨⟨g₁, txid⟩, hg, h⟩ := Option.bind_eq_some_iff.mp h
        have := ih h
        simp only [Bool.and_eq_true] at this
        exact this.1.1
    · exact ih h

/-- The round of a first input, when the walk ends with every check passed. -/
theorem gatherInputs_cons {inp : BlockInput H} {inputs : List (BlockInput H)}
    {g g' : Gathered H} (h : gatherInputs hs core w mtp (inp :: inputs) g = some g')
    (hfirst : inp.txFirst = 1) (hok : g'.allOk = true) :
    ∃ raw tx, w.txs[inp.txIdx.toNat]? = some raw ∧ core.unserializeTx raw.1 = some tx ∧
      inp.txIdx.toNat = g.txPos - 1 ∧ w.txids[g.txPos]? = some (core.getHash tx) ∧
      ∃ g₁ : Gathered H, gatherInputs hs core w mtp inputs g₁ = some g' ∧
        g₁.outputLeaves = g.outputLeaves ++
          (createdCoins core tx w.height 0 mtp).map (Coin.leaf hs) ∧
        g₁.createdAt = g.createdAt ++
          ((createdCoins core tx w.height 0 mtp).map (Coin.leaf hs)).map
            (fun l => (l, UInt32.ofNat g.txPos)) ∧
        g₁.txPos = g.txPos + 1 ∧ g₁.outputLeaves.length ≤ vecCapacity32 := by
  rw [gatherInputs, if_pos hfirst] at h
  split at h
  · cases h
    simp at hok
  · rename_i raw hraw
    obtain ⟨⟨g₁, txid⟩, hg, h⟩ := Option.bind_eq_some_iff.mp h
    obtain ⟨tx, htx, rfl, rfl, hroom⟩ := gather_eq_some hg
    have hall := gatherInputs_mono h hok
    simp only [Bool.and_eq_true, decide_eq_true_eq] at hall
    exact ⟨raw, tx, hraw, htx, hall.1.2, hall.2, _, h, rfl, rfl, rfl, hroom⟩

/-! ## The grouping -/

theorem txVinCount_eq_some {raw : Bytes} {n : UInt32} (h : txVinCount core raw = some n) :
    ∃ tx, core.unserializeTx raw = some tx ∧ n.toNat = tx.vin.length := by
  obtain ⟨tx, htx, hn⟩ := Option.bind_eq_some_iff.mp h
  refine ⟨tx, htx, ?_⟩
  cases hn
  rw [UInt32.toNat_ofNat', Nat.mod_eq_of_lt tx.vin_lt]

/-- A group is in order where all entries are of one transaction, numbered from 0, the first of them
    marked and no other. -/
theorem groupOk_iff {head : BlockInput H} {group : List (BlockInput H)} :
    groupOk head group = true ↔ ∀ (j : ℕ) (inp : BlockInput H), group[j]? = some inp →
      inp.txIdx = head.txIdx ∧ inp.inputIdx.toNat = j ∧ (inp.txFirst = 1 ↔ j = 0) := by
  rw [groupOk, List.all_eq_true]
  constructor
  · intro h j inp hj
    simpa using h (inp, j) (List.mk_mem_zipIdx_iff_getElem?.mpr hj)
  · rintro h ⟨inp, j⟩ hmem
    simpa using h j inp (List.mk_mem_zipIdx_iff_getElem?.mp hmem)

/-- A round of the grouping takes one transaction's entries off the front. -/
theorem vinGrouped_cons {fuel : ℕ} {head : BlockInput H} {rest : List (BlockInput H)}
    (h : vinGrouped core w fuel (head :: rest) = some true) :
    ∃ fuel' raw tx group inputs, head :: rest = group ++ inputs ∧
      vinGrouped core w fuel' inputs = some true ∧ head.txFirst = 1 ∧
      w.txs[head.txIdx.toNat]? = some raw ∧ core.unserializeTx raw.1 = some tx ∧
      group.length = tx.vin.length ∧ 0 < group.length ∧ groupOk head group = true := by
  cases fuel with
  | zero => simp [vinGrouped] at h
  | succ fuel =>
    rw [vinGrouped] at h
    split at h
    · simp at h
    rename_i hfirst
    split at h
    · simp at h
    rename_i raw hraw
    obtain ⟨n, hn, h⟩ := Option.bind_eq_some_iff.mp h
    obtain ⟨tx, htx, hlen⟩ := txVinCount_eq_some hn
    split at h
    · simp at h
    rename_i hcount
    obtain ⟨hzero, hroom⟩ := not_or.mp hcount
    split at h
    · rename_i hgroup
      have hgl : ((head :: rest).take n.toNat).length = n.toNat :=
        List.length_take_of_le (Nat.le_of_not_lt hroom)
      refine ⟨fuel, raw, tx, _, _, (List.take_append_drop n.toNat _).symm, h,
        not_not.mp hfirst, hraw, htx, hgl.trans hlen, ?_, hgroup⟩
      rw [hgl]
      exact Nat.pos_of_ne_zero fun h0 => hzero (UInt32.toNat_inj.mp h0)
    · simp at h

/-! ## The two together -/

/-- **The inputs are one group per transaction, in block order.** -/
theorem views_of_grouped {fuel : ℕ} {inputs : List (BlockInput H)} {g g' : Gathered H} {ti : ℕ}
    (hgrouped : vinGrouped core w fuel inputs = some true)
    (hgather : gatherInputs hs core w mtp inputs g = some g') (hok : g'.allOk = true)
    (hpos : g.txPos = ti + 1) (hend : g'.txPos = w.txs.length + 1)
    (hids : w.txs.length + 1 = w.txids.length) (hpv : w.txPrevouts.length = w.txs.length)
    (hroom : g.outputLeaves.length ≤ vecCapacity32) :
    ∃ views, inputs = views.flatMap TxView.inputs ∧ Viewed core w ti views ∧
      w.txids.drop (ti + 1) = views.map (fun v => core.getHash v.tx) ∧
      g'.outputLeaves = g.outputLeaves ++ views.flatMap (TxView.created hs core w mtp) ∧
      g'.createdAt = g.createdAt ++ createdFrom hs core w mtp (ti + 1) views ∧
      g'.outputLeaves.length ≤ vecCapacity32 := by
  -- the induction is on the inputs left, one transaction a step
  induction hn : inputs.length using Nat.strong_induction_on generalizing fuel inputs g ti with
  | _ n ih =>
    cases inputs with
    | nil =>
      cases hgather
      obtain rfl : ti = w.txs.length := by
        rw [hpos] at hend
        exact Nat.succ.inj hend
      refine ⟨[], rfl, .nil, ?_, by simp, by simp [createdFrom], hroom⟩
      rw [hids, List.drop_length]
      rfl
    | cons head rest =>
      -- what the grouping check and the gathering loop each say of the first input
      obtain ⟨fuel', raw, tx, group, inputs, heq, hgrouped', hfirst, hraw, htx, hlen, hgpos,
        hgroup⟩ := vinGrouped_cons hgrouped
      obtain ⟨raw', tx', hraw', htx', hidx, hid, g₁, hgather₁, hleaves₁, hcreated₁, hpos₁,
        hroom₁⟩ := gatherInputs_cons hgather hfirst hok
      obtain rfl : raw = raw' := Option.some.inj (hraw.symm.trans hraw')
      obtain rfl : tx = tx' := Option.some.inj (htx.symm.trans htx')
      obtain rfl : head.txIdx.toNat = ti := by rw [hidx, hpos, Nat.add_sub_cancel]
      rw [groupOk_iff] at hgroup
      obtain ⟨tail, rfl⟩ : ∃ tail, group = head :: tail := by
        cases group with
        | nil => cases hgpos
        | cons a tail =>
          rw [List.cons_append, List.cons.injEq] at heq
          exact ⟨tail, by rw [heq.1]⟩
      rw [List.cons_append, List.cons.injEq] at heq
      -- the others of the group are not marked as first, so the loop passes them by
      have htail : ∀ inp ∈ tail, inp.txFirst ≠ 1 := by
        intro inp hmem hone
        obtain ⟨j, hj⟩ := List.mem_iff_getElem?.mp hmem
        exact absurd ((hgroup (j + 1) inp hj).2.2.mp hone) (Nat.succ_ne_zero j)
      rw [heq.2, gatherInputs_skip htail] at hgather₁
      have hlt : inputs.length < n := by
        rw [← hn, heq.2, List.length_cons, List.length_append]
        exact Nat.lt_succ_of_le (Nat.le_add_left _ _)
      obtain ⟨views, hin, hviewed, htxids, hleaves, hcreated, hcap⟩ :=
        ih inputs.length hlt hgrouped' hgather₁ (by rw [hpos₁, hpos]) hroom₁ rfl
      rw [hpos] at hid
      obtain ⟨hidlt, hidget⟩ := List.getElem?_eq_some_iff.mp hid
      have hpvlt : head.txIdx.toNat < w.txPrevouts.length := by
        rw [hpv]
        exact (List.getElem?_eq_some_iff.mp hraw).1
      -- the group becomes the view of its transaction
      let v : TxView H :=
        { raw := raw, prevouts := w.txPrevouts.get ⟨_, hpvlt⟩, tx := tx, inputs := head :: tail }
      have hv : v.Fits core w head.txIdx.toNat :=
        { raw := hraw
          prevouts := List.getElem?_eq_getElem hpvlt
          tx := htx
          length := hlen
          pos := hgpos
          entry := by
            intro j inp hj
            obtain ⟨h1, h2⟩ := hgroup j inp hj
            exact ⟨congrArg UInt32.toNat h1, h2⟩ }
      refine ⟨v :: views, ?_, .cons hv hviewed, ?_, ?_, ?_, hcap⟩
      · rw [List.flatMap_cons, ← hin, heq.2]
        rfl
      · rw [List.drop_eq_getElem_cons hidlt, hidget, htxids]
        rfl
      · rw [hleaves, hleaves₁, List.flatMap_cons, List.append_assoc]
        rfl
      · rw [hcreated, hcreated₁, hpos, createdFrom, List.append_assoc]
        rfl

end Guest
end Hazync
