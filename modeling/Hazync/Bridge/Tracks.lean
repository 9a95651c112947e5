import Hazync.Bridge.Connect

/-!
# The leaves are those of the map

The bridge's forest and its map are advanced by two functions. `Tracks` is what ties them: the
leaves are those of the coins of the map, each once, in an order of the forest's own. A coin goes
out of both or into both, and a block is a run of such steps (`Tracks.buildBlockCarried`): its
inputs, the outputs that a grandfathered coinbase overwrites, and what is left of its own outputs.

## Skipping what cancels

A coin that is created and spent in one block never gets a leaf. The bridge knows it by its leaf:
before the inputs it hashes the outputs of the block, an input whose leaf is among them is noted
instead of proved, and afterwards the noted leaves are left out of what is added. The map does the
same by outpoints. `SpendingInv.spent` says that the two agree at every moment of the loop, and it
needs that leaves are different for different coins (`LeafInjective`).

The order of the leaves is never used: `Tracks.leaves` is a permutation.
-/

namespace Hazync
namespace Bridge

open ByteStrings
open Accumulator (Forest ForestOp Proof Stump)
open Guest (Core Transaction TxIn TxOut Coin BlockInput Bip30Del Bip30Overwrite)

variable {H : Type} (hs : Hashing H)

/-- The leaf of a coin of the map, whose time is looked up by its height. -/
def leafOf (blockMtp : List UInt32) (e : Outpoint × Unspent) : H :=
  (e.2.coin e.1 (blockMtp.getD e.2.height.toNat 0)).leaf hs

variable {hs} {blockMtp : List UInt32} {F G : Forest H} {utxo : Utxo}

/-- Different entries have different leaves, as the leaf binds the outpoint and the coin. -/
theorem leafOf_injective (hleaf : hs.LeafInjective) (blockMtp : List UInt32) :
    Function.Injective (leafOf hs blockMtp) := by
  intro e e' heq
  obtain ⟨⟨txid, vout⟩, ⟨value, spk, height, isCoinbase⟩⟩ := e
  obtain ⟨⟨txid', vout'⟩, ⟨value', spk', height', isCoinbase'⟩⟩ := e'
  have hcoin := Guest.Coin.leaf_injective hleaf heq
  unfold Unspent.coin at hcoin
  simp only [Coin.mk.injEq] at hcoin
  obtain ⟨rfl, rfl, rfl, rfl, rfl, rfl, -⟩ := hcoin
  rfl

variable [DecidableEq H]

/-- The forest is well kept and holds the leaves of the map's coins. -/
structure Tracks (hs : Hashing H) (blockMtp : List UInt32) (F : Forest H) (utxo : Utxo) : Prop where
  /-- The cached levels are those of the leaves. -/
  cache : Forest.Kept hs.parent F F.leaves
  index : F.IndexKept
  /-- One leaf for each coin of the map, in any order. -/
  leaves : F.leaves.Perm (utxo.entries.map (leafOf hs blockMtp))

theorem Tracks.length (h : Tracks hs blockMtp F utxo) : F.leaves.length = utxo.entries.length := by
  rw [h.leaves.length_eq, List.length_map]

theorem Tracks.nodup (h : Tracks hs blockMtp F utxo) (hleaf : hs.LeafInjective) :
    F.leaves.Nodup := by
  rw [h.leaves.nodup_iff]
  exact (List.Nodup.of_map _ utxo.nodup_keys).map (leafOf_injective hleaf blockMtp)

theorem Tracks.mem_leaves (h : Tracks hs blockMtp F utxo) (hleaf : hs.LeafInjective)
    {e : Outpoint × Unspent} : leafOf hs blockMtp e ∈ F.leaves ↔ utxo.get? e.1 = some e.2 := by
  rw [h.leaves.mem_iff, (List.mem_map_of_injective (leafOf_injective hleaf blockMtp)),
    SortedMap.mem_entries]

theorem Tracks.new : Tracks hs blockMtp (Forest.new : Forest H) .empty where
  cache := .new
  index := .new
  leaves := .nil

/-- A coin that is found in the forest is taken out of both. The bound keeps the index right, and it
    stays, since the forest only shrinks. -/
theorem Tracks.delete (h : Tracks hs blockMtp F utxo) (hleaf : hs.LeafInjective)
    (hroom : F.leaves.length ≤ 2 ^ 32) {e : Outpoint × Unspent} {pos : ℕ}
    (hfind : F.find (leafOf hs blockMtp e) = some pos) (hdelete : F.delete hs.parent pos = some G) :
    Tracks hs blockMtp G (utxo.erase e.1) ∧ G.leaves.length ≤ 2 ^ 32 := by
  have hget := h.index.getElem?_find hroom hfind
  have hthere := (h.mem_leaves hleaf).mp (List.mem_of_getElem? hget)
  have hrel := h.cache.delete pos
  unfold Accumulator.ListModel.delete at hrel
  rw [hdelete, if_pos (List.getElem?_eq_some_iff.mp hget).1] at hrel
  cases hrel with
  | some hkept =>
    have hleaves := hkept.leaves
    refine ⟨⟨⟨rfl, hkept.cache⟩, h.index.delete hdelete, ?_⟩, ?_⟩
    · rw [hleaves]
      have hperm := (SwapRemove.cons_swapRemove_perm hget).trans
        (h.leaves.trans ((SortedMap.entries_erase hthere).map (leafOf hs blockMtp)))
      exact List.Perm.cons_inv hperm
    · rw [hleaves, SwapRemove.length_swapRemove]
      omega

/-- A coin at a new outpoint is put into both. -/
theorem Tracks.add (h : Tracks hs blockMtp F utxo) {e : Outpoint × Unspent}
    (hnew : utxo.get? e.1 = none) :
    Tracks hs blockMtp (F.add hs.parent (leafOf hs blockMtp e)) (utxo.insert e.1 e.2) := by
  have hkept := h.cache.add (leafOf hs blockMtp e)
  refine ⟨⟨rfl, hkept.cache⟩, h.index.add _, ?_⟩
  rw [hkept.leaves]
  have hinsert := (SortedMap.entries_insert (v := e.2) hnew).map (leafOf hs blockMtp)
  refine List.Perm.trans ?_ hinsert.symm
  exact (List.perm_append_singleton _ _).trans (h.leaves.cons _)

theorem Tracks.addAll {es : List (Outpoint × Unspent)} (h : Tracks hs blockMtp F utxo)
    (hkeys : (es.map Prod.fst).Nodup) (hnew : ∀ e ∈ es, utxo.get? e.1 = none) :
    Tracks hs blockMtp ((es.map (leafOf hs blockMtp)).foldl (Forest.add hs.parent) F)
      (utxo.insertAll es) := by
  induction es generalizing F utxo with
  | nil => exact h
  | cons e es ih =>
    obtain ⟨he, hkeys⟩ := List.nodup_cons.mp hkeys
    refine ih (h.add (hnew e List.mem_cons_self)) hkeys ?_
    intro e' he'
    have hne : e'.1 ≠ e.1 := fun heq => he (heq ▸ List.mem_map_of_mem he')
    rw [SortedMap.get?_insert, Function.update_of_ne hne]
    exact hnew e' (List.mem_cons_of_mem _ he')

/-! ## The inputs of a block -/

section

variable {core : Core} {height : UInt32} {block : Block} {coins' : Utxo} {k : Outpoint}
  {u : Unspent}

omit [DecidableEq H] in
/-- In the map of the block's outputs each output is found at its own outpoint: the txids of a block
    are different. -/
theorem get?_cur (htxids : (block.txdata.map core.getHash).Nodup) {t : Transaction}
    (ht : t ∈ block.txdata) {v : ℕ} {o : TxOut} (ho : t.vout[v]? = some o) :
    (block.cur core).get? ⟨core.getHash t, UInt32.ofNat v⟩ = some o := by
  unfold Block.cur
  refine SortedMap.get?_insertAll_of_mem ?_ ?_
  · refine nodup_flatMap_outpoints ?_ ?_ htxids
    · intro t
      have hmap := congrFun (List.filterMap_eq_map (f := fun p : TxOut × ℕ =>
        ((⟨core.getHash t, UInt32.ofNat p.2⟩ : Outpoint), p.1))) t.vout.zipIdx
      refine hmap ▸ @nodup_outpoints core t _ _ _ ?_
      intro p e he
      rw [← Option.some.inj he]
    · intro t e he
      obtain ⟨p, -, rfl⟩ := List.mem_map.mp he
      rfl
  · refine List.mem_flatMap.mpr ⟨t, ht, List.mem_map.mpr ⟨(o, v), ?_, rfl⟩⟩
    exact List.mem_zipIdx_iff_getElem?.mpr ho

/-- An input that takes an output of its own block finds it among the outputs. -/
theorem prevout_of_output (htxids : (block.txdata.map core.getHash).Nodup)
    (hnone : utxo.get? k = none) (hmem : (k, u) ∈ block.outputs core height)
    (hcoinbase : u.isCoinbase = false) : prevout core utxo block height k = some u := by
  unfold Block.outputs at hmem
  obtain ⟨⟨t, i⟩, ht, hout⟩ := List.mem_flatMap.mp hmem
  obtain ⟨v, o, ho, -, rfl, rfl⟩ := mem_spendableOutputs.mp hout
  dsimp only at hcoinbase
  unfold prevout
  rw [hnone, get?_cur htxids (List.fst_mem_of_mem_zipIdx ht) ho]
  simp [hcoinbase]

/-- What the loop over the inputs knows when it has been through `ops`. -/
structure SpendingInv (hs : Hashing H) (core : Core) (blockMtp : List UInt32) (utxo : Utxo)
    (height : UInt32) (block : Block) (ops : List Outpoint) (acc : Spending H) : Prop where
  /-- The coins spent so far are out of the forest and out of the map. -/
  tracks : Tracks hs blockMtp acc.forest (utxo.eraseAll ops)
  room : acc.forest.leaves.length ≤ 2 ^ 32
  /-- Of the block's own outputs, the leaves that were spent in it are noted, and are not added
      afterwards. -/
  spent : ∀ e ∈ block.outputs core height,
    leafOf hs blockMtp e ∈ acc.spentInBlock ↔ e.1 ∈ ops

/-- One input. Whether its leaf is one of the block's is whether its coin is one of the block's; in
    the one case the leaf is noted, in the other the coin goes out of the forest and of the map. -/
theorem SpendingInv.step {ops : List Outpoint} {acc acc' : Spending H}
    (h : SpendingInv hs core blockMtp utxo height block ops acc) (hleaf : hs.LeafInjective)
    (hblock : ConnectBlock core utxo height block coins') (hk : k ∈ block.spent)
    (hu : prevout core utxo block height k = some u) {i j : ℕ}
    (hstep : spendInput hs ((block.outputs core height).map (leafOf hs blockMtp)) acc
      ⟨i, j, u.coin k (blockMtp.getD u.height.toNat 0)⟩ = some acc') :
    SpendingInv hs core blockMtp utxo height block (ops ++ [k]) acc' := by
  obtain ⟨heffect, -⟩ := hblock.spec
  have hlast : utxo.eraseAll (ops ++ [k]) = (utxo.eraseAll ops).erase k := by
    unfold SortedMap.eraseAll
    rw [List.foldl_concat]
  -- a leaf is one of the block's exactly where its coin is
  have hmem : (u.coin k (blockMtp.getD u.height.toNat 0)).leaf hs ∈
      (block.outputs core height).map (leafOf hs blockMtp) ↔ (k, u) ∈ block.outputs core height :=
    List.mem_map_of_injective (a := (k, u)) (leafOf_injective hleaf blockMtp)
  unfold spendInput at hstep
  dsimp only at hstep
  rcases heffect.source k hk with ⟨w, hw, hcoinbase, hnone⟩ | ⟨hnot, w, hw⟩
  · -- an output of the block, which the accumulator never had
    rw [prevout_of_output hblock.txids hnone hw hcoinbase] at hu
    obtain rfl := Option.some.inj hu
    rw [if_pos (hmem.mpr hw)] at hstep
    obtain rfl := Option.some.inj hstep
    refine ⟨?_, h.room, ?_⟩
    -- the coin was never among the unspent ones
    · have hsame : (utxo.eraseAll ops).erase k = utxo.eraseAll ops := by
        refine SortedMap.ext_get? fun l => ?_
        rw [SortedMap.get?_erase]
        by_cases hl : l = k
        · rw [hl, Function.update_self, SortedMap.get?_eraseAll, hnone, ite_self]
        · rw [Function.update_of_ne hl]
      rw [hlast, hsame]
      exact h.tracks
    · intro e he
      rw [List.mem_append, List.mem_singleton, ← h.spent e he, List.mem_cons]
      have hsame : leafOf hs blockMtp e = leafOf hs blockMtp (k, w) ↔ e.1 = k := by
        rw [(leafOf_injective hleaf blockMtp).eq_iff]
        constructor
        · intro heq
          rw [heq]
        · intro heq
          exact List.inj_on_of_nodup_map heffect.keys he hw heq
      rw [← hsame]
      exact or_comm
  · -- a coin from before, which is deleted
    have hprevout : prevout core utxo block height k = some w := by
      unfold prevout
      rw [hw]
    rw [hprevout] at hu
    obtain rfl := Option.some.inj hu
    rw [if_neg fun hin => hnot (List.mem_map_of_mem (hmem.mp hin))] at hstep
    simp only [Option.bind_eq_bind, Option.bind_eq_some_iff, Option.some.injEq] at hstep
    obtain ⟨pos, hfind, proofI, -, proofLast, -, G, hdelete, rfl⟩ := hstep
    obtain ⟨htracks, hroom⟩ := h.tracks.delete (e := (k, w)) hleaf h.room hfind hdelete
    refine ⟨by rw [hlast]; exact htracks, hroom, ?_⟩
    intro e he
    -- no output of the block has this outpoint, so the outputs left to add are the same
    have hne : e.1 ≠ k := fun heq => hnot (heq ▸ List.mem_map_of_mem he)
    simp only [List.mem_append, List.mem_singleton, hne, or_false]
    exact h.spent e he

/-- The coin of an input, as `Block.spends` makes it. -/
def spendOf (core : Core) (utxo : Utxo) (blockMtp : List UInt32) (height : UInt32) (block : Block)
    (x : ℕ × ℕ × TxIn) : Option InputSpend := do
  let u ← prevout core utxo block height (outpointOf x.2.2)
  some ⟨x.1, x.2.1, u.coin (outpointOf x.2.2) (blockMtp.getD u.height.toNat 0)⟩

/-- The whole loop. -/
theorem SpendingInv.fold {xs : List (ℕ × ℕ × TxIn)} {spends : List InputSpend} {ops : List Outpoint}
    {acc acc' : Spending H} (h : SpendingInv hs core blockMtp utxo height block ops acc)
    (hleaf : hs.LeafInjective) (hblock : ConnectBlock core utxo height block coins')
    (hxs : ∀ x ∈ xs, outpointOf x.2.2 ∈ block.spent)
    (hspends : xs.mapM (spendOf core utxo blockMtp height block) = some spends)
    (hfold : spends.foldlM (spendInput hs ((block.outputs core height).map (leafOf hs blockMtp)))
      acc = some acc') :
    SpendingInv hs core blockMtp utxo height block (ops ++ xs.map fun x => outpointOf x.2.2)
      acc' := by
  induction xs generalizing spends ops acc with
  | nil =>
    obtain rfl := Option.some.inj hspends
    obtain rfl := Option.some.inj hfold
    rwa [List.map_nil, List.append_nil]
  | cons x xs ih =>
    rw [List.mapM_cons] at hspends
    obtain ⟨s, hfirst, hspends⟩ := Option.bind_eq_some_iff.mp hspends
    obtain ⟨rest, hrest, heq⟩ := Option.bind_eq_some_iff.mp hspends
    obtain rfl := Option.some.inj heq
    obtain ⟨u, hu, heq⟩ := Option.bind_eq_some_iff.mp hfirst
    obtain rfl := Option.some.inj heq
    rw [List.foldlM_cons] at hfold
    obtain ⟨mid, hstep, hfold⟩ := Option.bind_eq_some_iff.mp hfold
    have hmid := h.step hleaf hblock (hxs x List.mem_cons_self) hu hstep
    have hall := ih hmid (fun y hy => hxs y (List.mem_cons_of_mem _ hy)) hrest hfold
    rwa [List.append_assoc] at hall

/-! ## The coinbase that is overwritten -/

omit [DecidableEq H] in
theorem deleteSuperseded_eq_some [DecidableEq H] {acc : Forest H × List (Bip30Del H)} {leaf : H}
    {acc' : Forest H × List (Bip30Del H)} (h : deleteSuperseded hs acc leaf = some acc') :
    ∃ pos, acc.1.find leaf = some pos ∧ acc.1.delete hs.parent pos = some acc'.1 := by
  unfold deleteSuperseded at h
  simp only [Option.bind_eq_bind, Option.bind_eq_some_iff, Option.some.injEq] at h
  obtain ⟨pos, hfind, proofI, -, proofLast, -, G, hdelete, rfl⟩ := h
  exact ⟨pos, hfind, hdelete⟩

theorem Tracks.superseded {es : List (Outpoint × Unspent)} {dels : List (Bip30Del H)}
    {last : Forest H × List (Bip30Del H)} (h : Tracks hs blockMtp F utxo)
    (hleaf : hs.LeafInjective) (hroom : F.leaves.length ≤ 2 ^ 32)
    (hfold : (es.map (leafOf hs blockMtp)).foldlM (deleteSuperseded hs) (F, dels) = some last) :
    Tracks hs blockMtp last.1 (utxo.eraseAll (es.map Prod.fst)) := by
  induction es generalizing F utxo dels with
  | nil =>
    obtain rfl := Option.some.inj hfold
    exact h
  | cons e es ih =>
    rw [List.map_cons, List.foldlM_cons] at hfold
    obtain ⟨⟨G, dels'⟩, hstep, hfold⟩ := Option.bind_eq_some_iff.mp hfold
    obtain ⟨pos, hfind, hdelete⟩ := deleteSuperseded_eq_some hstep
    obtain ⟨htracks, hroom⟩ := h.delete hleaf hroom hfind hdelete
    exact ih htracks hroom hfold

/-- The outpoints whose coins a block overwrites. -/
def overwritten (core : Core) (height : UInt32) (coinbase : Transaction) : List Outpoint :=
  match overwrittenHeight height with
  | none => []
  | some old => (spendableOutputs core old true coinbase).map Prod.fst

/-- An output is at the same outpoint whenever it was created. -/
theorem keys_spendableOutputs (old height : UInt32) (isCoinbase : Bool) (t : Transaction) :
    (spendableOutputs core old isCoinbase t).map Prod.fst =
      (spendableOutputs core height isCoinbase t).map Prod.fst := by
  unfold spendableOutputs
  rw [List.map_filterMap, List.map_filterMap]
  refine List.filterMap_congr ?_
  intro p _
  dsimp only
  split <;> rfl

/-- The leaves of an overwritten coinbase go, and with them the coins, whatever the new coinbase
    puts there later. -/
theorem Tracks.overwrite {coinbase : Transaction} {last : Forest H × Option (Bip30Overwrite H)}
    (h : Tracks hs blockMtp F utxo) (hleaf : hs.LeafInjective) (hroom : F.leaves.length ≤ 2 ^ 32)
    (hover : overwrite hs core coinbase blockMtp height F = some last) :
    Tracks hs blockMtp last.1 (utxo.eraseAll (overwritten core height coinbase)) := by
  unfold Bridge.overwrite at hover
  unfold overwritten
  cases hold : overwrittenHeight height with
  | none =>
    rw [hold] at hover
    obtain rfl := Option.some.inj hover
    exact h
  | some old =>
    rw [hold] at hover
    simp only [Option.bind_eq_bind, Option.bind_eq_some_iff] at hover
    obtain ⟨⟨G, dels⟩, hfold, heq⟩ := hover
    obtain rfl := Option.some.inj heq
    have hleaves : supersededLeaves hs core coinbase old (blockMtp.getD old.toNat 0) =
        (spendableOutputs core old true coinbase).map (leafOf hs blockMtp) := by
      unfold supersededLeaves
      refine List.map_congr_left ?_
      intro e he
      unfold leafOf
      rw [(height_of_mem_spendableOutputs he).1]
    rw [hleaves] at hfold
    exact h.superseded hleaf hroom hfold

/-! ## A block -/

omit [DecidableEq H] in
theorem height_of_mem_outputs {e : Outpoint × Unspent} (he : e ∈ block.outputs core height) :
    e.2.height = height := by
  unfold Block.outputs at he
  obtain ⟨p, -, he⟩ := List.mem_flatMap.mp he
  exact (height_of_mem_spendableOutputs he).1

omit [DecidableEq H] in
theorem outLeaves_eq (hmtp : height.toNat < blockMtp.length) :
    block.outLeaves hs core height (blockMtp.getD height.toNat block.time) =
      (block.outputs core height).map (leafOf hs blockMtp) := by
  unfold Block.outLeaves
  refine List.map_congr_left ?_
  intro e he
  unfold leafOf
  rw [height_of_mem_outputs he, List.getD_eq_getElem _ _ hmtp, List.getD_eq_getElem _ _ hmtp]

/-- The coins after a block, in the order in which the forest comes to them: the spent ones out, the
    overwritten ones out, what is left of the outputs in. -/
theorem ConnectBlock.eq_steps (hblock : ConnectBlock core utxo height block coins')
    {coinbase : Transaction} (hcoinbase : block.txdata.head? = some coinbase) :
    coins' = ((utxo.eraseAll block.spent).eraseAll (overwritten core height coinbase)).insertAll
      (block.kept core height) := by
  obtain ⟨heffect, -⟩ := hblock.spec
  rw [← hblock.updateUtxo_eq]
  refine SortedMap.ext_get? fun k => ?_
  have hkeptKeys : ((block.kept core height).map Prod.fst).Nodup :=
    heffect.keys.sublist (List.filter_sublist.map Prod.fst)
  by_cases hkept : k ∈ (block.kept core height).map Prod.fst
  · obtain ⟨⟨l, u⟩, he, rfl⟩ := List.mem_map.mp hkept
    rw [get?_updateUtxo_of_mem heffect.keys he, SortedMap.get?_insertAll_of_mem hkeptKeys he]
  · rw [get?_updateUtxo_of_notMem hkept, SortedMap.get?_insertAll_of_notMem hkept,
      SortedMap.get?_eraseAll, SortedMap.get?_eraseAll]
    by_cases hspent : k ∈ block.spent
    · rw [if_pos hspent, ite_self]
    · rw [if_neg hspent, if_neg]
      -- What is overwritten and not spent is an output that is kept.
      intro hover
      apply hkept
      unfold overwritten at hover
      cases hold : overwrittenHeight height with
      | none =>
        rw [hold] at hover
        exact absurd hover List.not_mem_nil
      | some old =>
        rw [hold] at hover
        dsimp only at hover
        rw [keys_spendableOutputs old height] at hover
        obtain ⟨e, he, rfl⟩ := List.mem_map.mp hover
        refine List.mem_map_of_mem (List.mem_filter.mpr ⟨?_, decide_eq_true hspent⟩)
        obtain ⟨txs, htxs⟩ := List.head?_eq_some_iff.mp hcoinbase
        rw [Block.outputs_cons htxs]
        exact List.mem_append_left _ he

/-- The inputs that the bridge goes through are those that the map is updated by. -/
theorem map_outpointOf_inputs (block : Block) :
    (block.txdata.tail.zipIdx.flatMap fun (t, i) =>
      t.vin.zipIdx.map fun (txin, j) => (i, j, txin)).map (fun x => outpointOf x.2.2) =
      block.spent := by
  have hone : ∀ p : Transaction × ℕ,
      (p.1.vin.zipIdx.map fun q => (p.2, q.2, q.1)).map (fun x => outpointOf x.2.2) =
        p.1.vin.map outpointOf := by
    intro p
    rw [List.map_map]
    exact (List.map_map (g := outpointOf) (f := Prod.fst)).symm.trans
      (congrArg _ (List.zipIdx_map_fst 0 p.1.vin))
  unfold Block.spent
  rw [List.map_flatMap]
  refine (List.flatMap_congr fun p _ => hone p).trans ?_
  rw [← List.flatMap_map Prod.fst fun t : Transaction => t.vin.map outpointOf, List.zipIdx_map_fst]

/-- What the loop has cancelled are the outputs that the block spends. -/
theorem SpendingInv.kept {acc : Spending H}
    (h : SpendingInv hs core blockMtp utxo height block block.spent acc) :
    ((block.outputs core height).map (leafOf hs blockMtp)).filter (· ∉ acc.spentInBlock) =
      (block.kept core height).map (leafOf hs blockMtp) := by
  unfold Block.kept
  rw [List.filter_map]
  congr 1
  refine List.filter_congr ?_
  intro e he
  simp [h.spent e he]

/-- What the forest is given is not in the map by then. -/
theorem get?_eq_none_of_kept (heffect : BlockEffect core utxo height block)
    {coinbase : Transaction} (hcoinbase : block.txdata.head? = some coinbase)
    {e : Outpoint × Unspent} (he : e ∈ block.kept core height) :
    ((utxo.eraseAll block.spent).eraseAll (overwritten core height coinbase)).get? e.1 = none := by
  rw [SortedMap.get?_eraseAll, SortedMap.get?_eraseAll]
  rcases heffect.fresh e (List.mem_filter.mp he).1 with hnone | ⟨hold, coinbase', hcoinbase', hmem⟩
  · rw [hnone, ite_self, ite_self]
  · obtain rfl : coinbase = coinbase' := Option.some.inj (hcoinbase.symm.trans hcoinbase')
    rw [if_pos]
    obtain ⟨old, hold⟩ := Option.isSome_iff_exists.mp hold
    unfold overwritten
    rw [hold]
    dsimp only
    rw [keys_spendableOutputs old height]
    exact List.mem_map_of_mem hmem

/-- **A block keeps the leaves those of the map**, wherever the bridge gets through it. -/
theorem Tracks.buildBlockCarried {carried : Carried H} (h : Tracks hs blockMtp F utxo)
    (hleaf : hs.LeafInjective) (hroom : F.leaves.length ≤ 2 ^ 32)
    (hblock : ConnectBlock core utxo height block coins') (hmtp : height.toNat < blockMtp.length)
    (hbuild : buildBlockCarried hs core utxo blockMtp height block F = some carried) :
    Tracks hs blockMtp carried.forest coins' := by
  obtain ⟨heffect, -⟩ := hblock.spec
  unfold Bridge.buildBlockCarried at hbuild
  simp only [Option.bind_eq_bind, Option.bind_eq_some_iff, Option.some.injEq] at hbuild
  obtain ⟨coinbase, hcoinbase, spends, hspends, rootPrev, -, acc, hacc, ⟨G, bip30⟩, hover, rootNext,
    -, rfl⟩ := hbuild
  rw [outLeaves_eq hmtp] at hacc ⊢
  have hstart : SpendingInv hs core blockMtp utxo height block [] ⟨F, [], []⟩ :=
    ⟨h, hroom, fun e _ => by simp⟩
  unfold Block.spends at hspends
  have hinputs := hstart.fold hleaf hblock ?_ hspends hacc
  · rw [List.nil_append, map_outpointOf_inputs] at hinputs
    rw [hinputs.kept, hblock.eq_steps hcoinbase]
    refine (hinputs.tracks.overwrite hleaf hinputs.room hover).addAll ?_ ?_
    · exact heffect.keys.sublist (List.filter_sublist.map Prod.fst)
    · intro e he
      exact get?_eq_none_of_kept heffect hcoinbase he
  · intro x hx
    rw [← map_outpointOf_inputs]
    exact List.mem_map_of_mem hx

end

end Bridge
end Hazync
