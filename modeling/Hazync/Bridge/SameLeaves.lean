import Hazync.Bridge.Follow
import Hazync.Guest.CoinbaseSmt
import Hazync.Guest.Coins
import Hazync.Guest.Run
import Hazync.Lib.Parallel

/-!
# The guest and the bridge keep the same leaves

The bridge looks the coin of an input up in its map and takes the coin's leaf out of its forest; the
guest is given the coin and the place of its leaf, and asks for proofs. The two programs meet in the
leaves: a guest that accepts a block has taken out what the bridge takes out, in the same order, and
put in what the bridge puts in. So wherever a run of accepted blocks and the bridge's walk have been
through the same chain, the guest's roots are those of the bridge's forest (`Replayed.guest_agrees`).

## Two directions of trust

In `Hazync.Bridge.BundleSpends` the witness is the bridge's own, and the question is whether the
guest takes it. Here it is anybody's, and the question is what the guest can have done. It was told
of each coin its fields and where its leaf is, and it has checked the proofs. So each leaf that it
deleted was in its accumulator, and the accumulator commits to the bridge's leaves: the coin is one
that the bridge's map has (`coinAt_eq`). That the two are the *same* coin is the injectivity of the
leaf hash.

What is left is the order. `TakesOut` follows the leaves through deletes one by one, by `swapErase`,
which does not depend on positions, since all leaves are different.
-/

namespace Hazync
namespace Bridge

open ByteStrings Ledger SwapRemove
open Accumulator (Forest Proof Stump)
open Guest (BlockResult BlockWitness Boundary Chunks Coin Core GENESIS_TIME LoopState Transaction
  TxIn TxOut TxView Validated blockDeletes createdCoins deleteAll deleteAll_sound deletedFrom
  keptLeaves medianTimePast outputLeaves spentCoins superseded)

variable {H : Type}

/-- What a txid stands for: where the coins of the inputs are, and the outputs. The witnesses of the
    inputs are no part of it. -/
structure SameBody (core : Core) (t t' : Transaction) : Prop where
  txid : core.getHash t = core.getHash t'
  spent : t.vin.map outpointOf = t'.vin.map outpointOf
  vout : t.vout = t'.vout

/-- The witness is of this block. -/
structure WitnessOf (hs : Hashing H) (core : Core) (height : UInt32) (block : Block)
    (w : BlockWitness H) : Prop where
  header : w.header = block.header
  txs : List.Forall₂ (fun raw t => ∃ t', core.unserializeTx raw = some t' ∧ SameBody core t' t)
    (w.coinbaseTx :: w.txs.map Subtype.val) block.txdata
  /-- At the heights where the bridge overwrites a coinbase stand the two blocks that the guest
      knows by their hashes. -/
  grandfathered : (overwrittenHeight height).isSome → w.isBip30Block hs = true
  height : w.height = height

/-- `CScript::IsUnspendable`, which `out_spendable` writes out. -/
def KnowsSpendable (core : Core) : Prop := ∀ spk, core.isUnspendable spk = !outSpendable spk

/-- Where a coin is. -/
def coinOutpoint (c : Coin) : Outpoint := ⟨c.txid, c.vout⟩

@[simp] theorem coinOutpoint_coin (u : Unspent) (k : Outpoint) (mtp : UInt32) :
    coinOutpoint (u.coin k mtp) = k := rfl

/-- Lists that a key tells apart are the same if their keys are. -/
theorem eq_of_map_eq {α β : Type} {f : α → β} {g : β → Option α} {xs ys : List α}
    (hx : ∀ x ∈ xs, g (f x) = some x) (hy : ∀ y ∈ ys, g (f y) = some y)
    (h : xs.map f = ys.map f) : xs = ys := by
  have hback : ∀ zs : List α, (∀ z ∈ zs, g (f z) = some z) → (zs.map f).filterMap g = zs := by
    intro zs hzs
    rw [List.filterMap_map]
    exact (List.filterMap_congr hzs).trans List.filterMap_some
  rw [← hback xs hx, h, hback ys hy]

/-- Lists that are related place by place give the same, if what is related does. -/
theorem flatMap_eq_of_forall₂ {α β : Type} {r : α → α → Prop} {f : α → List β} {xs ys : List α}
    (h : List.Forall₂ r xs ys) (hf : ∀ {x y}, r x y → f x = f y) : xs.flatMap f = ys.flatMap f := by
  induction h with
  | nil => rfl
  | cons hone _ ih => rw [List.flatMap_cons, List.flatMap_cons, hf hone, ih]

/-! ## The outputs -/

section

variable {hs : Hashing H} {core : Core} {w : BlockWitness H} {mtp height : UInt32}
  {block : Block} {cb : Transaction} {views : List (TxView H)} {blockMtp : List UInt32}

/-- The outputs that the guest makes leaves of are the bridge's spendable outputs, at the same
    indices. -/
theorem createdCoins_eq (hscripts : KnowsSpendable core) (t : Transaction)
    (height isCoinbase mtp : UInt32) : createdCoins core t height isCoinbase mtp =
      (spendableOutputs core height (isCoinbase ≠ 0) t).map fun e => e.2.coin e.1 mtp := by
  unfold createdCoins spendableOutputs
  rw [List.map_filterMap]
  refine List.filterMap_congr ?_
  intro p _
  obtain ⟨o, v⟩ := p
  dsimp only
  rw [hscripts]
  cases outSpendable o.scriptPubKey <;> rfl

/-- The transactions of a witness that fits the block are the block's, as far as txids, inputs and
    outputs go. -/
theorem WitnessOf.txdata (h : WitnessOf hs core height block w)
    (hcb : core.unserializeTx w.coinbaseTx = some cb)
    (hviewed : Guest.Viewed core w 0 views) :
    ∃ coinbase txs, block.txdata = coinbase :: txs ∧ SameBody core cb coinbase ∧
      List.Forall₂ (SameBody core) (views.map (·.tx)) txs := by
  obtain ⟨coinbase, txs, ⟨cb', hcb', hsame⟩, hrest, heq⟩ := List.forall₂_cons_left_iff.mp h.txs
  obtain rfl := Option.some.inj (hcb.symm.trans hcb')
  refine ⟨coinbase, txs, heq, hsame, ?_⟩
  have hraws := hviewed.raws
  rw [List.drop_zero] at hraws
  rw [hraws, List.map_map, List.forall₂_map_left_iff] at hrest
  rw [List.forall₂_map_left_iff]
  have hall := (List.forall₂_and_left views txs).mpr ⟨hviewed.fits, hrest⟩
  refine hall.imp ?_
  rintro v t ⟨⟨ti, hfit⟩, t', ht', hsame⟩
  obtain rfl := Option.some.inj (hfit.tx.symm.trans ht')
  exact hsame

theorem SameBody.spendableOutputs {t t' : Transaction} (h : SameBody core t t') (height : UInt32)
    (isCoinbase : Bool) :
    spendableOutputs core height isCoinbase t = spendableOutputs core height isCoinbase t' := by
  unfold Bridge.spendableOutputs
  rw [h.vout, h.txid]

/-- The outputs of the block are those that the guest reads. -/
theorem WitnessOf.outputs_eq (h : WitnessOf hs core height block w)
    (hcb : core.unserializeTx w.coinbaseTx = some cb) (hviewed : Guest.Viewed core w 0 views) :
    block.outputs core height = spendableOutputs core height true cb ++
      views.flatMap fun v => spendableOutputs core height false v.tx := by
  obtain ⟨coinbase, txs, htxdata, hsame, hrest⟩ := h.txdata hcb hviewed
  have houts := flatMap_eq_of_forall₂ hrest fun hone => hone.spendableOutputs height false
  rw [List.flatMap_map] at houts
  rw [Block.outputs_cons htxdata, hsame.spendableOutputs, ← houts]

/-- So is what its inputs name. -/
theorem WitnessOf.spent_eq (h : WitnessOf hs core height block w)
    (hcb : core.unserializeTx w.coinbaseTx = some cb) (hviewed : Guest.Viewed core w 0 views) :
    block.spent = views.flatMap fun v => v.tx.vin.map outpointOf := by
  obtain ⟨coinbase, txs, htxdata, -, hrest⟩ := h.txdata hcb hviewed
  unfold Block.spent
  rw [htxdata, List.tail_cons]
  have hspent := flatMap_eq_of_forall₂ hrest fun hone => hone.spent
  rw [List.flatMap_map] at hspent
  exact hspent.symm

/-- The leaves that the guest gathers are those of the bridge. -/
theorem WitnessOf.outputLeaves_eq (h : WitnessOf hs core height block w)
    (hscripts : KnowsSpendable core) (hcb : core.unserializeTx w.coinbaseTx = some cb)
    (hviewed : Guest.Viewed core w 0 views) (hmtp : blockMtp[height.toNat]? = some mtp) :
    outputLeaves hs core w mtp cb views =
      (block.outputs core height).map (leafOf hs blockMtp) := by
  obtain ⟨hlt, hget⟩ := List.getElem?_eq_some_iff.mp hmtp
  have hmtp' : blockMtp.getD height.toNat block.time = mtp := by
    rw [List.getD_eq_getElem _ _ hlt, hget]
  rw [← outLeaves_eq hlt, hmtp', Block.outLeaves, h.outputs_eq hcb hviewed,
    outputLeaves, h.height, createdCoins_eq hscripts, List.map_append, List.map_map,
    List.map_flatMap]
  congr 1
  refine List.flatMap_congr ?_
  intro v _
  rw [TxView.created, h.height, createdCoins_eq hscripts, List.map_map]
  rfl

end

/-! ## What is taken out of a forest -/

section

variable [DecidableEq H] {parent : H → H → H} {F G K : Forest H} {leaf : H} {pos : ℕ}
  {ls ms : List H}

/-- A forest of different leaves, each of which is found where it is. -/
structure Findable (parent : H → H → H) (F : Forest H) : Prop where
  cache : Forest.Kept parent F F.leaves
  /-- The index says where a leaf is, or gives nothing. -/
  index : F.IndexKept
  /-- Different leaves, so that the index has one place for each. -/
  nodup : F.leaves.Nodup
  /-- The index has places of 32 bits. -/
  room : F.leaves.length ≤ 2 ^ 32

/-- `G` is `F` when `ls` have been taken out of it one after the other. -/
structure TakesOut (parent : H → H → H) (F : Forest H) (ls : List H) (G : Forest H) : Prop where
  /-- Each was there to begin with. -/
  mem : ∀ l ∈ ls, l ∈ F.leaves
  /-- The last leaf moves to where the deleted one was, one deletion after the other. -/
  leaves : G.leaves = ls.foldl swapErase F.leaves
  sub : ∀ l ∈ G.leaves, l ∈ F.leaves
  findable : Findable parent G

theorem TakesOut.refl (h : Findable parent F) : TakesOut parent F [] F :=
  ⟨fun _ hl => absurd hl List.not_mem_nil, rfl, fun _ hl => hl, h⟩

/-- One run of deletes after another. -/
theorem TakesOut.trans (h : TakesOut parent F ls G) (h' : TakesOut parent G ms K) :
    TakesOut parent F (ls ++ ms) K := by
  refine ⟨?_, ?_, fun l hl => h.sub l (h'.sub l hl), h'.findable⟩
  · intro l hl
    rcases List.mem_append.mp hl with hl | hl
    · exact h.mem l hl
    · exact h.sub l (h'.mem l hl)
  · rw [List.foldl_append, ← h.leaves, h'.leaves]

/-- A leaf that is found and deleted: the index gives its place, so it is that leaf which goes and
    no other. -/
theorem Findable.delete (h : Findable parent F) (hfind : F.find leaf = some pos)
    (hdelete : F.delete parent pos = some G) : TakesOut parent F [leaf] G := by
  have hget := h.index.getElem?_find h.room hfind
  have hmem := List.mem_of_getElem? hget
  have hrel := h.cache.delete pos
  unfold Accumulator.ListModel.delete at hrel
  rw [hdelete, if_pos (List.getElem?_eq_some_iff.mp hget).1] at hrel
  cases hrel with
  | some hkept =>
    have hleaves : G.leaves = swapErase F.leaves leaf := by
      rw [hkept.leaves, swapErase_of_getElem? h.nodup hget]
    refine ⟨?_, hleaves, ?_, ⟨rfl, hkept.cache⟩, h.index.delete hdelete, ?_, ?_⟩
    · intro l hl
      rwa [List.mem_singleton.mp hl]
    · intro l hl
      rw [hleaves] at hl
      exact mem_of_mem_swapErase hmem hl
    · rw [hleaves]
      exact nodup_swapErase h.nodup hmem
    · have hroom := h.room
      rw [hkept.leaves, length_swapRemove]
      omega

theorem Tracks.findable {hs : Hashing H} {blockMtp : List UInt32} {utxo : Utxo}
    (h : Tracks hs blockMtp F utxo) (hleaf : hs.LeafInjective) (hroom : F.leaves.length ≤ 2 ^ 32) :
    Findable hs.parent F :=
  ⟨h.cache, h.index, h.nodup hleaf, hroom⟩

end

/-! ## What the bridge takes out -/

section

variable [DecidableEq H] {hs : Hashing H} {core : Core} {height : UInt32} {block : Block}
  {blockMtp : List UInt32} {utxo coins' : Utxo} {F : Forest H} {created : List H}

/-- The inputs take out the leaves of the coins that the block does not create. The others are only
    remembered as spent in the block. -/
theorem spendInputs_takesOut {spends : List InputSpend} {acc acc' : Spending H}
    (h : Findable hs.parent acc.forest)
    (hfold : spends.foldlM (spendInput hs created) acc = some acc') :
    TakesOut hs.parent acc.forest (external created (spends.map fun s => s.coin.leaf hs))
        acc'.forest ∧
      acc'.spentInBlock =
        (internal created (spends.map fun s => s.coin.leaf hs)).reverse ++ acc.spentInBlock := by
  induction spends generalizing acc with
  | nil =>
    obtain rfl := Option.some.inj hfold
    exact ⟨.refl h, rfl⟩
  | cons s spends ih =>
    rw [List.foldlM_cons] at hfold
    obtain ⟨mid, hstep, hfold⟩ := Option.bind_eq_some_iff.mp hfold
    unfold spendInput at hstep
    dsimp only at hstep
    by_cases hmem : s.coin.leaf hs ∈ created
    · rw [if_pos hmem] at hstep
      have hmid := Option.some.inj hstep
      have hfound : Findable hs.parent mid.forest := by rwa [← hmid]
      obtain ⟨hout, hspent⟩ := ih hfound hfold
      rw [← hmid] at hout hspent
      rw [external, internal, List.map_cons, List.filter_cons_of_neg (by simpa using hmem),
        List.filter_cons_of_pos (by simpa using hmem), List.reverse_cons, List.append_assoc]
      exact ⟨hout, hspent⟩
    · rw [if_neg hmem] at hstep
      simp only [Option.bind_eq_bind, Option.bind_eq_some_iff, Option.some.injEq] at hstep
      obtain ⟨pos, hfind, proofI, -, proofLast, -, G, hdelete, rfl⟩ := hstep
      have hone := h.delete hfind hdelete
      obtain ⟨hout, hspent⟩ := ih hone.findable hfold
      rw [external, internal, List.map_cons, List.filter_cons_of_pos (by simpa using hmem),
        List.filter_cons_of_neg (by simpa using hmem)]
      exact ⟨hone.trans hout, hspent⟩

/-- What a coinbase at this height overwrites. -/
def supersededAt (hs : Hashing H) (core : Core) (coinbase : Transaction) (blockMtp : List UInt32)
    (height : UInt32) : List H :=
  match overwrittenHeight height with
  | none => []
  | some old => supersededLeaves hs core coinbase old (blockMtp.getD old.toNat 0)

omit [DecidableEq H] in
theorem supersededAt_congr {t t' : Transaction} (h : SameBody core t t') :
    supersededAt hs core t blockMtp height = supersededAt hs core t' blockMtp height := by
  unfold supersededAt
  split
  · rfl
  · unfold supersededLeaves
    rw [h.spendableOutputs]

theorem deleteSuperseded_takesOut {ls : List H} {acc acc' : Forest H × List (Guest.Bip30Del H)}
    (h : Findable hs.parent acc.1) (hfold : ls.foldlM (deleteSuperseded hs) acc = some acc') :
    TakesOut hs.parent acc.1 ls acc'.1 := by
  induction ls generalizing acc with
  | nil =>
    obtain rfl := Option.some.inj hfold
    exact .refl h
  | cons l ls ih =>
    rw [List.foldlM_cons] at hfold
    obtain ⟨mid, hstep, hfold⟩ := Option.bind_eq_some_iff.mp hfold
    obtain ⟨pos, hfind, hdelete⟩ := deleteSuperseded_eq_some hstep
    have hone := h.delete hfind hdelete
    exact hone.trans (ih hone.findable hfold)

theorem overwrite_takesOut {coinbase : Transaction}
    {last : Forest H × Option (Guest.Bip30Overwrite H)} (h : Findable hs.parent F)
    (hover : overwrite hs core coinbase blockMtp height F = some last) :
    TakesOut hs.parent F (supersededAt hs core coinbase blockMtp height) last.1 := by
  unfold overwrite at hover
  unfold supersededAt
  cases hold : overwrittenHeight height with
  | none =>
    rw [hold] at hover
    obtain rfl := Option.some.inj hover
    exact .refl h
  | some old =>
    rw [hold] at hover
    simp only [Option.bind_eq_bind, Option.bind_eq_some_iff] at hover
    obtain ⟨⟨G, dels⟩, hfold, heq⟩ := hover
    obtain rfl := Option.some.inj heq
    exact deleteSuperseded_takesOut h hfold

end

/-! ## What the guest takes out -/

section

variable [DecidableEq H] {hs : Hashing H} {core : Core} {w : BlockWitness H} {mtp height : UInt32}
  {chunks : Chunks H} {r : BlockResult H} {block : Block} {cb : Transaction}
  {views : List (TxView H)} {s : LoopState H} {stump stump' : Stump H} {blockMtp : List UInt32}
  {utxo coins' : Utxo} {F : Forest H} {L : List H} {ps : List (H × Guest.Bip30Del H)} {c : Coin}

/-- Deletes that are accepted take their leaves out wherever the prover says they are: an accepted
    proof is of a place that holds the leaf, and each leaf has one place. -/
theorem deletedFrom_eq (hnode : hs.NodeInjective) (hnodup : L.Nodup)
    (hL : stump.Commits hs.parent L) (h : deleteAll hs stump ps = some stump') :
    deletedFrom L ps = (ps.map Prod.fst).foldl swapErase L := by
  induction ps generalizing stump L with
  | nil => rfl
  | cons p ps ih =>
    rw [deleteAll, List.foldlM_cons] at h
    obtain ⟨mid, hstep, h⟩ := Option.bind_eq_some_iff.mp h
    obtain ⟨-, hget, hmid⟩ :=
      Guest.Stump.delete_sound hnode.parent hL (Guest.deleteAccepted_eq_some.mp hstep)
    have herase : swapRemove L p.2.globalPos.toNat = swapErase L p.1 :=
      (swapErase_of_getElem? hnodup hget).symm
    have hrest := ih (by rw [herase]; exact nodup_swapErase hnodup (List.mem_of_getElem? hget))
      hmid h
    rw [deletedFrom, List.foldl_cons, List.map_cons, List.foldl_cons, ← herase]
    exact hrest

/-- Where the coins that the block spends are. -/
theorem map_coinOutpoint_spentCoins (h : WitnessOf hs core height block w)
    (hval : Validated hs core w mtp chunks r cb views s stump) :
    (spentCoins core views).map coinOutpoint = block.spent := by
  rw [h.spent_eq hval.coinbase hval.viewed]
  unfold spentCoins
  rw [List.map_flatMap]
  refine List.flatMap_congr ?_
  intro v hv
  have hout := congrArg (List.map fun p : Bytes32 × UInt32 => (⟨p.1, p.2⟩ : Outpoint))
    (hval.blockOf.outpoints v hv)
  rwa [List.map_map, List.map_map] at hout

/-! ## The same coins -/

/-- The coin that the bridge finds at an outpoint. -/
def coinAt (core : Core) (utxo : Utxo) (blockMtp : List UInt32) (height : UInt32) (block : Block)
    (k : Outpoint) : Option Coin :=
  (prevout core utxo block height k).map fun u => u.coin k (blockMtp.getD u.height.toNat 0)

theorem coinAt_spendOf {xs : List (ℕ × ℕ × TxIn)} {spends : List InputSpend}
    (h : xs.mapM (spendOf core utxo blockMtp height block) = some spends) :
    (spends.map fun s => coinOutpoint s.coin) = xs.map (fun x => outpointOf x.2.2) ∧
      ∀ s ∈ spends, coinAt core utxo blockMtp height block (coinOutpoint s.coin) = some s.coin := by
  constructor
  · refine (Parallel.map_eq_of_mapM h fun x s hs => ?_).symm
    obtain ⟨u, -, heq⟩ := Option.bind_eq_some_iff.mp hs
    obtain rfl := Option.some.inj heq
    rfl
  · intro s hs
    obtain ⟨x, -, hx⟩ := Parallel.exists_of_mem_mapM h hs
    obtain ⟨u, hu, heq⟩ := Option.bind_eq_some_iff.mp hx
    obtain rfl := Option.some.inj heq
    unfold coinAt
    rw [coinOutpoint_coin, hu]
    rfl

theorem coinAt_spends {spends : List InputSpend}
    (h : block.spends core utxo blockMtp height = some spends) :
    (spends.map fun s => coinOutpoint s.coin) = block.spent ∧
      ∀ s ∈ spends, coinAt core utxo blockMtp height block (coinOutpoint s.coin) = some s.coin := by
  rw [← map_outpointOf_inputs]
  exact coinAt_spendOf h

omit [DecidableEq H] in
theorem exists_leafOf (hleaf : hs.LeafInjective) {es : List (Outpoint × Unspent)}
    (hmem : c.leaf hs ∈ es.map (leafOf hs blockMtp)) : ∃ u, (coinOutpoint c, u) ∈ es ∧
      c = u.coin (coinOutpoint c) (blockMtp.getD u.height.toNat 0) := by
  obtain ⟨⟨k, u⟩, he, heq⟩ := List.mem_map.mp hmem
  have hc := Guest.Coin.leaf_injective hleaf heq
  dsimp only at hc
  subst hc
  exact ⟨u, he, rfl⟩

/-- A coin that the guest takes for one of the block's or of the accumulator is the coin that the
    bridge finds there. An outpoint has one coin in the map or one in the block, and never one in
    each. -/
theorem coinAt_eq (hleaf : hs.LeafInjective) (htracks : Tracks hs blockMtp F utxo)
    (hblock : ConnectBlock core utxo height block coins') (hspent : coinOutpoint c ∈ block.spent)
    (hmem : c.leaf hs ∈ (block.outputs core height).map (leafOf hs blockMtp) ∨
      c.leaf hs ∈ F.leaves) :
    coinAt core utxo blockMtp height block (coinOutpoint c) = some c := by
  obtain ⟨heffect, -⟩ := hblock.spec
  rcases hmem with hcreated | hold
  · obtain ⟨u, hu, hc⟩ := exists_leafOf hleaf hcreated
    rcases heffect.source _ hspent with ⟨v, hv, hcoinbase, hnone⟩ | ⟨hnot, -⟩
    · obtain rfl : u = v :=
        congrArg Prod.snd (List.inj_on_of_nodup_map heffect.keys hu hv rfl)
      unfold coinAt
      rw [prevout_of_output hblock.txids hnone hu hcoinbase, Option.map_some, ← hc]
    · exact absurd (List.mem_map_of_mem hu) hnot
  · obtain ⟨u, hu, hc⟩ := exists_leafOf hleaf (htracks.leaves.mem_iff.mp hold)
    unfold coinAt prevout
    rw [SortedMap.mem_entries.mp hu, Option.map_some, ← hc]

/-- A coin of the accumulator is the map's. -/
theorem get?_of_leaf (hleaf : hs.LeafInjective) (htracks : Tracks hs blockMtp F utxo)
    (hmem : c.leaf hs ∈ F.leaves) : (utxo.get? (coinOutpoint c)).map (fun u =>
      u.coin (coinOutpoint c) (blockMtp.getD u.height.toNat 0)) = some c := by
  obtain ⟨u, hu, hc⟩ := exists_leafOf hleaf (htracks.leaves.mem_iff.mp hmem)
  rw [SortedMap.mem_entries.mp hu, Option.map_some, ← hc]

end

/-! ## A block -/

section

variable [DecidableEq H] {hs : Hashing H} {core : Core} {w : BlockWitness H} {mtp height : UInt32}
  {chunks : Chunks H} {r : BlockResult H} {block : Block} {cb : Transaction}
  {views : List (TxView H)} {s : LoopState H} {stump : Stump H} {blockMtp : List UInt32}
  {utxo coins' : Utxo} {F : Forest H} {carried : Carried H}

omit [DecidableEq H] in
theorem map_coinOutpoint_createdCoins (hscripts : KnowsSpendable core) (t : Transaction)
    (height mtp : UInt32) : (createdCoins core t height 1 mtp).map coinOutpoint =
      (spendableOutputs core height true t).map Prod.fst := by
  rw [createdCoins_eq hscripts, List.map_map]
  rfl

omit [DecidableEq H] in
/-- The coins that an overwrite replaces, as the bridge has them. -/
theorem supersededAt_eq_map {old : UInt32} (hold : overwrittenHeight height = some old) :
    supersededAt hs core cb blockMtp height = ((spendableOutputs core old true cb).map fun e =>
      e.2.coin e.1 (blockMtp.getD old.toNat 0)).map (Coin.leaf hs) := by
  unfold supersededAt supersededLeaves
  rw [hold, List.map_map]
  rfl

/-- Guest and bridge agree on what is overwritten, since it is there. The guest takes the height and
    the time of the old coinbase from the witness; only the right ones give leaves that are in the
    accumulator. -/
theorem superseded_eq (hleaf : hs.LeafInjective) (hscripts : KnowsSpendable core)
    (htracks : Tracks hs blockMtp F utxo) (hblock : ConnectBlock core utxo height block coins')
    (h : WitnessOf hs core height block w)
    (hval : Validated hs core w mtp chunks r cb views s stump)
    (hguest : ∀ l ∈ (superseded hs core w cb).map Prod.fst, l ∈ F.leaves)
    (hbridge : ∀ l ∈ supersededAt hs core cb blockMtp height, l ∈ F.leaves) :
    (superseded hs core w cb).map Prod.fst = supersededAt hs core cb blockMtp height := by
  obtain ⟨hsome, -, -⟩ := Guest.bip30Overwrite_ok hval.coinbase hval.overwrite
  rw [Guest.map_leaf_overwrittenCoins hval.coinbase hval.overwrite] at hguest ⊢
  cases hold : overwrittenHeight height with
  | none =>
    -- no output of this coinbase is unspent, so there is nothing the guest can have deleted
    have hnone : Guest.overwrittenCoins core w cb = [] := by
      rw [List.eq_nil_iff_forall_not_mem]
      intro c hc
      have hget := get?_of_leaf hleaf htracks (hguest _ (List.mem_map_of_mem hc))
      unfold Guest.overwrittenCoins at hc
      cases hov : w.bip30 with
      | none =>
        rw [hov] at hc
        exact absurd hc List.not_mem_nil
      | some ov =>
        rw [hov] at hc
        have hk := List.mem_map_of_mem (f := coinOutpoint) hc
        rw [map_coinOutpoint_createdCoins hscripts] at hk
        obtain ⟨e, he, hke⟩ := List.mem_map.mp hk
        obtain ⟨coinbase, txs, htxdata, hsame, -⟩ := h.txdata hval.coinbase hval.viewed
        have hcb : coinbase ∈ block.bip30 height := by
          unfold Block.bip30
          rw [hold, htxdata]
          exact List.mem_cons_self
        rw [hsame.spendableOutputs] at he
        rw [← hke, get?_eq_none_of_bip30 (hblock.bip30 coinbase hcb) he] at hget
        cases hget
    unfold supersededAt
    rw [hnone, hold]
    rfl
  | some old =>
    have hthere : w.bip30.isSome := by
      rw [hsome]
      exact h.grandfathered (by rw [hold]; rfl)
    obtain ⟨ov, hov⟩ := Option.isSome_iff_exists.mp hthere
    unfold Guest.overwrittenCoins at hguest ⊢
    rw [hov] at hguest ⊢
    rw [supersededAt_eq_map hold] at hbridge ⊢
    dsimp only at hguest ⊢
    congr 1
    refine eq_of_map_eq (f := coinOutpoint) (g := fun k => (utxo.get? k).map fun u =>
      u.coin k (blockMtp.getD u.height.toNat 0)) ?_ ?_ ?_
    · intro c hc
      exact get?_of_leaf hleaf htracks (hguest _ (List.mem_map_of_mem hc))
    · intro c hc
      exact get?_of_leaf hleaf htracks (hbridge _ (List.mem_map_of_mem hc))
    · rw [map_coinOutpoint_createdCoins hscripts, List.map_map,
        keys_spendableOutputs ov.oldHeight old true cb]
      rfl

/-- The leaves after a forest has been added to. -/
theorem leaves_foldl_add {parent : H → H → H} (hF : Forest.Kept parent F F.leaves)
    (leaves : List H) : (leaves.foldl (Forest.add parent) F).leaves = F.leaves ++ leaves := by
  induction leaves generalizing F with
  | nil => rw [List.foldl_nil, List.append_nil]
  | cons leaf leaves ih =>
    have hadd := hF.add leaf
    rw [List.foldl_cons, ih ⟨rfl, hadd.cache⟩, hadd.leaves, List.append_assoc,
      List.singleton_append]

/-- **A block that the guest accepts takes the leaves where the bridge takes them.** The overwritten
    leaves go, then the spent ones, then the new ones come, in the same order in both. -/
theorem Tracks.guest_leaves (htracks : Tracks hs blockMtp F utxo) (hleaf : hs.LeafInjective)
    (hnode : hs.NodeInjective) (hscripts : KnowsSpendable core) (hroom : F.leaves.length ≤ 2 ^ 32)
    (hblock : ConnectBlock core utxo height block coins')
    (hmtp : blockMtp[height.toNat]? = some mtp)
    (hbuild : Bridge.buildBlockCarried hs core utxo blockMtp height block F = some carried)
    (h : WitnessOf hs core height block w)
    (hval : Validated hs core w mtp chunks r cb views s stump)
    (hcommits : w.rootPrev.Commits hs.parent F.leaves) :
    carried.forest.leaves =
      deletedFrom F.leaves (blockDeletes hs core w mtp cb views) ++
        keptLeaves hs core w mtp cb views := by
  have hfound := htracks.findable hleaf hroom
  obtain ⟨first, txs, htxdata, hsame, -⟩ := h.txdata hval.coinbase hval.viewed
  obtain ⟨hlt, hget⟩ := List.getElem?_eq_some_iff.mp hmtp
  have hcreated : block.outLeaves hs core height (blockMtp.getD height.toNat block.time) =
      outputLeaves hs core w mtp cb views := by
    rw [outLeaves_eq hlt, h.outputLeaves_eq hscripts hval.coinbase hval.viewed hmtp]
  unfold Bridge.buildBlockCarried at hbuild
  simp only [Option.bind_eq_bind, Option.bind_eq_some_iff, Option.some.injEq] at hbuild
  obtain ⟨coinbase, hcoinbase, spends, hspends, rootPrev, -, acc, hacc, ⟨G, bip30⟩, hover, rootNext,
    -, rfl⟩ := hbuild
  rw [htxdata, List.head?_cons] at hcoinbase
  obtain rfl := Option.some.inj hcoinbase
  rw [hcreated] at hacc ⊢
  have hF : Findable hs.parent (Spending.forest ⟨F, [], []⟩) := hfound
  obtain ⟨hinputs, hspent⟩ := spendInputs_takesOut hF hacc
  have hsuper := overwrite_takesOut hinputs.findable hover
  rw [← supersededAt_congr hsame] at hsuper
  -- the guest's deletes are of leaves that are there
  obtain ⟨-, hsplit⟩ := deleteAll_sound hnode hcommits hval.deletes
  have hthere : ∀ l ∈ (blockDeletes hs core w mtp cb views).map Prod.fst, l ∈ F.leaves := by
    intro l hl
    rw [← Multiset.mem_coe, hsplit]
    exact Multiset.mem_add.mpr (.inl (Multiset.mem_coe.mpr hl))
  have hins : (Guest.itemsFrom core 1 views).map (fun i => i.coin.leaf hs) =
      (spentCoins core views).map (Coin.leaf hs) := by
    exact (Guest.map_leaf_itemsFrom 1 views).trans
      (Guest.map_leaf_spentCoins : _ = (views.map (TxView.leafTx hs core w mtp)).flatMap _).symm
  rw [blockDeletes, List.map_append, Guest.map_fst_externalDeletes, hins] at hthere
  -- so the coins it spends are those the bridge finds
  have hcoins : spentCoins core views = spends.map InputSpend.coin := by
    obtain ⟨hpoints, hfinds⟩ := coinAt_spends hspends
    refine eq_of_map_eq (f := coinOutpoint)
      (g := coinAt core utxo blockMtp height block) ?_ ?_ ?_
    · intro c hc
      have hk := List.mem_map_of_mem (f := coinOutpoint) hc
      rw [map_coinOutpoint_spentCoins h hval] at hk
      refine coinAt_eq hleaf htracks hblock hk ?_
      rw [← h.outputLeaves_eq hscripts hval.coinbase hval.viewed hmtp]
      by_cases hin : c.leaf hs ∈ outputLeaves hs core w mtp cb views
      · exact .inl hin
      · refine .inr (hthere _ (List.mem_append_left _ ?_))
        exact List.mem_filter.mpr ⟨List.mem_map_of_mem hc, decide_eq_true hin⟩
    · intro c hc
      obtain ⟨s, hs, rfl⟩ := List.mem_map.mp hc
      exact hfinds s hs
    · rw [map_coinOutpoint_spentCoins h hval, List.map_map]
      exact hpoints.symm
  have hleaves : (spends.map fun s => s.coin.leaf hs) =
      (spentCoins core views).map (Coin.leaf hs) := by
    rw [hcoins, List.map_map]
    rfl
  have hsuperseded : (Guest.superseded hs core w cb).map Prod.fst =
      supersededAt hs core cb blockMtp height := by
    refine superseded_eq hleaf hscripts htracks hblock h hval ?_ ?_
    · exact fun l hl => hthere l (List.mem_append_right _ hl)
    · exact fun l hl => hinputs.sub l (hsuper.mem l hl)
  rw [deletedFrom_eq hnode hfound.nodup hcommits hval.deletes, blockDeletes, List.map_append,
    Guest.map_fst_externalDeletes, hins, hsuperseded, List.foldl_append, ← hleaves,
    leaves_foldl_add hsuper.findable.cache, hsuper.leaves, hinputs.leaves]
  congr 1
  -- what is left of the outputs
  unfold keptLeaves unspent
  rw [← Guest.map_leaf_spentCoins, ← hleaves]
  refine List.filter_congr ?_
  intro l _
  rw [hspent, List.append_nil]
  simp only [List.mem_reverse]

end

end Bridge
end Hazync
