import Hazync.Guest.BlockRun
import Hazync.Guest.BlockValue
import Hazync.Guest.WalkComplete

/-!
# The block check passes where everything it asks for is there

What the check asks of the block's own bytes is `BlockRules`: the header, the coinbase, the weights.
What it asks of the accumulator and of the spent coins is `Presented`. Where both hold it returns,
with every flag set (`Presented.validateBlock`).

## The other direction

Elsewhere the result of the check is taken apart: it has returned, so this and that was so. Here it
is put together, which is what a prover needs to know, who has a valid block and wants to be sure
that the guest will take it. What has to be excluded is mostly what soundness never meets: that a
vector is too small, that an index is out of range, that a loop runs out of its bound, that a
deserialiser refuses its own serialisation.

The conditions are in two structures, because they come from two sides. `BlockRules` is consensus,
about the bytes of the block alone: another witness of the same block satisfies it too
(`BlockRules.congr`). `Presented` is the work of the bridge: the entries, the proofs, and the two
accumulators.
-/

namespace Hazync
namespace Guest

open ByteStrings
open Accumulator (Proof Stump normalize)

variable {H : Type}

/-- What the block check asks that is about neither the accumulator nor an input: the header, the
    coinbase, the commitments to the transactions, the limits and the subsidy. -/
structure BlockRules (hs : Hashing H) (core : Core) (w : BlockWitness H) (mtp : UInt32) : Prop where
  version : w.versionOk = true
  /-- The header's hash is below its own target. -/
  pow : checkPow hs core w.header = 1
  /-- Core's root of the txids is the one in the header, without a mutation. -/
  merkle : merkleOk core w = true
  /-- The coinbase passes the checks of a transaction by itself. -/
  cbCheck : ∃ fee, checkTx core w.coinbaseTx [0] = some (1, fee)
  cbIsCoinbase : isCoinbaseTx core w.coinbaseTx = some 1
  cbFinal : isFinalTx core w.coinbaseTx w.height (w.lockTime mtp) = some 1
  /-- It begins with the height. -/
  bip34 : checkBip34 core w.coinbaseTx w.height = some 1
  /-- From segwit on the coinbase commits to the witnesses, before it there are none. -/
  witness : ∃ wtxids hasWitness, recWtxids core w [] = some (wtxids, hasWitness) ∧
    witnessOk hs core w wtxids hasWitness = some true
  /-- Weight and signature operations are within their limits. -/
  costs : ∃ weight sigops, blockCosts hs core w = some (weight, sigops) ∧
    weight ≤ MAX_BLOCK_WEIGHT ∧ sigops ≤ MAX_BLOCK_SIGOPS_COST
  /-- And the coinbase takes no more than the subsidy and the fees. -/
  subsidy : ∃ value, coinbaseValue core w.coinbaseTx = some value ∧
    subsidyOk ((w.fees core).foldl (· + ·) 0) value (blockSubsidy core w.height) = true

section

variable {hs : Hashing H} {core : Core} {w : BlockWitness H} {mtp : UInt32} {g : Gathered H}
  {cb : Transaction} {views : List (TxView H)} {ti : ℕ}

/-- The rules are about the block, and not about what was put into the witness beside it. -/
theorem BlockRules.congr {w' : BlockWitness H} (h : BlockRules hs core w mtp)
    (header : w'.header = w.header) (height : w'.height = w.height)
    (coinbaseTx : w'.coinbaseTx = w.coinbaseTx) (txids : w'.txids = w.txids) (txs : w'.txs = w.txs)
    (txPrevouts : w'.txPrevouts = w.txPrevouts) (inputs : w'.inputs = w.inputs) :
    BlockRules hs core w' mtp := by
  obtain ⟨_, _, _, _, _, _, _, _, _, _, _, _, _⟩ := w
  obtain ⟨_, _, _, _, _, _, _, _, _, _, _, _, _⟩ := w'
  dsimp only at header height coinbaseTx txids txs txPrevouts inputs
  subst header height coinbaseTx txids txs txPrevouts inputs
  constructor
  · exact h.version
  · exact h.pow
  · exact h.merkle
  · exact h.cbCheck
  · exact h.cbIsCoinbase
  · exact h.cbFinal
  · exact h.bip34
  · with_unfolding_all exact h.witness
  · with_unfolding_all exact h.costs
  · with_unfolding_all exact h.subsidy

/-- Each transaction with its prevouts, from the views. -/
theorem Viewed.zip_eq (h : Viewed core w ti views) :
    (w.txs.drop ti).zip (w.txPrevouts.drop ti) = views.map fun v => (v.raw, v.prevouts) := by
  induction h with
  | nil => rw [List.drop_length, List.zip_nil_left, List.map_nil]
  | cons hv _ ih =>
    rw [drop_of_getElem? hv.raw, drop_of_getElem? hv.prevouts, List.zip_cons_cons, ih, List.map_cons]

/-- The fees are those of the views. -/
theorem Viewed.fees_eq (h : Viewed core w 0 views) :
    w.fees core = views.map (TxView.fee core) := by
  have hzip := h.zip_eq
  rw [List.drop_zero, List.drop_zero] at hzip
  rw [BlockWitness.fees, hzip, List.map_map]
  rfl

/-! ## The gathering walk -/

/-- A transaction that can be read is gathered, where its leaves fit in the vector. -/
theorem gather_complete {raw : Bytes} {tx : Transaction} {isCb : UInt32}
    (htx : core.unserializeTx raw = some tx)
    (hroom : (g.outputLeaves ++
      (createdCoins core tx w.height isCb mtp).map (Coin.leaf hs)).length ≤ vecCapacity32) :
    gather hs core w mtp raw isCb g = some ({ g with
      outputLeaves := g.outputLeaves ++ (createdCoins core tx w.height isCb mtp).map (Coin.leaf hs)
      createdAt := g.createdAt ++
        ((createdCoins core tx w.height isCb mtp).map (Coin.leaf hs)).map fun l =>
          (l, UInt32.ofNat g.txPos) }, core.getHash tx) := by
  rw [List.length_append] at hroom
  rw [gather, txOutLeaves, htx]
  simp only [Option.bind_eq_bind, Option.bind_some]
  rw [if_pos hroom]

/-- The first entry of a transaction, and the others. -/
theorem TxView.Fits.inputs_eq {v : TxView H} (hv : v.Fits core w ti) : ∃ head tail,
    v.inputs = head :: tail ∧ head.txFirst = 1 ∧ head.txIdx.toNat = ti ∧
      ∀ inp ∈ tail, inp.txFirst ≠ 1 := by
  cases hinputs : v.inputs with
  | nil =>
    have hpos := hv.pos
    rw [hinputs] at hpos
    exact absurd hpos (lt_irrefl 0)
  | cons head tail =>
    have hget : v.inputs[0]? = some head := by rw [hinputs]; rfl
    obtain ⟨hidx, -, hfirst⟩ := hv.entry 0 head hget
    refine ⟨head, tail, rfl, hfirst.mpr rfl, hidx, fun inp hinp hone => ?_⟩
    obtain ⟨k, hk⟩ := List.mem_iff_getElem?.mp hinp
    have hget' : v.inputs[k + 1]? = some inp := by rw [hinputs]; exact hk
    exact absurd ((hv.entry (k + 1) inp hget').2.2.mp hone) (Nat.succ_ne_zero k)

/-- The walk over the first inputs gathers every transaction, if they are those of the txids. -/
theorem gatherInputs_complete (hviews : Viewed core w ti views) (hpos : g.txPos = ti + 1)
    (htxids : w.txids.drop (ti + 1) = views.map fun v => core.getHash v.tx)
    (hroom : (g.outputLeaves ++ views.flatMap (TxView.created hs core w mtp)).length ≤
      vecCapacity32) (hall : g.allOk = true) :
    gatherInputs hs core w mtp (views.flatMap TxView.inputs) g = some
      { outputLeaves := g.outputLeaves ++ views.flatMap (TxView.created hs core w mtp)
        createdAt := g.createdAt ++ createdFrom hs core w mtp (ti + 1) views
        txPos := g.txPos + views.length
        allOk := true } := by
  induction hviews generalizing g with
  | nil =>
    obtain ⟨outputLeaves, createdAt, txPos, allOk⟩ := g
    dsimp only at hall
    simp [gatherInputs, createdFrom, hall]
  | @cons ti v views hv _ ih =>
    obtain ⟨head, tail, hinputs, hfirst, hidx, htail⟩ := hv.inputs_eq
    rw [List.flatMap_cons, ← List.append_assoc] at hroom
    have hid : w.txids[ti + 1]? = some (core.getHash v.tx) := by
      have h0 := congrArg (fun l : List Bytes32 => l[0]?) htxids
      simpa using h0
    rw [drop_of_getElem? hid, List.map_cons, List.cons.injEq] at htxids
    have hgather : gather hs core w mtp v.raw.1 0 g = some _ := gather_complete hv.tx (by
      rw [List.length_append] at hroom
      exact (Nat.le_add_right _ _).trans hroom)
    rw [List.flatMap_cons, hinputs, List.cons_append, gatherInputs, if_pos hfirst, hidx, hv.raw]
    dsimp only
    rw [hgather]
    simp only [Option.bind_eq_bind, Option.bind_some]
    rw [gatherInputs_skip htail, ih (by simp [hpos]) htxids.2 hroom (by simp [hall, hpos, hid])]
    simp [TxView.created, createdFrom, hpos]
    omega

/-- So both walks end, with the leaves of the whole block. -/
theorem gatherOutputs_complete (hcb : core.unserializeTx w.coinbaseTx = some cb)
    (hviews : Viewed core w 0 views) (hpv : w.txPrevouts.length = w.txs.length)
    (hin : w.inputs = views.flatMap TxView.inputs)
    (htxids : w.txids = core.getHash cb :: views.map fun v => core.getHash v.tx)
    (hroom : (outputLeaves hs core w mtp cb views).length ≤ vecCapacity32) :
    gatherOutputs hs core w mtp = some
      ({ outputLeaves := outputLeaves hs core w mtp cb views
         createdAt := createdAt hs core w mtp cb views
         txPos := 1 + views.length
         allOk := true }, core.getHash cb,
        UInt32.ofNat (createdCoins core cb w.height 1 mtp).length) := by
  have hfirst : gather hs core w mtp w.coinbaseTx 1
      { outputLeaves := [], createdAt := [], txPos := 0, allOk := true } = some _ :=
    gather_complete hcb (by
      rw [outputLeaves, List.length_append] at hroom
      exact (Nat.le_add_right _ _).trans hroom)
  have hlen := hviews.length
  have hcount : w.txids.length = 1 + views.length := by
    rw [htxids, List.length_cons, List.length_map, Nat.add_comm]
  rw [gatherOutputs, hfirst, hin]
  simp only [Option.bind_eq_bind, Option.bind_some, List.nil_append]
  rw [gatherInputs_complete hviews rfl]
  · simp [hcount, outputLeaves, createdAt]
  · rw [htxids]
    rfl
  · exact hroom
  · simp [htxids, hpv, ← hlen]

/-! ## The grouping -/

/-- The grouping passes over entries that come one group for each transaction. -/
theorem vinGrouped_complete (hviews : Viewed core w ti views) {fuel : ℕ}
    (hfuel : (views.flatMap TxView.inputs).length ≤ fuel) :
    vinGrouped core w fuel (views.flatMap TxView.inputs) = some true := by
  induction hviews generalizing fuel with
  | nil => cases fuel <;> rfl
  | @cons ti v views hv _ ih =>
    obtain ⟨head, tail, hinputs, hfirst, hidx, -⟩ := hv.inputs_eq
    have hlen : v.inputs.length = tail.length + 1 := by rw [hinputs, List.length_cons]
    have hcount : (UInt32.ofNat v.tx.vin.length).toNat = v.inputs.length := by
      rw [UInt32.toNat_ofNat', Nat.mod_eq_of_lt v.tx.vin_lt, hv.length]
    rw [List.flatMap_cons, List.length_append] at hfuel
    cases fuel with
    | zero => omega
    | succ fuel =>
      have hgroup : groupOk head v.inputs = true := by
        rw [groupOk_iff]
        intro j inp hj
        obtain ⟨hti, hj', hfirst'⟩ := hv.entry j inp hj
        exact ⟨UInt32.toNat_inj.mp (hti.trans hidx.symm), hj', hfirst'⟩
      have hsplit : (v :: views).flatMap TxView.inputs =
          head :: (tail ++ views.flatMap TxView.inputs) := by
        rw [List.flatMap_cons, hinputs, List.cons_append]
      have hjoin : head :: (tail ++ views.flatMap TxView.inputs) =
          v.inputs ++ views.flatMap TxView.inputs := by
        rw [hinputs, List.cons_append]
      have hnonzero : ¬ (UInt32.ofNat v.tx.vin.length = 0 ∨
          (v.inputs ++ views.flatMap TxView.inputs).length < v.inputs.length) := by
        rw [not_or]
        refine ⟨fun h0 => ?_, by simp⟩
        have hzero := congrArg UInt32.toNat h0
        rw [hcount, hlen] at hzero
        exact absurd hzero (Nat.succ_ne_zero _)
      rw [hsplit, vinGrouped, if_neg (not_not.mpr hfirst), hidx, hv.raw]
      dsimp only
      rw [txVinCount, hv.tx]
      simp only [Option.bind_eq_bind, Option.bind_some]
      rw [hjoin, hcount, if_neg hnonzero, List.take_left, List.drop_left, if_pos hgroup]
      exact ih (by omega)

/-! ## Where a coin is created -/

/-- A coin of one of the first transactions is found at a place before that of the next. -/
theorem lookup_createdAt_of_mem [DecidableEq H] {done rest : List (TxView H)} {l : H}
    (hlen : done.length + 1 < 2 ^ 32)
    (hnodup : (outputLeaves hs core w mtp cb (done ++ rest)).Nodup)
    (hmem : l ∈ outputLeaves hs core w mtp cb done) :
    ∃ creator, (createdAt hs core w mtp cb (done ++ rest)).lookup l = some creator ∧
      creator < UInt32.ofNat (done.length + 1) := by
  have hsplit : createdAt hs core w mtp cb (done ++ rest) =
      createdAt hs core w mtp cb done ++ createdFrom hs core w mtp (1 + done.length) rest := by
    rw [createdAt, createdAt, createdFrom_append, List.append_assoc]
  rw [← createdAt_map_fst] at hmem hnodup
  obtain ⟨⟨l', creator⟩, hpair, rfl⟩ := List.mem_map.mp hmem
  have hall : (l', creator) ∈ createdAt hs core w mtp cb (done ++ rest) := by
    rw [hsplit]
    exact List.mem_append_left _ hpair
  refine ⟨creator, ?_, ?_⟩
  · cases hlookup : (createdAt hs core w mtp cb (done ++ rest)).lookup l' with
    | none =>
      rw [lookup_createdAt_eq_none, ← createdAt_map_fst] at hlookup
      exact absurd (List.mem_map_of_mem hall) hlookup
    | some other =>
      have hother := mem_of_lookup hlookup
      exact congrArg (fun p : H × UInt32 => some p.2)
        (List.inj_on_of_nodup_map hnodup hother hall rfl)
  · rw [UInt32.lt_iff_toNat_lt, UInt32.toNat_ofNat', Nat.mod_eq_of_lt hlen]
    rw [createdAt] at hpair
    rcases List.mem_append.mp hpair with hcb | hlater
    · obtain ⟨l, -, heq⟩ := List.mem_map.mp hcb
      rw [← (Prod.mk.inj heq).2]
      exact Nat.succ_pos _
    · obtain ⟨k, -, hk, rfl⟩ := mem_createdFrom hlater
      rw [UInt32.toNat_ofNat', Nat.mod_eq_of_lt (by omega)]
      omega

end

/-! ## The check -/

section

variable [DecidableEq H]

/-- What the block check asks of the accumulator and of the coins: `after` are the accumulator and
    the coins spent in the block when every input has been spent, `stump` is the accumulator when
    every delete is done. -/
structure Presented (hs : Hashing H) (core : Core) (w : BlockWitness H) (mtp : UInt32)
    (cb : Transaction) (views : List (TxView H)) (after : Stump H × List H) (stump : Stump H) :
    Prop where
  header : w.header.length = 80
  coinbase : core.unserializeTx w.coinbaseTx = some cb
  /-- The txids of the witness are those of its transactions, the coinbase first. -/
  txids : w.txids = core.getHash cb :: views.map fun v => core.getHash v.tx
  /-- The other transactions are there, each with its entries. -/
  viewed : Viewed core w 0 views
  prevouts : w.txPrevouts.length = w.txs.length
  inputs : w.inputs = views.flatMap TxView.inputs
  room : (outputLeaves hs core w mtp cb views).length ≤ vecCapacity32
  /-- Each input passes what the guest asks of it. -/
  passed : ∀ v ∈ views, v.OkFrom hs core w mtp Chunks.none 0
  /-- One input after the other, its coin's leaf is deleted from the accumulator, or is one that the
      block itself has made. -/
  spends : SpendsAll hs (createdAt hs core w mtp cb views) (w.rootPrev, [])
    (itemsFrom core 1 views) after
  /-- Each entry's proof is that of its coin's leaf where it is at that point. -/
  proofs : ∀ i ∈ itemsFrom core 1 views, i.ProofOf hs (createdAt hs core w mtp cb views)
  /-- At the two heights the coins of the earlier coinbase are deleted too. -/
  overwrite : bip30Overwrite hs core w after.1 = some (stump, true)
  /-- What is left, with the leaves that survive the block, is the accumulator that the witness
      promises. -/
  rootNext : normalize (addAll hs stump
      (survivors (outputLeaves hs core w mtp cb views) after.2)).roots = normalize w.rootNext.roots ∧
    (addAll hs stump (survivors (outputLeaves hs core w mtp cb views) after.2)).numLeaves =
      w.rootNext.numLeaves

variable {hs : Hashing H} {core : Core} {w : BlockWitness H} {mtp : UInt32} {cb : Transaction}
  {views : List (TxView H)} {after : Stump H × List H} {stump : Stump H}

omit [DecidableEq H] in
theorem exists_prePass_none : ∃ pre, prePass hs core w mtp Chunks.none = some pre := by
  unfold prePass
  split
  · exact ⟨_, rfl⟩
  · exact ⟨_, rfl⟩

/-- **The block check passes**, and ends with the roots and the SMT root that were promised. -/
theorem Presented.validateBlock {root : H} (h : Presented hs core w mtp cb views after stump)
    (hrules : BlockRules hs core w mtp)
    (hbip30 : bip30Check hs core w (core.getHash cb)
      (UInt32.ofNat (createdCoins core cb w.height 1 mtp).length) = some (true, root)) :
    ∃ r, validateBlock hs core w mtp Chunks.none = some r ∧ r.blockValid = true ∧
      r.outSmtRoot = root := by
  obtain ⟨pre, hpre⟩ : ∃ pre, prePass hs core w mtp Chunks.none = some pre := exists_prePass_none
  obtain ⟨fee, hcbCheck⟩ := hrules.cbCheck
  obtain ⟨wtxids, hasWitness, hwtxids, hwitness⟩ := hrules.witness
  obtain ⟨weight, sigops, hcosts, hweight, hsigops⟩ := hrules.costs
  obtain ⟨value, hvalue, hsubsidy⟩ := hrules.subsidy
  have hgather := gatherOutputs_complete h.coinbase h.viewed h.prevouts h.inputs h.txids h.room
  have hgrouped : vinGrouped core w w.inputs.length w.inputs = some true := by
    rw [h.inputs]
    exact vinGrouped_complete h.viewed le_rfl
  have hps : w.inputs.zipIdx.map Prod.fst = views.flatMap TxView.inputs := by
    rw [List.zipIdx_map_fst, h.inputs]
  obtain ⟨s, hwalk, hall, hafter⟩ := walkViews_complete pre (s := .start w.rootPrev true)
    h.viewed h.passed hps rfl h.spends h.proofs rfl
  -- the fees of the walk are those of the bytes
  have hnum : Numbered w w.inputs.zipIdx := fun p hp => List.mk_mem_zipIdx_iff_getElem?.mp hp
  have hcache : CacheOk hs w none := fun _ _ hnone => by cases hnone
  obtain ⟨-, -, -, hwalked⟩ := walkViews_ok h.viewed (scriptsSound_none pre) hps hnum hcache rfl
    hwalk hall
  have hfees : s.totalFee = (w.fees core).foldl (· + ·) 0 := by
    rw [hwalked, h.viewed.fees_eq]
    rfl
  have hstart : (w.versionOk && true && true) = true := by simp [hrules.version]
  obtain ⟨hstump, hspent⟩ := Prod.mk.inj hafter
  let run : BlockRun hs core w mtp Chunks.none :=
    { g := _, cbTxid := _, cbOutputs := _, grouped := true, pre := pre, s := s, stump := stump
      overwriteOk := true, wtxids := wtxids, hasWitness := hasWitness, witnessOk := true
      bip34 := 1, bip30Ok := true, outSmtRoot := root, cbCheck := 1, cbFee := fee
      cbIsCoinbase := 1, coinbaseVal := value, totalWeight := weight, totalSigops := sigops
      cbFinal := 1
      header_eq := h.header
      gather_eq := hgather
      grouped_eq := hgrouped
      pre_eq := hpre
      walk_eq := by
        dsimp only
        rw [hstart]
        exact hwalk
      overwrite_eq := by
        rw [hstump]
        exact h.overwrite
      wtxids_eq := hwtxids
      witness_eq := hwitness
      bip34_eq := hrules.bip34
      bip30_eq := hbip30
      cbCheck_eq := hcbCheck
      cbIsCoinbase_eq := hrules.cbIsCoinbase
      coinbaseVal_eq := hvalue
      costs_eq := hcosts
      cbFinal_eq := hrules.cbFinal }
  refine ⟨run.result, validateBlock_eq_some.mpr ⟨run, rfl⟩, ?_, rfl⟩
  have hend : run.after = addAll hs stump
      (survivors (outputLeaves hs core w mtp cb views) after.2) := by
    rw [← hspent]
    rfl
  have hnext : run.result.rootMatches = true := by
    obtain ⟨hroots, hleaves⟩ := h.rootNext
    rw [← hend] at hroots hleaves
    exact Bool.and_eq_true_iff.mpr ⟨decide_eq_true hroots, decide_eq_true hleaves⟩
  have hflags : run.result.allOk = true := by
    show (s.allOk && true && decide ((1 : Int) = 1) && decide ((1 : Int) = 1) &&
      decide ((1 : Int) = 1)) = true
    simp [hall]
  refine blockValid_iff.mpr ⟨⟨hflags, hnext, rfl⟩, ?_, hrules.merkle, ?_, ?_, ?_, rfl, rfl⟩
  · exact decide_eq_true hrules.pow
  · show subsidyOk s.totalFee value _ = true
    rw [hfees]
    exact hsubsidy
  · exact decide_eq_true hweight
  · exact decide_eq_true hsigops

end
end Guest
end Hazync
