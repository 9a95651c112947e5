import Hazync.Guest.InputWalk

/-!
# What an accepted block is

`validateBlock_ok` takes a run of the block check apart that leaves `allOk` set: the
transactions, the spends in order, the outputs, and each value of the result as a function of
these. The results on accepted blocks start from here and do not look at the check again.

## The interface

The block check is the one function that all modes share, and the longest of the guest. Its results
are used by some twenty theorems, each of which needs another part of it. `Validated` is what they
have in common: the transactions as views, the spends as a relation on accumulators, and each field
of the result as an expression in these. It does not mention the loops, the caches or the order of
the checks. If one of those changes, this module and the ones before it have to be gone over, and
not those after.

There is no converse here, since the flags of a result can be set for more reasons than a proof has
to know; `BlockComplete` has the other direction, from the block's side.
-/

namespace Hazync
namespace Guest

open ByteStrings
open Accumulator (Proof Stump normalize)

variable {H : Type}

/-- The leaves the block creates, in canonical order. -/
def outputLeaves (hs : Hashing H) (core : Core) (w : BlockWitness H) (mtp : UInt32)
    (cb : Transaction) (views : List (TxView H)) : List H :=
  (createdCoins core cb w.height 1 mtp).map (Coin.leaf hs) ++
    views.flatMap (TxView.created hs core w mtp)

/-- `created_at`: each leaf with the position of its transaction. -/
def createdAt (hs : Hashing H) (core : Core) (w : BlockWitness H) (mtp : UInt32)
    (cb : Transaction) (views : List (TxView H)) : List (H × UInt32) :=
  ((createdCoins core cb w.height 1 mtp).map (Coin.leaf hs)).map (fun l => (l, 0)) ++
    createdFrom hs core w mtp 1 views

/-- The weight and the sigop cost the block check adds for a transaction. -/
def TxView.weight (core : Core) (v : TxView H) : Int64 :=
  ((txWuSigops core v.raw.1).map Prod.fst).getD 0

def TxView.sigops (hs : Hashing H) (core : Core) (w : BlockWitness H) (v : TxView H) : Int64 :=
  (txFullSigops core v.raw.1 v.prevouts.1 (w.flags hs)).getD 0

variable [DecidableEq H]

/-- A run of the block check that ends with `all_ok`: `cb` is the coinbase, `views` are the other
    transactions, `s` is the state after the walk over the inputs, and `stump` the accumulator
    after all deletes. -/
structure Validated (hs : Hashing H) (core : Core) (w : BlockWitness H) (mtp : UInt32)
    (chunks : Chunks H) (r : BlockResult H) (cb : Transaction) (views : List (TxView H)) (s : LoopState H)
    (stump : Stump H) : Prop where
  header : w.header.length = 80
  coinbase : core.unserializeTx w.coinbaseTx = some cb
  isCoinBase : core.isCoinBase cb = true
  cbCheck : ∃ fee, checkTx core w.coinbaseTx [0] = some (1, fee)
  cbFinal : isFinalTx core w.coinbaseTx w.height (w.lockTime mtp) = some 1
  /-- The listed txids are the hashes of the transactions that were read. -/
  txids : w.txids = core.getHash cb :: views.map fun v => core.getHash v.tx
  /-- The entries belong to the transactions in order. -/
  viewed : Viewed core w 0 views
  prevouts : w.txPrevouts.length = w.txs.length
  inputs : w.inputs = views.flatMap TxView.inputs
  /-- The outputs are counted in a word. -/
  room : (outputLeaves hs core w mtp cb views).length ≤ vecCapacity32
  /-- The pass over the outputs and the walk over the inputs have come to an end. -/
  walk : ∃ pre, prePass hs core w mtp chunks = some pre ∧
    walkInputs hs core w mtp chunks pre (createdAt hs core w mtp cb views)
      (.start w.rootPrev true) = some s
  /-- The walk has refused nothing. -/
  allOk : s.allOk = true
  /-- So each input has passed. -/
  passed : ∀ v ∈ views, v.OkFrom hs core w mtp chunks 0
  /-- What the walk has done to the accumulator, one coin after the other. -/
  spends : SpendsAll hs (createdAt hs core w mtp cb views) (w.rootPrev, [])
    (itemsFrom core 1 views) (s.stump, s.spentInBlock)
  /-- The deletes of the two heights. -/
  overwrite : bip30Overwrite hs core w s.stump = some (stump, true)
  /-- The block's outputs are added, but for those that were spent in it. -/
  rootNextRoots : r.rootNextRoots = (addAll hs stump
    (survivors (outputLeaves hs core w mtp cb views) s.spentInBlock)).normalized
  rootNextLeaves : r.rootNextLeaves = (addAll hs stump
    (survivors (outputLeaves hs core w mtp cb views) s.spentInBlock)).numLeaves
  /-- Whether the witness has promised this accumulator. -/
  rootMatches : r.rootMatches = (r.rootNextRoots = normalize w.rootNext.roots &&
    r.rootNextLeaves = w.rootNext.numLeaves : Bool)
  /-- The fees, added up as the guest adds them. -/
  totalFee : r.totalFee = (views.map (TxView.fee core)).foldl (· + ·) 0
  /-- What was asked of Core, in the order it was asked. -/
  calls : r.calls = (views.flatMap fun v => v.inputs.flatMap (v.callsFor hs w mtp chunks)) ++
    [.checkTx w.coinbaseTx [0] 1, .isFinalTx w.coinbaseTx w.height (w.lockTime mtp) 1]
  wtxids : recWtxids core w chunks.wtxids = some (r.wtxids, r.hasWitness)
  costs : blockCosts hs core w = some (r.totalWeight, r.totalSigops)
  merkle : r.merkleOk = merkleOk core w
  /-- The check of the coinbase's txid against the tree, and the tree after the block. -/
  bip30 : bip30Check hs core w (core.getHash cb)
    (UInt32.ofNat (createdCoins core cb w.height 1 mtp).length) = some (r.bip30Ok, r.outSmtRoot)
  coinbaseVal : coinbaseValue core w.coinbaseTx = some r.coinbaseVal
  subsidy : r.subsidy = blockSubsidy core w.height
  /-- The verdicts are what their functions give on these values; whether they hold is
      `blockValid`'s to say. -/
  subsidyOk : r.subsidyOk = Guest.subsidyOk r.totalFee r.coinbaseVal r.subsidy

variable {hs : Hashing H} {core : Core} {w : BlockWitness H} {mtp : UInt32} {r : BlockResult H}

omit [DecidableEq H] in
/-- The wrapper's answer about a coinbase is Core's. -/
theorem isCoinbaseTx_ok {raw : Bytes} {tx : Transaction} (htx : core.unserializeTx raw = some tx)
    (h : isCoinbaseTx core raw = some 1) : core.isCoinBase tx = true := by
  rw [isCoinbaseTx, htx] at h
  have h := Option.some.inj h
  by_contra hne
  rw [if_neg hne] at h
  cases h

omit [DecidableEq H] in
/-- The outputs gathered when every check of both walks has passed, with the grouping. -/
theorem gatherOutputs_ok {g : Gathered H} {cbTxid : Bytes32} {cbOutputs : UInt32}
    (hgather : gatherOutputs hs core w mtp = some (g, cbTxid, cbOutputs)) (hok : g.allOk = true)
    (hgrouped : vinGrouped core w w.inputs.length w.inputs = some true) :
    ∃ cb views, core.unserializeTx w.coinbaseTx = some cb ∧ cbTxid = core.getHash cb ∧
      cbOutputs = UInt32.ofNat (createdCoins core cb w.height 1 mtp).length ∧
      w.txids = core.getHash cb :: views.map (fun v => core.getHash v.tx) ∧
      Viewed core w 0 views ∧ w.txPrevouts.length = w.txs.length ∧
      w.inputs = views.flatMap TxView.inputs ∧
      g.outputLeaves = outputLeaves hs core w mtp cb views ∧
      g.createdAt = createdAt hs core w mtp cb views ∧
      g.outputLeaves.length ≤ vecCapacity32 := by
  obtain ⟨⟨g₁, txid⟩, hcb, hgather⟩ := Option.bind_eq_some_iff.mp hgather
  obtain ⟨g₂, hinputs, hgather⟩ := Option.bind_eq_some_iff.mp hgather
  cases hgather
  obtain ⟨cb, hcbTx, rfl, rfl, hroom⟩ := gather_eq_some hcb
  simp only [Bool.and_eq_true, decide_eq_true_eq] at hok
  obtain ⟨hok₂, hend⟩ := hok
  have hok₁ := gatherInputs_mono hinputs hok₂
  simp only [Bool.and_eq_true, decide_eq_true_eq] at hok₁
  obtain ⟨⟨hid, hcount⟩, hpv⟩ := hok₁
  obtain ⟨views, hin, hviewed, htxids, hleaves, hcreated, hcap⟩ :=
    views_of_grouped hgrouped hinputs hok₂ (Nat.zero_add 1).symm (hend.trans hcount.symm) hcount hpv
      hroom
  refine ⟨cb, views, hcbTx, rfl, ?_, ?_, hviewed, hpv, hin, ?_, ?_, hcap⟩
  · simp
  · rw [← htxids, ← drop_of_getElem? hid, List.drop_zero]
  · rw [hleaves, outputLeaves, List.nil_append]
  · rw [hcreated, createdAt, List.nil_append]
    rfl

/-- **A block that leaves `all_ok` set**, taken apart. -/
theorem validateBlock_ok {chunks : Chunks H}
    (hscripts : ∀ pre, prePass hs core w mtp chunks = some pre → ScriptsSound hs core w chunks pre)
    (h : validateBlock hs core w mtp chunks = some r) (hok : r.allOk = true) :
    ∃ cb views s stump, Validated hs core w mtp chunks r cb views s stump := by
  -- the stages of the source, in its order
  obtain ⟨_, hheader, h⟩ := Option.bind_eq_some_iff.mp h
  obtain ⟨⟨g, cbTxid, cbOutputs⟩, hgather, h⟩ := Option.bind_eq_some_iff.mp h
  obtain ⟨grouped, hgrouped, h⟩ := Option.bind_eq_some_iff.mp h
  obtain ⟨pre, hpre, h⟩ := Option.bind_eq_some_iff.mp h
  obtain ⟨s, hwalk, h⟩ := Option.bind_eq_some_iff.mp h
  obtain ⟨⟨stump, overwriteOk⟩, hoverwrite, h⟩ := Option.bind_eq_some_iff.mp h
  obtain ⟨⟨wtxids, hasWitness⟩, hwtxids, h⟩ := Option.bind_eq_some_iff.mp h
  obtain ⟨witness, -, h⟩ := Option.bind_eq_some_iff.mp h
  obtain ⟨bip34, -, h⟩ := Option.bind_eq_some_iff.mp h
  obtain ⟨⟨bip30Ok, outSmtRoot⟩, hbip30, h⟩ := Option.bind_eq_some_iff.mp h
  obtain ⟨⟨cbCode, cbFee⟩, hcbCheck, h⟩ := Option.bind_eq_some_iff.mp h
  obtain ⟨cbIs, hcbIs, h⟩ := Option.bind_eq_some_iff.mp h
  obtain ⟨coinbaseVal, hcoinbaseVal, h⟩ := Option.bind_eq_some_iff.mp h
  obtain ⟨⟨weight, sigops⟩, hcosts, h⟩ := Option.bind_eq_some_iff.mp h
  obtain ⟨final, hfinal, h⟩ := Option.bind_eq_some_iff.mp h
  cases h
  simp only [Bool.and_eq_true, decide_eq_true_eq] at hok
  -- what the final flag adds to that of the loop
  obtain ⟨⟨⟨⟨hall, rfl⟩, rfl⟩, rfl⟩, rfl⟩ := hok
  have hstart := walk_allOk hwalk hall
  simp only [LoopState.start, Bool.and_eq_true] at hstart
  obtain ⟨⟨hversion, hgok⟩, rfl⟩ := hstart
  -- the inputs fall into the transactions of the block
  obtain ⟨cb, views, hcb, rfl, rfl, htxids, hviewed, hpv, hin, hleaves, hcreated, hroom⟩ :=
    gatherOutputs_ok hgather hgok hgrouped
  rw [hcreated, hversion, hgok] at hwalk
  have hps : w.inputs.zipIdx.map Prod.fst = views.flatMap TxView.inputs := by
    rw [List.zipIdx_map_fst, hin]
  have hnum : Numbered w w.inputs.zipIdx := fun p hp => List.mk_mem_zipIdx_iff_getElem?.mp hp
  have hcache : CacheOk hs w none := fun _ _ hnone => by cases hnone
  obtain ⟨hpassed, -, hspends, hwalked⟩ :=
    walkViews_ok hviewed (hscripts pre hpre) hps hnum hcache rfl hwalk hall
  rw [hleaves] at hroom
  refine ⟨cb, views, s, stump, ?_⟩
  exact
    { header := by simpa using hheader
      coinbase := hcb
      isCoinBase := isCoinbaseTx_ok hcb hcbIs
      cbCheck := ⟨cbFee, hcbCheck⟩
      cbFinal := hfinal
      txids := htxids
      viewed := hviewed
      prevouts := hpv
      inputs := hin
      room := hroom
      walk := ⟨pre, hpre, hwalk⟩
      allOk := hall
      passed := hpassed
      spends := hspends
      overwrite := hoverwrite
      rootNextRoots := by rw [hleaves]
      rootNextLeaves := by rw [hleaves]
      rootMatches := rfl
      totalFee := by rw [hwalked]; rfl
      calls := by
        rw [hwalked]
        rfl
      wtxids := hwtxids
      costs := hcosts
      merkle := rfl
      bip30 := hbip30
      coinbaseVal := hcoinbaseVal
      subsidy := rfl
      subsidyOk := rfl }

/-- What the BIP30 check has established when it passes. -/
theorem bip30Check_ok {cbTxid : Bytes32} {cbOutputs : UInt32} {root : H}
    (h : bip30Check hs core w cbTxid cbOutputs = some (true, root)) :
    w.txids.Nodup ∧ w.smt.smtOverwrite.isSome = w.isBip30Block hs ∧
      ∃ spends, cbSpends core w w.inputs = some (some spends) ∧
        smtWitnessOk w cbTxid cbOutputs spends = true ∧
        Smt.applyBlock hs w.inSmtRoot (blockUpdate w cbTxid cbOutputs) = .ok root := by
  obtain ⟨spends, hspends, h⟩ := Option.bind_eq_some_iff.mp h
  dsimp only at h
  split at h
  · cases h
  rename_i hchecks
  simp only [not_or, not_not, decide_eq_true_eq, beq_iff_eq] at hchecks
  obtain ⟨hdistinct, hok, hoverwrite⟩ := hchecks
  refine ⟨hdistinct, hoverwrite, ?_⟩
  cases spends with
  | none => cases hok
  | some spends =>
    refine ⟨spends, hspends, hok, ?_⟩
    split at h
    · rename_i r happly
      cases h
      exact happly
    · cases h

end Guest
end Hazync
