import Hazync.Guest.Block

/-!
# The pieces of a run of the block check

`validateBlock` returns exactly when each of its pieces does (`validateBlock_eq_some`): a
`BlockRun` is what the pieces return, and the result is a function of it. What a piece does not
read it does not depend on; the SMT part of the witness is read by the BIP30 check alone
(`validateBlock_withSmt`).

## One equation for each piece

A `do` block of fifteen steps is a poor thing to reason about: to use one of its steps one would
take it apart from the top each time. So it is taken apart once. A `BlockRun` has what each piece
has returned, and an equation for each; `validateBlock_eq_some` says that it is the same as a
result. From here on a proof names the piece that it is about.

That the SMT part of the witness is read by one piece only is what lets the accumulator and the SMT
be treated in different modules, with another SMT part put into the same block.
-/

namespace Hazync
namespace Guest

open ByteStrings
open Accumulator (Stump normalize)

variable {H : Type} [DecidableEq H]

/-- What the pieces of the block check return. -/
structure BlockRun (hs : Hashing H) (core : Core) (w : BlockWitness H) (mtp : UInt32)
    (chunks : Chunks H) where
  g : Gathered H
  cbTxid : Bytes32
  cbOutputs : UInt32
  grouped : Bool
  pre : PrePass H
  s : LoopState H
  stump : Stump H
  overwriteOk : Bool
  wtxids : List Bytes32
  hasWitness : Bool
  witnessOk : Bool
  bip34 : Int
  bip30Ok : Bool
  outSmtRoot : H
  cbCheck : Int
  cbFee : Int64
  cbIsCoinbase : Int
  coinbaseVal : Int64
  totalWeight : Int64
  totalSigops : Int64
  cbFinal : Int
  header_eq : w.header.length = 80
  gather_eq : gatherOutputs hs core w mtp = some (g, cbTxid, cbOutputs)
  grouped_eq : vinGrouped core w w.inputs.length w.inputs = some grouped
  pre_eq : prePass hs core w mtp chunks = some pre
  walk_eq : walkInputs hs core w mtp chunks pre g.createdAt
    (.start w.rootPrev (w.versionOk && g.allOk && grouped)) = some s
  overwrite_eq : bip30Overwrite hs core w s.stump = some (stump, overwriteOk)
  wtxids_eq : recWtxids core w chunks.wtxids = some (wtxids, hasWitness)
  witness_eq : Guest.witnessOk hs core w wtxids hasWitness = some witnessOk
  bip34_eq : checkBip34 core w.coinbaseTx w.height = some bip34
  bip30_eq : bip30Check hs core w cbTxid cbOutputs = some (bip30Ok, outSmtRoot)
  cbCheck_eq : checkTx core w.coinbaseTx [0] = some (cbCheck, cbFee)
  cbIsCoinbase_eq : isCoinbaseTx core w.coinbaseTx = some cbIsCoinbase
  coinbaseVal_eq : coinbaseValue core w.coinbaseTx = some coinbaseVal
  costs_eq : blockCosts hs core w = some (totalWeight, totalSigops)
  cbFinal_eq : isFinalTx core w.coinbaseTx w.height (w.lockTime mtp) = some cbFinal

variable {hs : Hashing H} {core : Core} {w : BlockWitness H} {mtp : UInt32} {chunks : Chunks H}

/-- The accumulator after the block. -/
def BlockRun.after (run : BlockRun hs core w mtp chunks) : Stump H :=
  addAll hs run.stump (survivors run.g.outputLeaves run.s.spentInBlock)

/-- The result, from the pieces. -/
def BlockRun.result (run : BlockRun hs core w mtp chunks) : BlockResult H where
  scriptResults := run.s.scriptResults
  txChecks := run.s.txChecks
  coinLeaves := run.s.coinLeaves
  totalFee := run.s.totalFee
  powOk := checkPow hs core w.header = 1
  merkleOk := merkleOk core w
  coinbaseVal := run.coinbaseVal
  subsidy := blockSubsidy core w.height
  subsidyOk := subsidyOk run.s.totalFee run.coinbaseVal (blockSubsidy core w.height)
  allOk := run.s.allOk && run.overwriteOk && run.cbCheck = 1 && run.cbIsCoinbase = 1 &&
    run.cbFinal = 1
  rootMatches := run.after.normalized = normalize w.rootNext.roots &&
    run.after.numLeaves = w.rootNext.numLeaves
  weightOk := run.totalWeight ≤ MAX_BLOCK_WEIGHT
  sigopsOk := run.totalSigops ≤ MAX_BLOCK_SIGOPS_COST
  witnessOk := run.witnessOk
  bip34Ok := run.bip34 = 1
  bip30Ok := run.bip30Ok
  outSmtRoot := run.outSmtRoot
  tipHash := w.blockHash hs
  nbits := w.nbits
  blockTime := w.blockTime
  rootNextRoots := run.after.normalized
  rootNextLeaves := run.after.numLeaves
  totalWeight := run.totalWeight
  totalSigops := run.totalSigops
  wtxids := run.wtxids
  hasWitness := run.hasWitness
  calls := run.s.calls ++ [.checkTx w.coinbaseTx [0] run.cbCheck,
    .isFinalTx w.coinbaseTx w.height (w.lockTime mtp) run.cbFinal]

/-- **The block check returns exactly when its pieces do.** -/
theorem validateBlock_eq_some {r : BlockResult H} :
    validateBlock hs core w mtp chunks = some r ↔
      ∃ run : BlockRun hs core w mtp chunks, r = run.result := by
  constructor
  · intro h
    obtain ⟨_, hheader, h⟩ := Option.bind_eq_some_iff.mp h
    obtain ⟨⟨g, cbTxid, cbOutputs⟩, hgather, h⟩ := Option.bind_eq_some_iff.mp h
    obtain ⟨grouped, hgrouped, h⟩ := Option.bind_eq_some_iff.mp h
    obtain ⟨pre, hpre, h⟩ := Option.bind_eq_some_iff.mp h
    obtain ⟨s, hwalk, h⟩ := Option.bind_eq_some_iff.mp h
    obtain ⟨⟨stump, overwriteOk⟩, hoverwrite, h⟩ := Option.bind_eq_some_iff.mp h
    obtain ⟨⟨wtxids, hasWitness⟩, hwtxids, h⟩ := Option.bind_eq_some_iff.mp h
    obtain ⟨witness, hwitness, h⟩ := Option.bind_eq_some_iff.mp h
    obtain ⟨bip34, hbip34, h⟩ := Option.bind_eq_some_iff.mp h
    obtain ⟨⟨bip30Ok, outSmtRoot⟩, hbip30, h⟩ := Option.bind_eq_some_iff.mp h
    obtain ⟨⟨cbCode, cbFee⟩, hcbCheck, h⟩ := Option.bind_eq_some_iff.mp h
    obtain ⟨cbIs, hcbIs, h⟩ := Option.bind_eq_some_iff.mp h
    obtain ⟨coinbaseVal, hcoinbaseVal, h⟩ := Option.bind_eq_some_iff.mp h
    obtain ⟨⟨weight, sigops⟩, hcosts, h⟩ := Option.bind_eq_some_iff.mp h
    obtain ⟨final, hfinal, h⟩ := Option.bind_eq_some_iff.mp h
    cases h
    refine ⟨⟨g, cbTxid, cbOutputs, grouped, pre, s, stump, overwriteOk, wtxids, hasWitness, witness,
      bip34, bip30Ok, outSmtRoot, cbCode, cbFee, cbIs, coinbaseVal, weight, sigops, final, ?_,
      hgather, hgrouped, hpre, hwalk, hoverwrite, hwtxids, hwitness, hbip34, hbip30, hcbCheck, hcbIs,
      hcoinbaseVal, hcosts, hfinal⟩, rfl⟩
    simpa using hheader
  · rintro ⟨run, rfl⟩
    rw [validateBlock]
    simp only [run.header_eq, run.gather_eq, run.grouped_eq, run.pre_eq, run.walk_eq,
      run.overwrite_eq, run.wtxids_eq, run.witness_eq, run.bip34_eq, run.bip30_eq, run.cbCheck_eq,
      run.cbIsCoinbase_eq, run.coinbaseVal_eq, run.costs_eq, run.cbFinal_eq, guard_true,
      Option.bind_eq_bind, Option.bind_some, Option.pure_def]
    rfl

/-- What the result says of the header, it reads off the header. -/
theorem validateBlock_header {r : BlockResult H}
    (h : validateBlock hs core w mtp chunks = some r) :
    w.header.length = 80 ∧ r.tipHash = w.blockHash hs ∧ r.nbits = w.nbits ∧
      r.blockTime = w.blockTime := by
  obtain ⟨run, rfl⟩ := validateBlock_eq_some.mp h
  exact ⟨run.header_eq, rfl, rfl, rfl⟩

omit [DecidableEq H] in
/-- The conjunction, taken apart. -/
theorem blockValid_iff {r : BlockResult H} :
    r.blockValid = true ↔ (r.allOk = true ∧ r.rootMatches = true ∧ r.bip30Ok = true) ∧
      r.powOk = true ∧ r.merkleOk = true ∧ r.subsidyOk = true ∧ r.weightOk = true ∧
      r.sigopsOk = true ∧ r.witnessOk = true ∧ r.bip34Ok = true := by
  simp only [BlockResult.blockValid, Bool.and_eq_true]
  tauto

/-- The accumulator of a block that passes is the witness's, normalised. -/
theorem validateBlock_rootNext {r : BlockResult H}
    (h : validateBlock hs core w mtp chunks = some r) (hok : r.rootMatches = true) :
    r.rootNextRoots = normalize w.rootNext.roots ∧ r.rootNextLeaves = w.rootNext.numLeaves := by
  obtain ⟨run, rfl⟩ := validateBlock_eq_some.mp h
  obtain ⟨hroots, hleaves⟩ := Bool.and_eq_true_iff.mp hok
  exact ⟨of_decide_eq_true hroots, of_decide_eq_true hleaves⟩

section Frame

variable (w) (root : H) (smt : SmtWitness H)

/-- The witness with another SMT part. -/
def BlockWitness.withSmt : BlockWitness H := { w with inSmtRoot := root, smt := smt }

omit [DecidableEq H] in
/-- The SMT part is not read by the gathering walk. -/
theorem gatherInputs_withSmt (inputs : List (BlockInput H)) (g : Gathered H) :
    gatherInputs hs core (w.withSmt root smt) mtp inputs g = gatherInputs hs core w mtp inputs g := by
  induction inputs generalizing g with
  | nil => rfl
  | cons inp inputs ih =>
    rw [gatherInputs, gatherInputs]
    simp only [ih]
    rfl

omit [DecidableEq H] in
theorem gatherOutputs_withSmt :
    gatherOutputs hs core (w.withSmt root smt) mtp = gatherOutputs hs core w mtp := by
  rw [gatherOutputs, gatherOutputs]
  simp only [gatherInputs_withSmt]
  rfl

omit [DecidableEq H] in
/-- Nor by the grouping. -/
theorem vinGrouped_withSmt (n : ℕ) (inputs : List (BlockInput H)) :
    vinGrouped core (w.withSmt root smt) n inputs = vinGrouped core w n inputs := by
  induction n generalizing inputs with
  | zero => cases inputs <;> rfl
  | succ n ih =>
    cases inputs with
    | nil => rfl
    | cons head rest =>
      rw [vinGrouped, vinGrouped]
      simp only [ih]
      rfl

omit [DecidableEq H] in
/-- Nor by the pre-pass. -/
theorem prePassRuns_withSmt (n : ℕ) (inputs : List (BlockInput H)) :
    prePassRuns hs core (w.withSmt root smt) mtp n inputs = prePassRuns hs core w mtp n inputs := by
  induction n generalizing inputs with
  | zero => cases inputs <;> rfl
  | succ n ih =>
    cases inputs with
    | nil => rfl
    | cons inp inputs =>
      rw [prePassRuns, prePassRuns]
      simp only [ih]
      rfl

omit [DecidableEq H] in
theorem prePass_withSmt :
    prePass hs core (w.withSmt root smt) mtp chunks = prePass hs core w mtp chunks := by
  rw [prePass, prePass, prePassRuns_withSmt]
  rfl

/-- Nor by the walk over the inputs. -/
theorem walkInputs_withSmt (pre : PrePass H) (createdAt : List (H × UInt32)) (s : LoopState H) :
    walkInputs hs core (w.withSmt root smt) mtp chunks pre createdAt s =
      walkInputs hs core w mtp chunks pre createdAt s := by
  with_unfolding_all rfl

omit [DecidableEq H] in
theorem recWtxids_withSmt (chunkWtxids : List (UInt32 × Bytes32 × UInt32)) :
    recWtxids core (w.withSmt root smt) chunkWtxids = recWtxids core w chunkWtxids := by
  with_unfolding_all rfl

omit [DecidableEq H] in
theorem blockCosts_withSmt :
    blockCosts hs core (w.withSmt root smt) = blockCosts hs core w := by
  with_unfolding_all rfl

/-- The SMT part of the witness decides `bip30_ok` and the SMT root, and nothing else. -/
theorem validateBlock_withSmt {r : BlockResult H}
    (h : validateBlock hs core w mtp chunks = some r) :
    ∃ g cbTxid cbOutputs, gatherOutputs hs core w mtp = some (g, cbTxid, cbOutputs) ∧
      ∀ ok out, bip30Check hs core (w.withSmt root smt) cbTxid cbOutputs = some (ok, out) →
        validateBlock hs core (w.withSmt root smt) mtp chunks =
          some { r with bip30Ok := ok, outSmtRoot := out } := by
  obtain ⟨run, rfl⟩ := validateBlock_eq_some.mp h
  refine ⟨run.g, run.cbTxid, run.cbOutputs, run.gather_eq, fun ok out hbip30 => ?_⟩
  refine validateBlock_eq_some.mpr ⟨{ run with
    bip30Ok := ok
    outSmtRoot := out
    header_eq := run.header_eq
    gather_eq := by rw [gatherOutputs_withSmt, run.gather_eq]
    grouped_eq := by rw [← run.grouped_eq]; exact vinGrouped_withSmt w root smt _ _
    pre_eq := by rw [prePass_withSmt, run.pre_eq]
    walk_eq := by rw [walkInputs_withSmt]; exact run.walk_eq
    overwrite_eq := run.overwrite_eq
    wtxids_eq := by rw [recWtxids_withSmt, run.wtxids_eq]
    witness_eq := run.witness_eq
    bip34_eq := run.bip34_eq
    bip30_eq := hbip30
    cbCheck_eq := run.cbCheck_eq
    cbIsCoinbase_eq := run.cbIsCoinbase_eq
    coinbaseVal_eq := run.coinbaseVal_eq
    costs_eq := by rw [blockCosts_withSmt, run.costs_eq]
    cbFinal_eq := run.cbFinal_eq }, rfl⟩

end Frame

end Guest
end Hazync
