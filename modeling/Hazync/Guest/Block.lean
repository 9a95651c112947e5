import Hazync.Guest.Utreexo
import Hazync.Guest.Witness

/-!
# The block check (`validate_block_staged` of `prover/methods/guest/src/main.rs`)

Piece by piece in the order of the source, at `stage = u32::MAX`, which is what every caller but
the cost meter passes. `none` is a panic: of an assertion, an index, a vector that outgrows its
capacity, or a deserialiser. A check that fails clears `allOk` and the walk goes on.

`calls` in the loop's state and in the result is a record for the theorems, with no counterpart
in the source: each call of the four functions that check a transaction, with what it returned.

## Three kinds of failure

The function of the source can end in three ways that a theorem has to tell apart. It can panic, at
an index that is out of range or an `expect`; it can return a result whose flags say that the block
is no good; and it can return one that says it is good. A check that fails mostly does not end the
walk, since the measurement of a block that is refused should still be whole. So each piece here is
a function into `Option`, `none` for a panic, and what it returns has the flag.

The pieces are cut where the source has a comment and a blank line. Loops over the inputs are folds,
or recursions with a bound where the source takes several entries at a time. The maps of the source
are lists in which a lookup finds the first entry, or the last where the source collects into a map.
-/

namespace Hazync
namespace Guest

open ByteStrings
open Accumulator (Proof Stump normalize)

variable {H : Type}

/-- A call into the wrapper that checks a transaction or one of its inputs. -/
inductive Call
  | verifyInput (tx : Bytes) (ref : InputRef) (prevouts : Bytes) (flags : UInt32) (result : Int)
  | checkInputLocks (tx : Bytes) (ref : InputRef) (spendHeight spendMtp : UInt32) (result : Int)
  | checkTx (tx prevouts : Bytes) (result : Int)
  | isFinalTx (tx : Bytes) (height lockTime : UInt32) (result : Int)
  deriving DecidableEq

/-! ## The outputs the block creates -/

/-- What the two `gather` walks leave: the created leaves in canonical order, the position of
    the transaction each leaf is first created at, and the next position. -/
structure Gathered (H : Type) where
  outputLeaves : List H
  createdAt : List (H × UInt32)
  txPos : ℕ
  allOk : Bool

section Gather

variable (hs : Hashing H) (core : Core) (w : BlockWitness H) (mtp : UInt32)

/-- `gather`: a transaction's created leaves go to the end of the sink. `created_at.entry(l)`
    keeps the first position of a leaf, as a lookup in `createdAt` does. -/
def gather (raw : Bytes) (isCb : UInt32) (g : Gathered H) : Option (Gathered H × Bytes32) := do
  let (leaves, txid) ← txOutLeaves hs core raw w.height isCb mtp
  if g.outputLeaves.length + leaves.length ≤ vecCapacity32 then
    some ({ g with
      outputLeaves := g.outputLeaves ++ leaves
      createdAt := g.createdAt ++ leaves.map fun l => (l, UInt32.ofNat g.txPos) }, txid)
  else none

/-- The walk over the first inputs, which leaves at an index that is out of range. -/
def gatherInputs : List (BlockInput H) → Gathered H → Option (Gathered H)
  | [], g => some g
  | inp :: inputs, g =>
    if inp.txFirst = 1 then
      match w.txs[inp.txIdx.toNat]? with
      | none => some { g with allOk := false }
      | some raw => do
        let (g', txid) ← gather hs core w mtp raw.1 0 g
        gatherInputs inputs { g' with
          txPos := g.txPos + 1
          allOk := g.allOk && inp.txIdx.toNat = g.txPos - 1 && w.txids[g.txPos]? = some txid }
    else gatherInputs inputs g

/-- Both walks, the coinbase's txid, and how many spendable outputs it has. -/
def gatherOutputs : Option (Gathered H × Bytes32 × UInt32) := do
  let (g, cbTxid) ← gather hs core w mtp w.coinbaseTx 1
    { outputLeaves := [], createdAt := [], txPos := 0, allOk := true }
  let g' ← gatherInputs hs core w mtp w.inputs { g with
    txPos := 1
    allOk := w.txids[0]? = some cbTxid && w.txs.length + 1 = w.txids.length &&
      w.txPrevouts.length = w.txs.length }
  some ({ g' with allOk := g'.allOk && g'.txPos = w.txids.length }, cbTxid,
    UInt32.ofNat g.outputLeaves.length)

end Gather

/-! ## The grouping of the inputs -/

section Grouping

variable (core : Core) (w : BlockWitness H)

/-- The checks on the inputs of one transaction, whose first is `head`. -/
def groupOk (head : BlockInput H) (group : List (BlockInput H)) : Bool :=
  group.zipIdx.all fun (g, j) =>
    g.txIdx = head.txIdx ∧ g.inputIdx.toNat = j ∧ (g.txFirst = 1 ↔ j = 0)

/-- The `while` loop: each transaction has one entry for each of its inputs, in order. The first
    argument bounds the rounds, of which there are no more than inputs. -/
def vinGrouped : ℕ → List (BlockInput H) → Option Bool
  | _, [] => some true
  | 0, _ :: _ => some false
  | fuel + 1, head :: rest =>
    if head.txFirst ≠ 1 then some false
    else
      match w.txs[head.txIdx.toNat]? with
      | none => some false
      | some ht => do
        let n ← txVinCount core ht.1
        if n = 0 ∨ (head :: rest).length < n.toNat then some false
        else if groupOk head ((head :: rest).take n.toNat) then
          vinGrouped fuel ((head :: rest).drop n.toNat)
        else some false

end Grouping

/-! ## The aggregate's pre-pass -/

/-- `pre_leaves` and `pre_locks`. -/
structure PrePass (H : Type) where
  leaves : List H
  locks : List Int

section PrePass

variable (hs : Hashing H) (core : Core) (w : BlockWitness H) (mtp : UInt32)

/-- The lock arithmetic on what a chunk returned of an input: its sequence and its version. -/
def chunkLocks (inp : BlockInput H) (seq : UInt32) (ver : Int32) : Int :=
  if inp.coinIsCoinbase = 1 ∧ w.height < inp.coinHeight + 100 then -40
  else if CSV_HEIGHT ≤ w.height ∧ 2 ≤ ver ∧ seq &&& SEQUENCE_DISABLE = 0 then
    relativeLock seq inp.coinHeight inp.coinMtp w.height mtp
  else 1

/-- The walk over the runs of inputs that resolve to one transaction. -/
def prePassRuns : ℕ → List (BlockInput H) → Option (PrePass H)
  | _, [] => some ⟨[], []⟩
  | 0, _ :: _ => some ⟨[], []⟩
  | fuel + 1, inp :: inputs => do
    let run := (inp :: inputs).takeWhile fun i => w.clampIdx i = w.clampIdx inp
    let (_, raw, prevouts) ← w.resolve inp
    let leaves ← coinLeavesBatch hs core raw.1 prevouts.1 (run.map BlockInput.ref)
    let locks ← checkInputLocksBatch core raw.1 (run.map BlockInput.ref) w.height mtp
    let rest ← prePassRuns fuel ((inp :: inputs).drop run.length)
    some ⟨leaves ++ rest.leaves, locks ++ rest.locks⟩

/-- Whether the chunks gave a leaf, a sequence and a version for each input. -/
def haveChunkData (chunks : Chunks H) : Bool :=
  chunks.leaves.length = w.inputs.length ∧ chunks.seqs.length = w.inputs.length ∧
    chunks.vers.length = w.inputs.length

/-- The pre-pass: from the chunks where they bring all that it needs, else from the wrapper. -/
def prePass (chunks : Chunks H) : Option (PrePass H) :=
  if haveChunkData w chunks then
    some ⟨chunks.leaves, (w.inputs.zip (chunks.seqs.zip chunks.vers)).map
      fun (inp, seq, ver) => chunkLocks w mtp inp seq ver⟩
  else if chunks.binds.isSome then prePassRuns hs core w mtp w.inputs.length w.inputs
  else some ⟨[], []⟩

end PrePass

/-! ## The walk over the inputs -/

/-- The variables the walk changes. `spentInBlock` is a set. -/
structure LoopState (H : Type) where
  stump : Stump H
  scriptResults : List Int
  txChecks : List Int
  coinLeaves : List H
  totalFee : Int64
  allOk : Bool
  curTx : UInt32
  spentInBlock : List H
  bindCache : Option (ℕ × H)
  calls : List Call

namespace LoopState

/-- The variables before the walk. -/
def start (stump : Stump H) (allOk : Bool) : LoopState H where
  stump := stump
  scriptResults := []
  txChecks := []
  coinLeaves := []
  totalFee := 0
  allOk := allOk
  curTx := 0
  spentInBlock := []
  bindCache := none
  calls := []

/-- `if !ok { all_ok = false; }` -/
def require (s : LoopState H) (ok : Bool) : LoopState H := { s with allOk := s.allOk && ok }

/-- A first input begins a new transaction. -/
def enter (s : LoopState H) (inp : BlockInput H) : LoopState H :=
  { s with curTx := if inp.txFirst = 1 then s.curTx + 1 else s.curTx }

/-- The result of a script and the leaf of the coin are put down. -/
def record (s : LoopState H) (r : Int) (leaf : H) : LoopState H :=
  { s with scriptResults := s.scriptResults ++ [r], coinLeaves := s.coinLeaves ++ [leaf] }

/-- What the wrapper was called with, for the theorems. -/
def log (s : LoopState H) (calls : List Call) : LoopState H := { s with calls := s.calls ++ calls }

end LoopState

section Loop

variable [DecidableEq H] (hs : Hashing H) (core : Core) (w : BlockWitness H) (mtp : UInt32)

/-- The result of an input's script, and its leaf: from Core, or from the chunks once the
    digest of the block's own bytes is the one the chunk committed. -/
def checkScript (chunks : Chunks H) (pre : PrePass H) (s : LoopState H) (inp : BlockInput H)
    (idx ti : ℕ) (raw prevouts : Bytes) : Option (LoopState H × Int × H) :=
  match chunks.binds with
  | none => do
    let (r, leaf) ← verifyInput hs core raw inp.ref prevouts (w.flags hs)
    some (s.log [.verifyInput raw inp.ref prevouts (w.flags hs) r], r, leaf)
  | some (binds, allValid) => do
    let leaf ← pre.leaves[idx]?
    let txb := match s.bindCache with
      | some (ti', b) => if ti' = ti then b else txBind hs raw prevouts (w.flags hs)
      | none => txBind hs raw prevouts (w.flags hs)
    let d := inputBindFrom hs txb inp.ref
    some ({ s with bindCache := some (ti, txb) },
      if binds[idx]? = some d ∧ allValid then 1 else -1, leaf)

/-- The checks made once for each transaction, on its first input. -/
def checkFirst (s : LoopState H) (inp : BlockInput H) (raw prevouts : Bytes) :
    Option (LoopState H) :=
  if inp.txFirst = 1 then do
    let (c, fee) ← checkTx core raw prevouts
    let final ← isFinalTx core raw w.height (w.lockTime mtp)
    let calls := [.checkTx raw prevouts c, .isFinalTx raw w.height (w.lockTime mtp) final]
    some { (s.log calls).require (c = 1 && final = 1) with
      txChecks := s.txChecks ++ [c]
      totalFee := if c = 1 then s.totalFee + fee else s.totalFee }
  else some s

/-- Coinbase maturity and BIP68. -/
def checkLocks (chunks : Chunks H) (pre : PrePass H) (s : LoopState H) (inp : BlockInput H)
    (idx : ℕ) (raw : Bytes) : Option (LoopState H) :=
  match chunks.binds with
  | some _ => do
    let locks ← pre.locks[idx]?
    some (s.require (locks = 1))
  | none => do
    let locks ← checkInputLocks core raw inp.ref w.height mtp
    some ((s.log [.checkInputLocks raw inp.ref w.height mtp locks]).require (locks = 1))

/-- The coin goes: one the block created is marked as spent, any other is deleted. -/
def spendCoin (createdAt : List (H × UInt32)) (s : LoopState H) (inp : BlockInput H) (leaf : H) :
    Option (LoopState H) :=
  match createdAt.lookup leaf with
  | some creator =>
    some { s with
      allOk := s.allOk && creator < s.curTx && leaf ∉ s.spentInBlock
      spentInBlock := leaf :: s.spentInBlock }
  | none => do
    let (ok, stump) ← Stump.delete hs.parent s.stump inp.globalPos
      { inp.proofI with leaf := leaf } inp.proofLast
    some { s with stump := stump, allOk := s.allOk && inp.proofI.leaf = leaf && ok }

/-- One round of the walk. -/
def stepInput (chunks : Chunks H) (pre : PrePass H) (createdAt : List (H × UInt32))
    (s : LoopState H) (p : BlockInput H × ℕ) : Option (LoopState H) := do
  let (inp, idx) := p
  let (ti, raw, prevouts) ← w.resolve inp
  let s := (s.enter inp).require (ti = inp.txIdx.toNat)
  let (s, r, leaf) ← checkScript hs core w chunks pre s inp idx ti raw.1 prevouts.1
  let s ← checkFirst core w mtp (s.record r leaf) inp raw.1 prevouts.1
  let s ← checkLocks core w mtp chunks pre s inp idx raw.1
  spendCoin hs createdAt (s.require (r = 1)) inp leaf

/-- The walk, with the index of each entry. -/
def walkInputs (chunks : Chunks H) (pre : PrePass H) (createdAt : List (H × UInt32))
    (s : LoopState H) : Option (LoopState H) :=
  w.inputs.zipIdx.foldlM (stepInput hs core w mtp chunks pre createdAt) s

/-! ## After the walk -/

/-- The delete of one superseded leaf. -/
def deleteSuperseded (s : Stump H × Bool) (p : H × Bip30Del H) : Option (Stump H × Bool) := do
  let (ok, stump) ← Stump.delete hs.parent s.1 p.2.globalPos
    { p.2.proofI with leaf := p.1 } p.2.proofLast
  some (stump, s.2 && ok)

/-- The overwrite at the two grandfathered blocks: required there and refused elsewhere. The
    loop of the source stops at the shorter of the leaves and the deletes. -/
def bip30Overwrite (stump : Stump H) : Option (Stump H × Bool) :=
  match w.bip30, w.isBip30Block hs with
  | some ov, true => do
    let (leaves, _) ← txOutLeaves hs core w.coinbaseTx ov.oldHeight 1 ov.oldMtp
    (leaves.zip ov.dels).foldlM (deleteSuperseded hs)
      (stump, leaves.length = ov.dels.length)
  | none, true => some (stump, false)
  | some _, false => some (stump, false)
  | none, false => some (stump, true)

/-- The created outputs that the block did not spend, in canonical order. -/
def survivors (outputLeaves spentInBlock : List H) : List H :=
  outputLeaves.filter (· ∉ spentInBlock)

/-- The survivors go into the accumulator, in their order. -/
def addAll (stump : Stump H) (leaves : List H) : Stump H :=
  leaves.foldl (Stump.add hs.parent) stump

/-- The root is the header's, and the tree is not mutated. -/
def merkleOk : Bool :=
  let (mroot, mutated) := merkleRoot core w.txids
  mroot.toList = slice w.header 36 68 && !mutated

/-- One round of the wtxid walk. The chunks' list is collected into a map, where the last entry
    of a key stands. -/
def addWtxid (chunkWtxids : List (UInt32 × Bytes32 × UInt32)) (acc : List Bytes32 × Bool)
    (p : BlockInput H × ℕ) : Option (List Bytes32 × Bool) :=
  if p.1.txFirst = 1 then
    match chunkWtxids.reverse.lookup (UInt32.ofNat p.2) with
    | some (wt, hw) => some (acc.1 ++ [wt], acc.2 || hw = 1)
    | none => do
      let raw ← w.txs[w.clampIdx p.1]?
      let (wt, hw) ← txWtxidInfo core raw.1
      some (acc.1 ++ [wt], acc.2 || hw = 1)
  else some acc

/-- `rec_wtxids` and `has_witness`. The coinbase's wtxid counts as zeros, its witness does not. -/
def recWtxids (chunkWtxids : List (UInt32 × Bytes32 × UInt32)) :
    Option (List Bytes32 × Bool) := do
  let (_, cbHw) ← txWtxidInfo core w.coinbaseTx
  w.inputs.zipIdx.foldlM (addWtxid core w chunkWtxids)
    ([List.Vector.replicate 32 0], cbHw = 1)

/-- Before segwit no witness data is allowed; from it on the coinbase commits to it. -/
def witnessOk (wtxids : List Bytes32) (hasWitness : Bool) : Option Bool :=
  if SEGWIT_HEIGHT ≤ w.height then do
    let rc ← checkWitnessCommitment hs core w.coinbaseTx wtxids hasWitness
    some (rc = 1)
  else some !hasWitness

/-- The loop behind `cb_spends`; `some none` is `spends_ok = false; break`. -/
def cbSpends : List (BlockInput H) → Option (Option (List Bytes32))
  | [] => some (some [])
  | inp :: inputs =>
    if inp.coinIsCoinbase ≠ 1 then cbSpends inputs
    else
      match w.txs[inp.txIdx.toNat]? with
      | none => some none
      | some raw => do
        match ← txInputPrevoutTxid core raw.1 inp.inputIdx with
        | none => some none
        | some txid => do
          let rest ← cbSpends inputs
          some (rest.map (txid :: ·))

/-- The witness's copy of what the guest derives. -/
def smtWitnessOk (cbTxid : Bytes32) (cbOutputs : UInt32) (spends : List Bytes32) : Bool :=
  w.smt.coinbaseTxid = cbTxid ∧ w.smt.coinbaseOutputs = cbOutputs ∧
    w.smt.spends.length = spends.length ∧ w.smt.spends.map Smt.Spend.coinbaseTxid = spends

/-- `bip30::BlockUpdate` of the witness. -/
def blockUpdate (cbTxid : Bytes32) (cbOutputs : UInt32) : Smt.BlockUpdate H where
  coinbaseTxid := cbTxid
  coinbaseOutputs := cbOutputs
  absenceProof := w.smt.absenceProof
  overwrite := w.smt.smtOverwrite
  spends := w.smt.spends

/-- `bip30_ok` and `out_smt_root`. -/
def bip30Check (cbTxid : Bytes32) (cbOutputs : UInt32) : Option (Bool × H) := do
  let spends ← cbSpends core w w.inputs
  let idsDistinct : Bool := w.txids.Nodup
  let spendsOk := spends.elim false (smtWitnessOk w cbTxid cbOutputs)
  let overwriteOk := w.smt.smtOverwrite.isSome == w.isBip30Block hs
  if ¬ idsDistinct ∨ ¬ spendsOk ∨ ¬ overwriteOk then some (false, w.inSmtRoot)
  else
    match Smt.applyBlock hs w.inSmtRoot (blockUpdate w cbTxid cbOutputs) with
    | .ok r => some (true, r)
    | .error _ => some (false, w.inSmtRoot)

/-- `CompactSize` of a count. -/
def compactSize (n : ℕ) : Int64 :=
  if n < 0xfd then 1 else if n ≤ 0xffff then 3 else if n ≤ 0xffffffff then 5 else 9

/-- One round of the weight and sigop walk. -/
def addCost (acc : Int64 × Int64) (inp : BlockInput H) : Option (Int64 × Int64) :=
  if inp.txFirst ≠ 1 then some acc
  else do
    let (_, raw, prevouts) ← w.resolve inp
    let (weight, _) ← txWuSigops core raw.1
    let sigops ← txFullSigops core raw.1 prevouts.1 (w.flags hs)
    some (acc.1 + weight, acc.2 + sigops)

/-- `total_weight` and `total_sigops`. -/
def blockCosts : Option (Int64 × Int64) := do
  let (cbWeight, _) ← txWuSigops core w.coinbaseTx
  let cbSigops ← txFullSigops core w.coinbaseTx [] (w.flags hs)
  let (weight, sigops) ← w.inputs.foldlM (addCost hs core w) (cbWeight, cbSigops)
  some (weight + 4 * (80 + compactSize w.txids.length), sigops)

def MAX_BLOCK_WEIGHT : Int64 := 4000000
def MAX_BLOCK_SIGOPS_COST : Int64 := 80000

/-- `money_ok` and the coinbase bound. The sum of the first is in `i128`. -/
def subsidyOk (totalFee coinbaseVal subsidy : Int64) : Bool :=
  moneyRange totalFee ∧ moneyRange subsidy ∧ 0 ≤ coinbaseVal ∧
    subsidy.toInt + totalFee.toInt ≤ MAX_MONEY.toInt ∧ coinbaseVal ≤ subsidy + totalFee

/-! ## The result -/

/-- `BlockResult`. The fields after `rootNextLeaves` are locals of the function, kept for the
    theorems. -/
structure BlockResult (H : Type) where
  scriptResults : List Int
  txChecks : List Int
  coinLeaves : List H
  totalFee : Int64
  powOk : Bool
  merkleOk : Bool
  coinbaseVal : Int64
  subsidy : Int64
  subsidyOk : Bool
  allOk : Bool
  rootMatches : Bool
  weightOk : Bool
  sigopsOk : Bool
  witnessOk : Bool
  bip34Ok : Bool
  bip30Ok : Bool
  outSmtRoot : H
  tipHash : Bytes32
  nbits : UInt32
  blockTime : UInt32
  rootNextRoots : List (Option H)
  rootNextLeaves : UInt64
  totalWeight : Int64
  totalSigops : Int64
  wtxids : List Bytes32
  hasWitness : Bool
  calls : List Call

/-- The conjunction every mode asserts. -/
def BlockResult.blockValid (r : BlockResult H) : Bool :=
  r.allOk && r.rootMatches && r.powOk && r.merkleOk && r.subsidyOk && r.weightOk && r.sigopsOk &&
    r.witnessOk && r.bip34Ok && r.bip30Ok

/-- `validate_block`, and with chunks `validate_block_wtx`. -/
def validateBlock (chunks : Chunks H) : Option (BlockResult H) := do
  guard (w.header.length = 80)
  let (g, cbTxid, cbOutputs) ← gatherOutputs hs core w mtp
  let grouped ← vinGrouped core w w.inputs.length w.inputs
  let pre ← prePass hs core w mtp chunks
  let s ← walkInputs hs core w mtp chunks pre g.createdAt
    (.start w.rootPrev (w.versionOk && g.allOk && grouped))
  let (stump, overwriteOk) ← bip30Overwrite hs core w s.stump
  let stump := addAll hs stump (survivors g.outputLeaves s.spentInBlock)
  let (wtxids, hasWitness) ← recWtxids core w chunks.wtxids
  let witnessOk ← witnessOk hs core w wtxids hasWitness
  let bip34 ← checkBip34 core w.coinbaseTx w.height
  let (bip30Ok, outSmtRoot) ← bip30Check hs core w cbTxid cbOutputs
  let (cbCheck, _) ← checkTx core w.coinbaseTx [0]
  let cbIsCoinbase ← isCoinbaseTx core w.coinbaseTx
  let coinbaseVal ← coinbaseValue core w.coinbaseTx
  let subsidy := blockSubsidy core w.height
  let (totalWeight, totalSigops) ← blockCosts hs core w
  let cbFinal ← isFinalTx core w.coinbaseTx w.height (w.lockTime mtp)
  some
    { scriptResults := s.scriptResults
      txChecks := s.txChecks
      coinLeaves := s.coinLeaves
      totalFee := s.totalFee
      powOk := checkPow hs core w.header = 1
      merkleOk := merkleOk core w
      coinbaseVal := coinbaseVal
      subsidy := subsidy
      subsidyOk := subsidyOk s.totalFee coinbaseVal subsidy
      allOk := s.allOk && overwriteOk && cbCheck = 1 && cbIsCoinbase = 1 && cbFinal = 1
      rootMatches := stump.normalized = normalize w.rootNext.roots &&
        stump.numLeaves = w.rootNext.numLeaves
      weightOk := totalWeight ≤ MAX_BLOCK_WEIGHT
      sigopsOk := totalSigops ≤ MAX_BLOCK_SIGOPS_COST
      witnessOk := witnessOk
      bip34Ok := bip34 = 1
      bip30Ok := bip30Ok
      outSmtRoot := outSmtRoot
      tipHash := w.blockHash hs
      nbits := w.nbits
      blockTime := w.blockTime
      rootNextRoots := stump.normalized
      rootNextLeaves := stump.numLeaves
      totalWeight := totalWeight
      totalSigops := totalSigops
      wtxids := wtxids
      hasWitness := hasWitness
      calls := s.calls ++ [.checkTx w.coinbaseTx [0] cbCheck,
        .isFinalTx w.coinbaseTx w.height (w.lockTime mtp) cbFinal] }

end Loop
end Guest
end Hazync
