import Hazync.Bridge.SmtWitness
import Hazync.Guest.Genesis

/-!
# Blocks of payments to `OP_TRUE`

A small instance of what the results on the block check are about: `core` behaves as Core does on
transactions whose scripts are all `OP_TRUE`, and keeps the laws those results ask of Core
(`coinbaseShape`, `checksOutputs`, `mainnetHalving`). On it run a block that spends the coin of a
first coinbase and then its own output, and blocks with a coinbase alone. The hash is the ideal
one, under which every header hash is zero.

## Why an instance is needed

The results on blocks have hypotheses about Core and about the hash, and a hypothesis that nothing
satisfies makes any theorem true. So there is one place where all of them are satisfied at once, by
functions that can be computed: a Core that reads four transactions and runs no script but
`OP_TRUE`, and the ideal hash, which is one-to-one. The theorems are applied here to blocks that the
guest model accepts when it is run on them.

The spending block is the smallest that does everything: it spends a coin from before it, which is a
coinbase's and counts in the SMT; it spends a coin of its own; and it keeps an output. `Sampled` has
what its check computes, so that the computation is done once by the kernel and not in every theorem
about the block.
-/

namespace Hazync
namespace Guest

open ByteStrings
open Accumulator (Stump Proof normalize)

/-- An output as it is serialised. -/
def TxOut.serialize (o : TxOut) : Bytes :=
  le64 o.nValue.toUInt64 ++ UInt8.ofNat o.scriptPubKey.length :: o.scriptPubKey

/-- An input as it is serialised, its witness apart. -/
def TxIn.serialize (i : TxIn) : Bytes :=
  i.prevoutHash.toList ++ (le32 i.prevoutN ++
    (UInt8.ofNat i.scriptSig.length :: i.scriptSig ++ le32 i.nSequence))

/-- A transaction without witness data, its counts and lengths below 253. -/
def Transaction.serialize (tx : Transaction) : Bytes :=
  le32 tx.version ++ (UInt8.ofNat tx.vin.length :: tx.vin.flatMap TxIn.serialize ++
    (UInt8.ofNat tx.vout.length :: tx.vout.flatMap TxOut.serialize ++ le32 tx.nLockTime))

namespace OpTrue

/-- The hash of zeros. -/
def nullHash : Bytes32 := .replicate 32 0

/-- A transaction with one input and one output, to `OP_TRUE`. -/
def transaction (txin : TxIn) (value : Int64) : Transaction where
  version := 1
  vin := [txin]
  vout := [⟨value, [0x51]⟩]
  nLockTime := 0
  vin_lt := (by decide : 1 < 2 ^ 32)
  vout_lt := (by decide : 1 < 2 ^ 32)

/-- A coinbase with this script. -/
def coinbase (scriptSig : Bytes) (value : Int64) : Transaction :=
  transaction ⟨nullHash, 0xffffffff, scriptSig, 0xffffffff, []⟩ value

/-- A payment of the first output of `txid`. -/
def payment (txid : Bytes32) (value : Int64) : Transaction :=
  transaction ⟨txid, 0, [], 0xffffffff, []⟩ value

def firstTxid : Bytes32 :=
  bytes32OfNat 0xeed40da56b171b2fef0b6595ece9e1b2b87ec24e414be5f604b298679386250b
def laterTxid : Bytes32 :=
  bytes32OfNat 0xc58f5b74c2b418b52270073a46bd182199b0be77ad08643f2a3b485e319cf1c7
def spendTxid : Bytes32 :=
  bytes32OfNat 0xceab7f0b2de5e955c3d1eb8e4a4be219e1b96b3d7c1265a74f115b5893fff9fe
def chainedTxid : Bytes32 :=
  bytes32OfNat 0x358e03867807e1e502fb17135eced4d18e3c43f657696591ef66908566def44e
def spendMerkle : Bytes32 :=
  bytes32OfNat 0xfe2b4958d3b14d192e1841fb0e5020cdae6a35837d4970bbe48c4cdfe94f47ac

def firstCoinbase : Transaction := coinbase [0x04, 0xff, 0xff, 0x00, 0x1d, 0x01, 0x04] 5000000000
def laterCoinbase : Transaction := coinbase [0x02, 0xc8, 0x00] 5000000000
def spend : Transaction := payment firstTxid 4900000000
def chained : Transaction := payment spendTxid 4800000000

/-- The transactions there are, with their txids. -/
def txs : List (Transaction × Bytes32) :=
  [(firstCoinbase, firstTxid), (laterCoinbase, laterTxid), (spend, spendTxid),
    (chained, chainedTxid)]

/-- The txid of a transaction of the list. -/
def txid (tx : Transaction) : Bytes32 := (txs.lookup tx).getD nullHash

/-- `IsCoinBase` -/
def isCoinBase (tx : Transaction) : Bool :=
  match tx.vin with
  | [txin] => txin.prevoutHash = nullHash ∧ txin.prevoutN = 0xffffffff
  | _ => false

/-- The loop of `CheckTransaction` over the outputs. -/
def checkOutputs : Int64 → List TxOut → Bool
  | _, [] => true
  | sum, o :: os => decide (0 ≤ o.nValue ∧ o.nValue ≤ MAX_MONEY) && moneyRange (sum + o.nValue) &&
    checkOutputs (sum + o.nValue) os

/-- `CheckTransaction`, but for the limit on the size. -/
def checkTransaction (tx : Transaction) : Bool :=
  tx.vin ≠ [] && tx.vout ≠ [] && checkOutputs 0 tx.vout &&
    (tx.vin.map fun i => (i.prevoutHash, i.prevoutN)).Nodup &&
    if isCoinBase tx then tx.vin.all fun i => 2 ≤ i.scriptSig.length ∧ i.scriptSig.length ≤ 100
    else tx.vin.all fun i => ¬ (i.prevoutHash = nullHash ∧ i.prevoutN = 0xffffffff)

/-- `SetCompact`. -/
def setCompact (nCompact : UInt32) : ℕ × Bool × Bool :=
  let size := nCompact.toNat / 2 ^ 24
  let word := nCompact.toNat % 2 ^ 23
  ((if size ≤ 3 then word / 2 ^ (8 * (3 - size)) else word * 2 ^ (8 * (size - 3))) % 2 ^ 256,
    word ≠ 0 ∧ nCompact &&& 0x00800000 ≠ 0,
    word ≠ 0 ∧ (34 < size ∨ (0xff < word ∧ 33 < size) ∨ (0xffff < word ∧ 32 < size)))

/-- The Merkle root of one transaction is its txid, and that of the spending block's is known. -/
def computeMerkleRoot : List Bytes32 → Bytes32 × Bool
  | [id] => (id, false)
  | ids => (if ids = [laterTxid, spendTxid, chainedTxid] then spendMerkle else nullHash, false)

/-- Core on the transactions above. None of them carries a witness or counts a sigop, and no block
    below is at a retarget height. -/
def core : Core where
  unserializeTx raw := (txs.find? fun p => p.1.serialize = raw).map Prod.fst
  unserializeOuts b :=
    if b = [0] then some []
    else ((txs.flatMap fun p => p.1.vout).find? fun o => 1 :: o.serialize = b).map ([·])
  getHash := txid
  getWitnessHash := txid
  hasWitness _ := false
  isCoinBase := isCoinBase
  checkTransaction := checkTransaction
  isUnspendable s := s.head? = some 0x6a ∨ 10000 < s.length
  verifyScript _ i spent _ :=
    if (spent[i]?).map TxOut.scriptPubKey = some [0x51] then none else some 1
  computeMerkleRoot := computeMerkleRoot
  serializeSizeNoWitness tx := tx.serialize.length
  serializeSizeWithWitness tx := tx.serialize.length
  getSigOpCount _ := 0
  getP2SHSigOpCount _ _ := 0
  countWitnessSigOps _ _ _ _ := 0
  isPayToScriptHash s := s.length = 23 ∧ s.take 2 = [0xa9, 0x14] ∧ s.getLast? = some 0x87
  setCompact := setCompact
  pushHeight height := if height = 0 then [0] else [0x50 + UInt8.ofNat height.toNat]
  calculateNextWorkRequired nBits _ _ := nBits
  subsidyHalvingInterval := 210000

/-! ## The laws -/

/-- A coinbase has the one null input. -/
theorem coinbaseShape : core.CoinbaseShape := by
  intro tx htx
  change isCoinBase tx = true at htx
  rw [isCoinBase] at htx
  split at htx
  · rename_i txin hvin
    exact ⟨txin, hvin, (of_decide_eq_true htx).2⟩
  · cases htx

/-- The loop keeps every partial sum in range. -/
theorem checkOutputs_prefix {sum : Int64} {os : List TxOut} (hsum : moneyRange sum = true)
    (h : checkOutputs sum os = true) {vs : List Int64} (hvs : vs <+: os.map TxOut.nValue) :
    (∀ v ∈ vs, 0 ≤ v.toInt) ∧ sum.toInt + (vs.map Int64.toInt).sum ≤ MAX_MONEY.toInt := by
  induction os generalizing sum vs with
  | nil =>
    obtain rfl : vs = [] := List.prefix_nil.mp hvs
    refine ⟨fun v hv => absurd hv List.not_mem_nil, ?_⟩
    simpa using (moneyRange_iff.mp hsum).2
  | cons o os ih =>
    rw [checkOutputs, Bool.and_eq_true, Bool.and_eq_true] at h
    obtain ⟨⟨hval, hnext⟩, hrest⟩ := h
    have hval : moneyRange o.nValue = true := hval
    cases vs with
    | nil =>
      refine ⟨fun v hv => absurd hv List.not_mem_nil, ?_⟩
      simpa using (moneyRange_iff.mp hsum).2
    | cons v vs =>
      rw [List.map_cons] at hvs
      obtain ⟨rfl, hvs'⟩ := List.cons_prefix_cons.mp hvs
      obtain ⟨hnonneg, hle⟩ := ih hnext hrest hvs'
      rw [toInt_add_of_money hsum hval] at hle
      refine ⟨List.forall_mem_cons.mpr ⟨(moneyRange_iff.mp hval).1, hnonneg⟩, ?_⟩
      rw [List.map_cons, List.sum_cons, ← Int.add_assoc]
      exact hle

/-- Checked outputs are within the money there can be. -/
theorem checksOutputs : core.ChecksOutputs := by
  intro tx htx vs hvs
  change checkTransaction tx = true at htx
  simp only [checkTransaction, Bool.and_eq_true] at htx
  obtain ⟨⟨⟨-, houts⟩, -⟩, -⟩ := htx
  obtain ⟨hnonneg, hle⟩ := checkOutputs_prefix (by decide) houts hvs
  exact ⟨hnonneg, by simpa using hle⟩

theorem mainnetHalving : core.MainnetHalving := rfl

/-- No transaction has the Merkle root for its txid. -/
theorem txid_ne_spendMerkle (tx : Transaction) : txid tx ≠ spendMerkle := by
  have hall : ∀ p ∈ txs, p.2 ≠ spendMerkle := by decide +kernel
  rw [txid]
  cases hlookup : txs.lookup tx with
  | none => exact (by decide +kernel : nullHash ≠ spendMerkle)
  | some id =>
    obtain ⟨_, _, heq, -⟩ := List.lookup_eq_some_iff.mp hlookup
    exact hall (tx, id) (heq ▸ List.mem_append_right _ List.mem_cons_self)

/-- The Merkle root of the spending block is that of its transactions only. -/
theorem computeMerkleRoot_spend {ts : List Transaction}
    (h : (computeMerkleRoot (ts.map txid)).1 = spendMerkle) :
    ts.map txid = [laterTxid, spendTxid, chainedTxid] := by
  rw [computeMerkleRoot.eq_def] at h
  split at h
  · rename_i id hid
    obtain ⟨tx, -, rfl⟩ := List.mem_map.mp (hid ▸ List.mem_singleton_self id)
    exact absurd h (txid_ne_spendMerkle tx)
  · dsimp only at h
    split at h
    · assumption
    · exact absurd h (by decide +kernel)

/-! ## The blocks -/

/-- A header. -/
def header (prev root : Bytes32) (time : UInt32) : Bytes :=
  le32 1 ++ (prev.toList ++ (root.toList ++ (le32 time ++ (le32 0x1d00ffff ++ le32 0))))

/-- No SMT part: the bridge makes it. -/
def noSmt : SmtWitness Bytes := ⟨nullHash, 0, ⟨nullHash, []⟩, [], none⟩

/-- A proof that is not looked at. -/
def noProof : Proof Bytes := ⟨[], 0, []⟩

/-- The coin of a coinbase, mined at `height` after a median time past of `mtp`. -/
def coinbaseLeaf (id : Bytes32) (height mtp : UInt32) : Bytes :=
  Coin.leaf idealHashing ⟨id, 0, 5000000000, [0x51], height, true, mtp⟩

/-- A block with a coinbase alone. -/
def coinbaseBlock (cb : Transaction) (prev : Bytes32) (height time mtp : UInt32)
    (rootPrev : Stump Bytes) : BlockWitness Bytes where
  header := header prev (txid cb) time
  height := height
  coinbaseTx := cb.serialize
  txids := [txid cb]
  rootPrev := rootPrev
  txs := []
  txPrevouts := []
  inputs := []
  rootNext := rootPrev.add idealHashing.parent (coinbaseLeaf (txid cb) height mtp)
  bip30 := none
  inSmtRoot := []
  smt := noSmt
  inputs_lt := (by decide : 0 < 2 ^ 32)

/-- The time of block 0. -/
def genesisTime : UInt32 := 1231006505
/-- The median time past of the spending block. -/
def spendMtp : UInt32 := 1231469665

/-- The leaf of the first coinbase's coin. -/
def firstLeaf : Bytes := coinbaseLeaf firstTxid 1 genesisTime
/-- The leaf of the output that the block keeps. -/
def chainedLeaf (height : UInt32) : Bytes :=
  Coin.leaf idealHashing ⟨chainedTxid, 0, 4800000000, [0x51], height, false, spendMtp⟩
def laterLeaf (height : UInt32) : Bytes :=
  Coin.leaf idealHashing ⟨laterTxid, 0, 5000000000, [0x51], height, true, spendMtp⟩

/-- The accumulator of the first coinbase's coin. -/
def spendRootPrev : Stump Bytes := Stump.empty.add idealHashing.parent firstLeaf

def spendRaw : Blob := ⟨spend.serialize, by decide +kernel⟩
def chainedRaw : Blob := ⟨chained.serialize, by decide +kernel⟩
def spendPrevouts : Blob := ⟨1 :: TxOut.serialize ⟨5000000000, [0x51]⟩, by decide +kernel⟩
def chainedPrevouts : Blob := ⟨1 :: TxOut.serialize ⟨4900000000, [0x51]⟩, by decide +kernel⟩

theorem two_inputs : 2 < 2 ^ 32 := by decide

/-- The block at `height` that spends the coin of the first coinbase, and its own output. `cb` is
    what the witness gives as that coin's coinbase flag. -/
def spendBlock (height cb : UInt32) : BlockWitness Bytes where
  header := header nullHash spendMerkle 1231470173
  height := height
  coinbaseTx := laterCoinbase.serialize
  txids := [laterTxid, spendTxid, chainedTxid]
  rootPrev := spendRootPrev
  txs := [spendRaw, chainedRaw]
  txPrevouts := [spendPrevouts, chainedPrevouts]
  inputs := [⟨0, 0, 0, 1, cb, genesisTime, 1, ⟨firstLeaf, 0, []⟩, ⟨firstLeaf, 0, []⟩⟩,
    ⟨1, 0, 0, height, 0, spendMtp, 1, noProof, noProof⟩]
  rootNext := (Stump.empty.add idealHashing.parent (laterLeaf height)).add idealHashing.parent
    (chainedLeaf height)
  bip30 := none
  inSmtRoot := []
  smt := noSmt
  inputs_lt := two_inputs

/-- The state before it. -/
def spendBefore : Boundary Bytes where
  tipHash := nullHash
  roots := spendRootPrev.roots
  leaves := 1
  nbits := 0x1d00ffff
  time := spendMtp
  epochStart := genesisTime
  recent := [spendMtp]

/-- Every flag but the BIP30 check's. -/
def Passes {H : Type} (r : BlockResult H) : Bool :=
  r.allOk && r.rootMatches && r.powOk && r.merkleOk && r.subsidyOk && r.weightOk && r.sigopsOk &&
    r.witnessOk && r.bip34Ok

/-- What the check computes of a sample block: every flag but the BIP30 check's holds, the
    coinbase has one spendable output, and the coins of the coinbases `spends` are spent. -/
structure Sampled (hs : Hashing Bytes) (core : Core) (w : BlockWitness Bytes) (mtp : UInt32)
    (chunks : Chunks Bytes) (coinbase : Bytes32) (spends : List Bytes32) : Prop where
  passes : (validateBlock hs core w mtp chunks).any Passes = true
  /-- The coinbase has this txid, and one output that goes into the accumulator. -/
  gather : (gatherOutputs hs core w mtp).map Prod.snd = some (coinbase, 1)
  /-- These coinbases lose a coin, and the tree counts it. -/
  cbSpends : Guest.cbSpends core w w.inputs = some (some spends)
  distinct : w.txids.Nodup
  /-- The block is none of the two that overwrite. -/
  isBip30Block : w.isBip30Block hs = false

/-- A block that passes otherwise passes with the SMT part the bridge makes for it. -/
theorem Sampled.advance {hs : Hashing Bytes} {core : Core} {w : BlockWitness Bytes} {mtp : UInt32}
    {chunks : Chunks Bytes} {smt : Smt Bytes} {coinbase : Bytes32} {spends : List Bytes32}
    (h : Sampled hs core w mtp chunks coinbase spends)
    (hcached : smt.Cached hs) (habsent : smt.get coinbase = none)
    (hspendable : Bridge.Spendable (Function.update smt.get coinbase (Smt.stored 1)) spends) :
    ∃ wit r, validateBlock hs core (w.withSmt smt.root wit) mtp chunks = some r ∧
      r.blockValid = true ∧
      r.outSmtRoot = Smt.mapRoot hs (smt.get.transition coinbase 1 spends) ∧
      r.tipHash = w.blockHash hs ∧ r.nbits = w.nbits ∧ r.blockTime = w.blockTime := by
  obtain ⟨r, hr, hflags⟩ := (Option.any_eq_true _ _).mp h.passes
  obtain ⟨⟨g, cb, out⟩, hg, hsnd⟩ := Option.map_eq_some_iff.mp h.gather
  cases hsnd
  obtain ⟨wit, prior, smt', hadvance⟩ : ∃ wit prior smt',
      Bridge.smtAdvance hs smt coinbase 1 spends false = some (wit, prior, smt') :=
    Bridge.smtAdvance_complete hcached (fun _ => habsent) nofun hspendable
  obtain ⟨-, -, -, -, -, hcached', hget, -⟩ := Bridge.smtAdvance_ok hcached (fun _ => habsent) hadvance
  rw [← h.isBip30Block] at hadvance
  have haccept := Bridge.validateBlock_advance hr hg hcached h.distinct h.cbSpends
    (fun _ => habsent) hadvance
  obtain ⟨run, rfl⟩ := validateBlock_eq_some.mp hr
  refine ⟨wit, _, haccept, ?_, hget ▸ hcached'.root, rfl, rfl, rfl⟩
  rw [BlockResult.blockValid]
  exact Bool.and_eq_true_iff.mpr ⟨hflags, rfl⟩

/-- The tree before the block: the first coinbase has one output left. -/
def spendSmt (hs : Hashing Bytes) : Smt Bytes := Smt.fromEntries hs [(firstTxid, 1)]

variable {hs : Hashing Bytes}

/-- The tree is one that the bridge may keep. -/
theorem cached_spendSmt : (spendSmt hs).Cached hs := Smt.cached_fromEntries _

theorem get_spendSmt : (spendSmt hs).get = Function.update (fun _ => none) firstTxid (some 1) := by
  rw [spendSmt, Smt.fromEntries, List.foldl_cons, List.foldl_nil, Smt.cached_new.get_insert]
  rfl

theorem spendSmt_laterTxid : (spendSmt hs).get laterTxid = none := by
  rw [get_spendSmt, Function.update_of_ne (by decide +kernel)]

theorem spendable_firstTxid :
    Bridge.Spendable (Function.update (spendSmt hs).get laterTxid (Smt.stored 1)) [firstTxid] := by
  refine ⟨⟨1, ?_⟩, trivial⟩
  rw [Function.update_of_ne (by decide +kernel), get_spendSmt, Function.update_self]

/-- With the coin's true flag the block is accepted, by itself or on chunks that pass. -/
theorem spendBlock_accepted {chunks : Chunks Bytes}
    (h : Sampled idealHashing core (spendBlock 200 1) spendMtp chunks laterTxid [firstTxid]) :
    ∃ wit r, validateBlock idealHashing core ((spendBlock 200 1).withSmt (spendSmt idealHashing).root wit)
      spendMtp chunks = some r ∧ r.blockValid = true ∧ r.tipHash = nullHash ∧
        r.nbits = 0x1d00ffff ∧ r.blockTime = 1231470173 := by
  obtain ⟨wit, r, hr, hvalid, -, htip, hnbits, htime⟩ :=
    h.advance cached_spendSmt spendSmt_laterTxid spendable_firstTxid
  exact ⟨wit, r, hr, hvalid, htip, hnbits.trans rfl, htime.trans rfl⟩

theorem spendBlock_extends {cb : UInt32} {root : Bytes} {wit : SmtWitness Bytes}
    {r : BlockResult Bytes} (hvalid : r.blockValid = true) (hnbits : r.nbits = 0x1d00ffff)
    (htime : r.blockTime = 1231470173) :
    Extends core spendBefore 200 ((spendBlock 200 cb).withSmt root wit) r where
  valid := hvalid
  prevhash := (rfl : slice (spendBlock 200 1).header 4 36 = nullHash.toList)
  roots := rfl
  leaves := rfl
  nbits := hnbits.trans rfl
  time := htime.symm ▸ (by decide : spendMtp < 1231470173)

theorem proveRange_spendBlock {cb : UInt32} {root : Bytes} {wit : SmtWitness Bytes}
    {r : BlockResult Bytes}
    (hr : validateBlock idealHashing core ((spendBlock 200 cb).withSmt root wit) spendMtp
      Chunks.none = some r)
    (hextends : Extends core spendBefore 200 ((spendBlock 200 cb).withSmt root wit) r) :
    ∃ st, proveRange idealHashing core spendBefore ((spendBlock 200 cb).withSmt root wit)
      (.replicate 8 0) = some st ∧ st.inSmtRoot = root ∧ st.outSmtRoot = r.outSmtRoot :=
  ⟨_, proveRange_eq_some.mpr ⟨r, hr, hextends, rfl⟩, rfl, rfl⟩

theorem spendBlock_sampled :
    Sampled idealHashing core (spendBlock 200 1) spendMtp Chunks.none laterTxid [firstTxid] := by
  constructor <;> decide +kernel

/-! ## The first two blocks -/

/-- The first block after block 0. -/
def block1 : BlockWitness Bytes :=
  coinbaseBlock firstCoinbase GENESIS_HASH 1 spendMtp genesisTime Stump.empty

/-- The second. -/
def block2 : BlockWitness Bytes :=
  coinbaseBlock laterCoinbase nullHash 2 1231469744 spendMtp spendRootPrev

/-- The state between them. -/
def afterBlock1 : Boundary Bytes where
  tipHash := nullHash
  roots := spendRootPrev.roots
  leaves := 1
  nbits := GENESIS_BITS
  time := spendMtp
  epochStart := genesisTime
  recent := [genesisTime, spendMtp]

theorem block1_sampled :
    Sampled idealHashing core block1 genesisTime Chunks.none firstTxid [] := by
  constructor <;> decide +kernel

theorem block2_sampled :
    Sampled idealHashing core block2 spendMtp Chunks.none laterTxid [] := by
  constructor <;> decide +kernel

/-- The state after a block that passes. -/
def stateOver (before : Boundary Bytes) (w : BlockWitness Bytes) : Boundary Bytes where
  tipHash := w.blockHash idealHashing
  roots := normalize w.rootNext.roots
  leaves := w.rootNext.numLeaves
  nbits := w.nbits
  time := w.blockTime
  epochStart := if w.height % RETARGET_INTERVAL = 0 then w.blockTime else before.epochStart
  recent := pushTime before.recent w.blockTime

/-- A block that is accepted on the state it extends is proved as a range. -/
theorem proveRange_accepted (before : Boundary Bytes) {w : BlockWitness Bytes} {r : BlockResult Bytes}
    (hr : validateBlock idealHashing core w (medianTimePast before.recent) Chunks.none = some r)
    (hvalid : r.blockValid = true) (hprevhash : slice w.header 4 36 = before.tipHash.toList)
    (hroots : normalize w.rootPrev.roots = normalize before.roots)
    (hleaves : w.rootPrev.numLeaves = before.leaves)
    (hnbits : w.nbits = expectedNbits core before w.height)
    (htime : medianTimePast before.recent < w.blockTime) :
    ∃ st, proveRange idealHashing core before w (.replicate 8 0) = some st ∧
      st.lo = w.height ∧ st.hi = w.height ∧ st.before = before ∧ st.inSmtRoot = w.inSmtRoot ∧
      st.outSmtRoot = r.outSmtRoot ∧ st.after = stateOver before w := by
  obtain ⟨-, htip, hnb, htm⟩ := validateBlock_header hr
  obtain ⟨hrn, hln⟩ := validateBlock_rootNext hr (blockValid_iff.mp hvalid).1.2.1
  refine ⟨_, proveRange_eq_some.mpr ⟨r, hr, ⟨hvalid, hprevhash, hroots, hleaves, hnb.trans hnbits,
    htm.symm ▸ htime⟩, rfl⟩, rfl, rfl, rfl, rfl, rfl, ?_⟩
  rw [Boundary.next, htip, hnb, htm, hrn, hln]
  rfl

/-- The first block is proved as a range on the state after block 0. -/
theorem proveRange_block1 : ∃ wit st,
    proveRange idealHashing core genesisTip (block1.withSmt (Smt.emptyRoot idealHashing) wit)
      (.replicate 8 0) = some st ∧ st.lo = 1 ∧ st.hi = 1 ∧ st.before = genesisTip ∧
      st.inSmtRoot = Smt.emptyRoot idealHashing ∧ st.outSmtRoot = (spendSmt idealHashing).root ∧
      st.after = afterBlock1 := by
  obtain ⟨wit, r, hr, hvalid, hout, -⟩ := block1_sampled.advance Smt.cached_new rfl trivial
  obtain ⟨st, hst, hlo, hhi, hbefore, hin, hsmt, hafter⟩ :=
    proveRange_accepted genesisTip hr hvalid rfl rfl rfl rfl
      (by decide : genesisTime < block1.blockTime)
  have hroot : Smt.mapRoot idealHashing
      ((Smt.new idealHashing).get.transition firstTxid 1 []) = (spendSmt idealHashing).root := by
    rw [cached_spendSmt.root, get_spendSmt]
    rfl
  exact ⟨wit, st, hst, hlo, hhi, hbefore, hin, hsmt.trans (hout.trans hroot), hafter.trans rfl⟩

/-- And the second on the state after it. -/
theorem proveRange_block2 : ∃ wit st,
    proveRange idealHashing core afterBlock1 (block2.withSmt (spendSmt idealHashing).root wit)
      (.replicate 8 0) = some st ∧ st.lo = 2 ∧ st.hi = 2 ∧ st.before = afterBlock1 ∧
      st.inSmtRoot = (spendSmt idealHashing).root ∧ st.after = stateOver afterBlock1 block2 := by
  obtain ⟨wit, r, hr, hvalid, -⟩ :=
    block2_sampled.advance cached_spendSmt spendSmt_laterTxid trivial
  obtain ⟨st, hst, hlo, hhi, hbefore, hin, -, hafter⟩ :=
    proveRange_accepted afterBlock1 hr hvalid rfl rfl rfl rfl
      (by decide : spendMtp < block2.blockTime)
  exact ⟨wit, st, hst, hlo, hhi, hbefore, hin, hafter.trans rfl⟩

end OpTrue
end Guest
end Hazync
