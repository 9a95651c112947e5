import Hazync.Hashing
import Hazync.Guest.Core

/-!
# The wrapper around Core (`prover/methods/guest/verify_input.cpp`)

One definition for each `extern "C"` function the block check calls. All of them deserialise the
bytes they are given first, and `none` is a deserialiser that traps, which ends the guest. An
output buffer is a result; where a function may return without writing one, the result says what
the caller's buffer then holds.

## The border to Core

On one side of the wrapper are Rust slices and words, on the other Core's classes. What crosses it
is always the same: bytes go in and are deserialised, a code comes out, and a buffer may have been
written. So each function here has the shape of the C++ one: deserialise, or end the guest; look at
the sizes; ask Core; give the code that stands for the answer. The codes are the source's, since the
guest's Rust compares with 1 and the logs show the others.

Two of the functions add up money. `check_tx` asks after each step whether the sum is in range, and
`coinbase_value` saturates; in neither does a sum run over unseen.

The coin is the one thing that several of the functions share. What is in its leaf is in
`Coin.preimage`, once, and the three places that write it out are compared with it in
`LeafPreimages`.
-/

namespace Hazync
namespace Guest

open ByteStrings

/-- What an accumulator leaf commits to. -/
structure Coin where
  txid : Bytes32
  vout : UInt32
  value : Int64
  scriptPubKey : Bytes
  height : UInt32
  isCoinbase : Bool
  mtp : UInt32
  deriving DecidableEq

/-- `txid || vout || value || len || scriptPubKey || height || is_coinbase || mtp`. -/
def Coin.preimage (c : Coin) : Bytes :=
  c.txid.toList ++ (le32 c.vout ++ (le64 c.value.toUInt64 ++
    (le32 (UInt32.ofNat c.scriptPubKey.length) ++ (c.scriptPubKey ++
      (le32 c.height ++ ((if c.isCoinbase then 1 else 0) :: le32 c.mtp))))))

section Hash

variable {H : Type} (hs : Hashing H) (core : Core)

/-- The leaf of a coin. -/
def Coin.leaf (c : Coin) : H := hs.sha256 (TAG_LEAF :: c.preimage)

/-- One input as a caller names it, with what it says of the coin. -/
structure InputRef where
  inputIdx : UInt32
  coinHeight : UInt32
  coinIsCoinbase : UInt32
  coinMtp : UInt32
  deriving DecidableEq

/-- The coin behind an input: the outpoint and the output are from the bytes, the rest is said. -/
def InputRef.coin (ref : InputRef) (op : TxIn) (coin : TxOut) : Coin where
  txid := op.prevoutHash
  vout := op.prevoutN
  value := coin.nValue
  scriptPubKey := coin.scriptPubKey
  height := ref.coinHeight
  isCoinbase := ref.coinIsCoinbase ≠ 0
  mtp := ref.coinMtp

/-- `coin_leaf`: `none` is its `false`, an input the witness cannot address. -/
def coinLeaf (tx : Transaction) (spent : List TxOut) (ref : InputRef) : Option H := do
  let coin ← spent[ref.inputIdx.toNat]?
  let op ← tx.vin[ref.inputIdx.toNat]?
  some ((ref.coin op coin).leaf hs)

/-- `VerifyScript` on input `i`, as the wrapper returns it. -/
def scriptResult (tx : Transaction) (i : ℕ) (spent : List TxOut) (flags : UInt32) : Int :=
  match core.verifyScript tx i spent flags with
  | none => 1
  | some err => -(err : Int) - 1

/-- `verify_input`: the result, and `out_leaf`, which starts as zeros. -/
def verifyInput (txBytes : Bytes) (ref : InputRef) (prevouts : Bytes) (flags : UInt32) :
    Option (Int × H) := do
  let tx ← core.unserializeTx txBytes
  let spent ← core.unserializeOuts prevouts
  if spent.length ≤ ref.inputIdx.toNat ∨ spent.length ≠ tx.vin.length then some (-60, hs.zero)
  else
    some (scriptResult core tx ref.inputIdx.toNat spent flags,
      (coinLeaf hs tx spent ref).getD hs.zero)

/-- `verify_inputs_batch`: the structural result, then what stands in `out_results` and
    `out_leaves` for each input. -/
def verifyInputsBatch (txBytes prevouts : Bytes) (flags : UInt32) (refs : List InputRef) :
    Option (Int × List (Int × H)) := do
  let tx ← core.unserializeTx txBytes
  let spent ← core.unserializeOuts prevouts
  if spent.length ≠ tx.vin.length then some (-60, refs.map fun _ => (0, hs.zero))
  else
    some (1, refs.map fun ref =>
      if spent.length ≤ ref.inputIdx.toNat then (-60, hs.zero)
      else
        (scriptResult core tx ref.inputIdx.toNat spent flags,
          (coinLeaf hs tx spent ref).getD hs.zero))

/-- `coin_leaves_batch`: zeros for an input it cannot address. -/
def coinLeavesBatch (txBytes prevouts : Bytes) (refs : List InputRef) : Option (List H) := do
  let tx ← core.unserializeTx txBytes
  let spent ← core.unserializeOuts prevouts
  if spent.length ≠ tx.vin.length then some (refs.map fun _ => hs.zero)
  else
    some (refs.map fun ref =>
      if spent.length ≤ ref.inputIdx.toNat then hs.zero
      else (coinLeaf hs tx spent ref).getD hs.zero)

/-- The coins a transaction creates, its unspendable outputs left out. -/
def createdCoins (tx : Transaction) (height isCoinbase mtp : UInt32) : List Coin :=
  tx.vout.zipIdx.filterMap fun (o, v) =>
    if core.isUnspendable o.scriptPubKey then none
    else some
      { txid := core.getHash tx, vout := UInt32.ofNat v, value := o.nValue,
        scriptPubKey := o.scriptPubKey, height := height, isCoinbase := isCoinbase ≠ 0,
        mtp := mtp }

/-- `tx_out_leaves`: the leaves of the created coins, and the txid. -/
def txOutLeaves (txBytes : Bytes) (height isCoinbase mtp : UInt32) :
    Option (List H × Bytes32) := do
  let tx ← core.unserializeTx txBytes
  some ((createdCoins core tx height isCoinbase mtp).map (Coin.leaf hs), core.getHash tx)

end Hash

section Checks

variable (core : Core)

/-- `tx_wtxid_info`: the wtxid, and 1 when the transaction carries witness data. -/
def txWtxidInfo (txBytes : Bytes) : Option (Bytes32 × UInt32) := do
  let tx ← core.unserializeTx txBytes
  some (core.getWitnessHash tx, if core.hasWitness tx then 1 else 0)

/-- `is_final_tx`; both bounds come from a `u32`. -/
def isFinalTx (txBytes : Bytes) (height blockTime : UInt32) : Option Int := do
  let tx ← core.unserializeTx txBytes
  if tx.nLockTime = 0 then some 1
  else
    let threshold := if tx.nLockTime < 500000000 then height else blockTime
    if tx.nLockTime < threshold then some 1
    else some (if ∀ txin ∈ tx.vin, txin.nSequence = 0xffffffff then 1 else 0)

/-- The bit of `nSequence` that turns BIP68 off. -/
def SEQUENCE_DISABLE : UInt32 := (1 : UInt32) <<< 31
/-- The bit that says that the lock is by time. -/
def SEQUENCE_TYPE : UInt32 := (1 : UInt32) <<< 22
def SEQUENCE_MASK : UInt32 := 0x0000ffff
def SEQUENCE_GRANULARITY : UInt64 := 9

/-- From this height relative locktimes are enforced. -/
def CSV_HEIGHT : UInt32 := 419328

/-- The relative locktime of one input: 1, or -41 by height, or -42 by time. -/
def relativeLock (seq coinHeight coinMtp spendHeight spendMtp : UInt32) : Int :=
  if seq &&& SEQUENCE_TYPE ≠ 0 then
    let required := coinMtp.toUInt64 + ((seq &&& SEQUENCE_MASK).toUInt64 <<< SEQUENCE_GRANULARITY)
    if spendMtp.toUInt64 < required then -42 else 1
  else
    let required := coinHeight + (seq &&& SEQUENCE_MASK)
    if spendHeight < required then -41 else 1

/-- What `check_input_locks` decides once the transaction is decoded. -/
def inputLocks (tx : Transaction) (ref : InputRef) (spendHeight spendMtp : UInt32) : Int :=
  match tx.vin[ref.inputIdx.toNat]? with
  | none => -43
  | some txin =>
    if ref.coinIsCoinbase ≠ 0 ∧ spendHeight < ref.coinHeight + 100 then -40
    else if CSV_HEIGHT ≤ spendHeight ∧ 2 ≤ tx.version ∧
        txin.nSequence &&& SEQUENCE_DISABLE = 0 then
      relativeLock txin.nSequence ref.coinHeight ref.coinMtp spendHeight spendMtp
    else 1

/-- `check_input_locks`: coinbase maturity and BIP68. -/
def checkInputLocks (txBytes : Bytes) (ref : InputRef) (spendHeight spendMtp : UInt32) :
    Option Int := do
  let tx ← core.unserializeTx txBytes
  some (inputLocks tx ref spendHeight spendMtp)

/-- `check_input_locks_batch`. -/
def checkInputLocksBatch (txBytes : Bytes) (refs : List InputRef)
    (spendHeight spendMtp : UInt32) : Option (List Int) := do
  let tx ← core.unserializeTx txBytes
  some (refs.map fun ref => inputLocks tx ref spendHeight spendMtp)

/-- `tx_seqs_batch`: the version, and the sequence of each input it can address. -/
def txSeqsBatch (txBytes : Bytes) (refs : List InputRef) : Option (Int32 × List UInt32) := do
  let tx ← core.unserializeTx txBytes
  some (tx.version.toInt32,
    refs.map fun ref => (tx.vin[ref.inputIdx.toNat]?).elim 0xFFFFFFFF TxIn.nSequence)

/-- One round of the `sum_in` loop of `check_tx`. -/
def addInput (sumIn : Int64) (c : TxOut) : Except Int Int64 :=
  if c.nValue < 0 ∨ MAX_MONEY < c.nValue then .error (-21)
  else if ¬ moneyRange (sumIn + c.nValue) then .error (-22)
  else .ok (sumIn + c.nValue)

/-- `check_tx`: the result, and `out_fee`, which starts as zero. -/
def checkTx (txBytes prevouts : Bytes) : Option (Int × Int64) := do
  let tx ← core.unserializeTx txBytes
  let spent ← core.unserializeOuts prevouts
  if ¬ core.isCoinBase tx ∧ spent.length ≠ tx.vin.length then some (-24, 0)
  else if ¬ core.checkTransaction tx then some (-20, 0)
  else
    let sumOut := tx.vout.foldl (fun s o => s + o.nValue) (0 : Int64)
    match spent.foldlM addInput (0 : Int64) with
    | .error code => some (code, 0)
    | .ok sumIn =>
      if ¬ core.isCoinBase tx then
        if sumIn < sumOut then some (-23, 0) else some (1, sumIn - sumOut)
      else some (1, 0)

/-- `merkle_root`: the root and whether the tree is mutated. -/
def merkleRoot (txids : List Bytes32) : Bytes32 × Bool := core.computeMerkleRoot txids

/-- `is_coinbase_tx`. -/
def isCoinbaseTx (txBytes : Bytes) : Option Int := do
  let tx ← core.unserializeTx txBytes
  some (if core.isCoinBase tx then 1 else 0)

/-- `tx_vin_count`. -/
def txVinCount (txBytes : Bytes) : Option UInt32 := do
  let tx ← core.unserializeTx txBytes
  some (UInt32.ofNat tx.vin.length)

/-- `tx_input_prevout_txid`: 0 and an unwritten buffer when the index is out of range. -/
def txInputPrevoutTxid (txBytes : Bytes) (inputIdx : UInt32) : Option (Option Bytes32) := do
  let tx ← core.unserializeTx txBytes
  some ((tx.vin[inputIdx.toNat]?).map TxIn.prevoutHash)

/-- `__builtin_add_overflow`. -/
def addOverflows (a b : Int64) : Bool :=
  a.toInt + b.toInt < -(2 ^ 63) ∨ 2 ^ 63 ≤ a.toInt + b.toInt

/-- The loop of `coinbase_value`, saturating in the direction of the overflow. -/
def coinbaseValueLoop : Int64 → List TxOut → Int64
  | s, [] => s
  | s, o :: os =>
    if addOverflows s o.nValue then (if o.nValue < 0 then Int64.minValue else Int64.maxValue)
    else coinbaseValueLoop (s + o.nValue) os

/-- `coinbase_value`. -/
def coinbaseValue (txBytes : Bytes) : Option Int64 := do
  let tx ← core.unserializeTx txBytes
  some (coinbaseValueLoop 0 tx.vout)

/-- `block_subsidy`. -/
def blockSubsidy (height : UInt32) : Int64 :=
  let halvings := height / core.subsidyHalvingInterval
  if 64 ≤ halvings then 0
  else (50 * 100000000 : Int64) >>> Int64.ofNat halvings.toNat

/-- `tx_wu_sigops`: the weight and the legacy sigop cost. -/
def txWuSigops (txBytes : Bytes) : Option (Int64 × Int64) := do
  let tx ← core.unserializeTx txBytes
  let base := Int64.ofNat (core.serializeSizeNoWitness tx)
  let total := Int64.ofNat (core.serializeSizeWithWitness tx)
  let sigops := tx.vin.foldl (fun s txin => s + Int64.ofNat (core.getSigOpCount txin.scriptSig)) 0
  let sigops :=
    tx.vout.foldl (fun s o => s + Int64.ofNat (core.getSigOpCount o.scriptPubKey)) sigops
  some (base * 3 + total, sigops * 4)

/-- `SCRIPT_VERIFY_P2SH`. -/
def FLAG_P2SH : UInt32 := (1 : UInt32) <<< 0

/-- `tx_full_sigops`: the legacy cost, and for each spent coin the P2SH and witness cost. -/
def txFullSigops (txBytes prevouts : Bytes) (flags : UInt32) : Option Int64 := do
  let tx ← core.unserializeTx txBytes
  let legacy := tx.vin.foldl (fun s txin => s + Int64.ofNat (core.getSigOpCount txin.scriptSig)) 0
  let legacy :=
    tx.vout.foldl (fun s o => s + Int64.ofNat (core.getSigOpCount o.scriptPubKey)) legacy
  let cost := legacy * 4
  if core.isCoinBase tx ∨ prevouts.length = 0 then some cost
  else do
    let spent ← core.unserializeOuts prevouts
    if spent.length < tx.vin.length then some ((1 : Int64) <<< 40)
    else
      some ((tx.vin.zip spent).foldl (fun cost (txin, coin) =>
        let cost :=
          if flags &&& FLAG_P2SH ≠ 0 ∧ core.isPayToScriptHash coin.scriptPubKey then
            cost + Int64.ofNat (core.getP2SHSigOpCount coin.scriptPubKey txin.scriptSig) * 4
          else cost
        cost + Int64.ofNat
          (core.countWitnessSigOps txin.scriptSig coin.scriptPubKey txin.witness flags)) cost)

/-- `core_bip34_height`. -/
def BIP34_HEIGHT : UInt32 := 227931

/-- `check_bip34`: from the buried height the coinbase script starts with a push of it. -/
def checkBip34 (cb : Bytes) (height : UInt32) : Option Int :=
  if height < BIP34_HEIGHT then some 1
  else do
    let tx ← core.unserializeTx cb
    let expect := core.pushHeight height
    match tx.vin with
    | [] => some (-50)
    | txin :: _ =>
      if txin.scriptSig.length < expect.length then some (-50)
      else if txin.scriptSig.take expect.length ≠ expect then some (-51)
      else some 1

end Checks

section Digests

variable {H : Type} (hs : Hashing H) (core : Core)

/-- `check_pow`: -30 for a target outside the limit, -31 for a hash above the target. -/
def checkPow (header : Bytes) : Int :=
  let hash := ofLe (hs.digest (hs.dsha256 header)).toList
  let nBits := UInt32.ofNat (ofLe (slice header 72 76))
  let (target, neg, overflow) := core.setCompact nBits
  let (powLimit, _, _) := core.setCompact 0x1d00ffff
  if neg ∨ overflow ∨ target = 0 ∨ powLimit < target then -30
  else if target < hash then -31
  else 1

/-- Whether a script is a witness commitment. -/
def isCommitment (s : Bytes) : Bool :=
  38 ≤ s.length ∧ s.take 6 = [0x6a, 0x24, 0xaa, 0x21, 0xa9, 0xed]

/-- `check_witness_commitment`: the last commitment output against the root of the wtxids. -/
def checkWitnessCommitment (cb : Bytes) (wtxids : List Bytes32) (hasWitness : Bool) :
    Option Int := do
  let tx ← core.unserializeTx cb
  match (tx.vout.filter fun o => isCommitment o.scriptPubKey).getLast? with
  | none => some (if hasWitness then -1 else 1)
  | some found =>
    match tx.vin with
    | [] => some (-2)
    | txin :: _ =>
      match txin.witness with
      | [reserved] =>
        if reserved.length ≠ 32 then some (-2)
        else
          let wroot := (core.computeMerkleRoot wtxids).1
          let expected := hs.digest (hs.dsha256 (wroot.toList ++ reserved))
          some (if slice found.scriptPubKey 6 38 = expected.toList then 1 else -3)
      | _ => some (-2)

/-- `GetBlockProof` of a target. -/
def blockProof (nBits : UInt32) : ℕ :=
  let (t, neg, overflow) := core.setCompact nBits
  if neg ∨ overflow ∨ t = 0 then 0 else (2 ^ 256 - 1 - t) / (t + 1) + 1

/-- `add_work`, on 256-bit numbers. -/
def addWork (cum : ℕ) (nBits : UInt32) : ℕ := (cum + blockProof core nBits) % 2 ^ 256

/-- `calc_next_bits`. -/
def calcNextBits (prevBits firstTime lastTime : UInt32) : UInt32 :=
  core.calculateNextWorkRequired prevBits firstTime lastTime

end Digests

/-! ## Leaves and coins -/

section Facts

variable {H : Type} {hs : Hashing H}

/-- A signed amount and the same bits unsigned are one and the other. -/
theorem toUInt64_injective : Function.Injective Int64.toUInt64 :=
  fun ⟨_⟩ ⟨_⟩ h => congrArg Int64.ofUInt64 h

/-- The one field of variable width is as long as its preimage says. -/
theorem Coin.preimage_injective : Function.Injective Coin.preimage := by
  intro c d h
  have hlen := congrArg List.length h
  obtain ⟨htxid, h⟩ := bytes32_append_inj h
  obtain ⟨hvout, h⟩ := le32_append_inj h
  obtain ⟨hvalue, h⟩ := le64_append_inj h
  obtain ⟨-, h⟩ := le32_append_inj h
  obtain ⟨hspk, h⟩ := List.append_inj h (by simpa [Coin.preimage] using hlen)
  obtain ⟨hheight, h⟩ := le32_append_inj h
  obtain ⟨hcb, hmtp⟩ := List.cons.inj h
  have hcb : c.isCoinbase = d.isCoinbase := by
    cases hc : c.isCoinbase <;> cases hd : d.isCoinbase <;> simp [hc, hd] at hcb ⊢
  have hvalue := toUInt64_injective hvalue
  have hmtp := le32_injective hmtp
  cases c
  cases d
  congr

/-- Different coins have different leaves, where the hash tells leaves apart. -/
theorem Coin.leaf_injective (h : hs.LeafInjective) : Function.Injective (Coin.leaf hs) :=
  h.comp Coin.preimage_injective

end Facts
end Guest
end Hazync
