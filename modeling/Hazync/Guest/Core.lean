import Hazync.Lib.ByteStrings
import Mathlib.Algebra.Ring.Int.Defs

/-!
# Bitcoin Core as the guest links it

The guest compiles Core v28.0 in and reaches it through `verify_input.cpp`. Core itself is not
part of the repository, so what the wrapper calls is a parameter: `Core` lists the functions, and
what a result relies on about them is a hypothesis of its own (`CoinbaseShape`,
`ChecksOutputs`, …), each a documented fact of Core.

## Why it is a parameter

What is in this repository is the wrapper around Core's consensus code, and not that code. Writing
definitions for `VerifyScript` or `CheckTransaction` here would be making them up. So every result
is for all of Core's functions, whatever they are, and where it needs a fact about one of them the
fact stands among its hypotheses, under a name: that a coinbase has one input with a null outpoint,
that a checked transaction has no output below zero. Most results need none, since what they say is
that Core was asked, about which bytes, and that the answer was taken for what it is.

The types follow the guest's: 32-bit sizes, values in `i64`, hashes of 32 bytes.
-/

namespace Hazync
namespace Guest

open ByteStrings

/-- `CTxIn`, with the outpoint it spends and its witness stack. -/
structure TxIn where
  prevoutHash : Bytes32
  prevoutN : UInt32
  scriptSig : Bytes
  nSequence : UInt32
  witness : List Bytes
  deriving DecidableEq

/-- `CTxOut`. -/
structure TxOut where
  nValue : Int64
  scriptPubKey : Bytes
  deriving DecidableEq

/-- `CTransaction`. The guest is 32-bit, so no vector has 2^32 elements. -/
structure Transaction where
  version : UInt32
  vin : List TxIn
  vout : List TxOut
  nLockTime : UInt32
  vin_lt : vin.length < 2 ^ 32
  vout_lt : vout.length < 2 ^ 32
  deriving DecidableEq

/-- The parts of Core that the wrapper calls. -/
structure Core where
  /-- `r >> TX_WITH_WITNESS(mtx)`; `none` is a trap or a throw, which end the guest. -/
  unserializeTx : Bytes → Option Transaction
  /-- `pr >> spent`, a `vector<CTxOut>`. -/
  unserializeOuts : Bytes → Option (List TxOut)
  getHash : Transaction → Bytes32
  getWitnessHash : Transaction → Bytes32
  hasWitness : Transaction → Bool
  isCoinBase : Transaction → Bool
  checkTransaction : Transaction → Bool
  isUnspendable : Bytes → Bool
  /-- `VerifyScript` of one input, the transaction's data precomputed from all the coins it
      spends: `none` is success, `some` an error code. -/
  verifyScript : (tx : Transaction) → (input : ℕ) → (spent : List TxOut) → (flags : UInt32) →
    Option ℕ
  /-- `ComputeMerkleRoot` and its mutation flag. -/
  computeMerkleRoot : List Bytes32 → Bytes32 × Bool
  serializeSizeNoWitness : Transaction → ℕ
  serializeSizeWithWitness : Transaction → ℕ
  /-- `CScript::GetSigOpCount(false)`. -/
  getSigOpCount : Bytes → ℕ
  /-- `CScript::GetSigOpCount(scriptSig)`. -/
  getP2SHSigOpCount : (scriptPubKey scriptSig : Bytes) → ℕ
  countWitnessSigOps : (scriptSig scriptPubKey : Bytes) → (witness : List Bytes) →
    (flags : UInt32) → ℕ
  isPayToScriptHash : Bytes → Bool
  /-- `SetCompact`: the value, whether it is negative, whether it overflows. -/
  setCompact : UInt32 → ℕ × Bool × Bool
  /-- `CScript() << height`. -/
  pushHeight : UInt32 → Bytes
  /-- `CalculateNextWorkRequired` under the mainnet parameters. -/
  calculateNextWorkRequired : (nBits : UInt32) → (firstTime lastTime : UInt32) → UInt32
  /-- `Consensus::Params::nSubsidyHalvingInterval`. -/
  subsidyHalvingInterval : UInt32

/-- `MAX_MONEY`, in satoshi. -/
def MAX_MONEY : Int64 := 21000000 * 100000000

/-- `MoneyRange`. -/
def moneyRange (v : Int64) : Bool := 0 ≤ v ∧ v ≤ MAX_MONEY

/-- The range as integers. -/
theorem moneyRange_iff {v : Int64} :
    moneyRange v = true ↔ 0 ≤ v.toInt ∧ v.toInt ≤ MAX_MONEY.toInt := by
  rw [moneyRange, decide_eq_true_iff, Int64.le_iff_toInt_le, Int64.le_iff_toInt_le]
  rfl

/-- Two amounts of money do not run over when they are added. -/
theorem toInt_add_of_money {a b : Int64} (ha : moneyRange a = true) (hb : moneyRange b = true) :
    (a + b).toInt = a.toInt + b.toInt := by
  have hmax : MAX_MONEY.toInt = 2100000000000000 := by decide
  obtain ⟨ha₀, ha₁⟩ := moneyRange_iff.mp ha
  obtain ⟨hb₀, hb₁⟩ := moneyRange_iff.mp hb
  rw [Int64.toInt_add, Int.bmod_eq_of_le (by omega) (by omega)]

namespace Core

/-- A coinbase has one input, and that input's outpoint is null. -/
def CoinbaseShape (core : Core) : Prop :=
  ∀ tx, core.isCoinBase tx = true → ∃ txin, tx.vin = [txin] ∧ txin.prevoutN = 0xffffffff

/-- `CheckTransaction` passes no output, and no partial sum of outputs, outside `MoneyRange`. -/
def ChecksOutputs (core : Core) : Prop :=
  ∀ tx, core.checkTransaction tx = true →
    ∀ vs, vs <+: tx.vout.map TxOut.nValue →
      (∀ v ∈ vs, 0 ≤ v.toInt) ∧ (vs.map Int64.toInt).sum ≤ MAX_MONEY.toInt

/-- The halving interval of mainnet. -/
def MainnetHalving (core : Core) : Prop := core.subsidyHalvingInterval = 210000

end Core
end Guest
end Hazync
