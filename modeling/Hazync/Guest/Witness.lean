import Hazync.Accumulator.Stump
import Hazync.Guest.VerifyInput
import Hazync.Smt.Bip30

/-!
# What a block is proved from (`prover/methods/guest/src/main.rs`, `script_flags.rs`)

The witness of one block as the guest reads it, the flags its scripts run under, and the digests
that bind a chunk's work to the block's own bytes. Every field of a witness is the prover's
choice.

## Nothing is trusted here

A witness is what comes from the host over the guest's input. The proofs, the positions, the heights
and flags of coins, even the lists of txids and the accumulator afterwards: all of it is claimed.
What the guest gets out of it is either checked against a hash or does not matter. Two properties do
hold by construction, for they are properties of a 32-bit machine: no blob and no list of inputs has
2³² elements.

The digests at the end bind a chunk to bytes. `txBind` covers the transaction, its prevouts and the
flags, with their lengths, so that it can be read back; `inputBindFrom` adds what the caller says of
one input. A digest that is equal to another is of the same bytes, if the hash is one-to-one
(`inputBindFrom_inj`).
-/

namespace Hazync
namespace Guest

open ByteStrings
open Accumulator (Proof Stump)

/-- A byte vector of the guest, whose `usize` is 32 bits. -/
abbrev Blob := { b : Bytes // b.length < 2 ^ 32 }

/-- How many 32-byte hashes a `Vec` of the guest holds before it panics: its size is at most
    `isize::MAX`. -/
def vecCapacity32 : ℕ := (2 ^ 31 - 1) / 32

/-- `BlockInput`: an input, the transaction it says it is of, and the proofs of its coin. A
    `WireProof` is a `Proof` field for field. -/
structure BlockInput (H : Type) where
  txIdx : UInt32
  inputIdx : UInt32
  globalPos : UInt64
  coinHeight : UInt32
  coinIsCoinbase : UInt32
  coinMtp : UInt32
  txFirst : UInt32
  proofI : Proof H
  proofLast : Proof H

/-- `Bip30Del`. -/
structure Bip30Del (H : Type) where
  globalPos : UInt64
  proofI : Proof H
  proofLast : Proof H

/-- `Bip30Overwrite`: the deletes of a superseded coinbase's leaves. -/
structure Bip30Overwrite (H : Type) where
  oldHeight : UInt32
  oldMtp : UInt32
  dels : List (Bip30Del H)

/-- `SmtWitnessW`; its spends are the `SmtSpendW` of the source, which are `Smt.Spend`s. -/
structure SmtWitness (H : Type) where
  coinbaseTxid : Bytes32
  coinbaseOutputs : UInt32
  absenceProof : Smt.Proof H
  spends : List (Smt.Spend H)
  smtOverwrite : Option UInt32

/-- `BlockWitness`. A `WireStump` is a `Stump` field for field. -/
structure BlockWitness (H : Type) where
  header : Bytes
  height : UInt32
  coinbaseTx : Bytes
  txids : List Bytes32
  rootPrev : Stump H
  txs : List Blob
  txPrevouts : List Blob
  inputs : List (BlockInput H)
  rootNext : Stump H
  bip30 : Option (Bip30Overwrite H)
  inSmtRoot : H
  smt : SmtWitness H
  inputs_lt : inputs.length < 2 ^ 32

/-- What an entry says of its coin, as the wrapper is given it. -/
def BlockInput.ref {H : Type} (inp : BlockInput H) : InputRef where
  inputIdx := inp.inputIdx
  coinHeight := inp.coinHeight
  coinIsCoinbase := inp.coinIsCoinbase
  coinMtp := inp.coinMtp

/-! ## Script flags -/

/-- Thirty-two bytes given as a number, the first byte the highest. -/
def bytes32OfNat (n : ℕ) : Bytes32 := ⟨(le 32 n).reverse, by simp⟩

/-- The two blocks of Core's `script_flag_exceptions`. -/
def BIP16_EXCEPTION : Bytes32 :=
  bytes32OfNat 0x229c4fac88bab194eb08f1a528cc308ded2397f4f4eb6e75dc02000000000000
def TAPROOT_EXCEPTION : Bytes32 :=
  bytes32OfNat 0xad95e3a15ee5ffd585c5e81d445b6a981e842d5bc3140f000000000000000000

def FLAG_DERSIG : UInt32 := (1 : UInt32) <<< 2
def FLAG_NULLDUMMY : UInt32 := (1 : UInt32) <<< 4
def FLAG_CLTV : UInt32 := (1 : UInt32) <<< 9
def FLAG_CSV : UInt32 := (1 : UInt32) <<< 10
def FLAG_WITNESS : UInt32 := (1 : UInt32) <<< 11
def FLAG_TAPROOT : UInt32 := (1 : UInt32) <<< 17

def BIP66_HEIGHT : UInt32 := 363725
def BIP65_HEIGHT : UInt32 := 388381
def SEGWIT_HEIGHT : UInt32 := 481824

/-- `block_script_flags`. -/
def blockScriptFlags (height : UInt32) (blockHash : Bytes32) : UInt32 :=
  let f :=
    if blockHash = BIP16_EXCEPTION then 0
    else if blockHash = TAPROOT_EXCEPTION then FLAG_P2SH ||| FLAG_WITNESS
    else FLAG_P2SH ||| FLAG_WITNESS ||| FLAG_TAPROOT
  let f := if BIP66_HEIGHT ≤ height then f ||| FLAG_DERSIG else f
  let f := if BIP65_HEIGHT ≤ height then f ||| FLAG_CLTV else f
  let f := if CSV_HEIGHT ≤ height then f ||| FLAG_CSV else f
  if SEGWIT_HEIGHT ≤ height then f ||| FLAG_NULLDUMMY else f

/-- The two blocks BIP30 grandfathers, 91842 and 91880. -/
def BIP30_OVERWRITE_A : Bytes32 :=
  bytes32OfNat 0xeccae000e3c8e4e093936360431f3b7603c563c1ff6181390a4d0a0000000000
def BIP30_OVERWRITE_B : Bytes32 :=
  bytes32OfNat 0x21d77ccb4c08386a04ac0196ae10f6a1d2c2a377558ca190f143070000000000

/-! ## What the guest derives from the witness -/

namespace BlockWitness

variable {H : Type} (w : BlockWitness H)

/-- `i32::from_le_bytes(w.header[0..4])` -/
def version : Int32 := (UInt32.ofNat (ofLe (slice w.header 0 4))).toInt32

/-- `u32::from_le_bytes(w.header[68..72])` -/
def blockTime : UInt32 := UInt32.ofNat (ofLe (slice w.header 68 72))

/-- `u32::from_le_bytes(w.header[72..76])` -/
def nbits : UInt32 := UInt32.ofNat (ofLe (slice w.header 72 76))

/-- The hash of the header. -/
def blockHash (hs : Hashing H) : Bytes32 := hs.digest (hs.dsha256 w.header)

/-- The script flags of the block. -/
def flags (hs : Hashing H) : UInt32 := blockScriptFlags w.height (w.blockHash hs)

/-- BIP113: from CSV on, locktimes are against the median time past. -/
def lockTime (mtp : UInt32) : UInt32 := if CSV_HEIGHT ≤ w.height then mtp else w.blockTime

/-- The block is one of the two. -/
def isBip30Block (hs : Hashing H) : Bool :=
  w.blockHash hs = BIP30_OVERWRITE_A ∨ w.blockHash hs = BIP30_OVERWRITE_B

/-- No version that a buried soft fork has retired. -/
def versionOk : Bool :=
  ¬ ((w.version < 2 ∧ BIP34_HEIGHT ≤ w.height) ∨ (w.version < 3 ∧ BIP66_HEIGHT ≤ w.height) ∨
    (w.version < 4 ∧ BIP65_HEIGHT ≤ w.height))

/-- `(inp.tx_idx as usize).min(w.txs.len() - 1)`. With no transactions the subtraction wraps and
    the index that follows panics, as it does here at 0. -/
def clampIdx (inp : BlockInput H) : ℕ := min inp.txIdx.toNat (w.txs.length - 1)

/-- The clamped index with its two blobs; `none` is an index out of bounds. -/
def resolve (inp : BlockInput H) : Option (ℕ × Blob × Blob) := do
  let raw ← w.txs[w.clampIdx inp]?
  let prevouts ← w.txPrevouts[w.clampIdx inp]?
  some (w.clampIdx inp, raw, prevouts)

end BlockWitness

/-! ## Binding digests -/

section Bind

variable {H : Type} (hs : Hashing H)

/-- `tx_bind`: what every input of a transaction shares. -/
def txBind (rawTx prevouts : Bytes) (flags : UInt32) : H :=
  hs.dsha256 (le32 (UInt32.ofNat rawTx.length) ++ (rawTx ++
    (le32 (UInt32.ofNat prevouts.length) ++ (prevouts ++ le32 flags))))

/-- `input_bind_from`: the transaction's digest and what its inputs differ in. -/
def inputBindFrom (txb : H) (ref : InputRef) : H :=
  hs.dsha256 (hs.bytes txb ++ (le32 ref.inputIdx ++ (le32 ref.coinHeight ++
    (le32 ref.coinIsCoinbase ++ le32 ref.coinMtp))))

variable {hs}

/-- Transactions with one digest are the same, with the same prevouts and flags. -/
theorem txBind_inj (hinj : Function.Injective hs.dsha256) {raw raw' prevouts prevouts' : Blob}
    {flags flags' : UInt32}
    (h : txBind hs raw.1 prevouts.1 flags = txBind hs raw'.1 prevouts'.1 flags') :
    raw = raw' ∧ prevouts = prevouts' ∧ flags = flags' := by
  obtain ⟨hraw, h⟩ := lengthPrefixed_append_inj raw.2 raw'.2 (hinj h)
  obtain ⟨hprevouts, h⟩ := lengthPrefixed_append_inj prevouts.2 prevouts'.2 h
  exact ⟨Subtype.ext hraw, Subtype.ext hprevouts, le32_injective h⟩

/-- So are their inputs. -/
theorem inputBindFrom_inj (hinj : Function.Injective hs.dsha256) {txb txb' : H}
    {ref ref' : InputRef} (h : inputBindFrom hs txb ref = inputBindFrom hs txb' ref') :
    txb = txb' ∧ ref = ref' := by
  obtain ⟨htxb, h⟩ := hs.bytes_append_inj (hinj h)
  obtain ⟨hidx, h⟩ := le32_append_inj h
  obtain ⟨hheight, h⟩ := le32_append_inj h
  obtain ⟨hcb, h⟩ := le32_append_inj h
  have hmtp := le32_injective h
  refine ⟨htxb, ?_⟩
  cases ref
  cases ref'
  congr

end Bind

/-! ## What the chunks hand to the aggregate -/

/-- The arguments of `validate_block_wtx` that come from chunk proofs. `binds` is its `chunk`:
    the digests, and whether every script of every chunk was valid. -/
structure Chunks (H : Type) where
  binds : Option (List H × Bool)
  wtxids : List (UInt32 × Bytes32 × UInt32)
  leaves : List H
  seqs : List UInt32
  vers : List Int32

/-- `validate_block(w, mtp, None)`. -/
def Chunks.none {H : Type} : Chunks H where
  binds := .none
  wtxids := []
  leaves := []
  seqs := []
  vers := []

end Guest
end Hazync
