import Hazync.Accumulator.ForestCache
import Hazync.VerifierFfi.VerifyProof

/-!
# The UTXO dump (`hazync_check_utxo_dump`, `verifier-ffi/src/lib.rs`)

A dump is a header and a run of coin records of any length each. Every record says which position
of the accumulator its coin stands at, and the forest is built again from the leaves in that order.
The roots are then compared with those a proof wrote, of which only the non-empty ones are left:
what makes that binding is that the leaf count alone says at which heights there is a root.

`none` is a panic: a slice or an index out of range.

## Read in one pass

The function is one long piece of code in the source. Here it has a few parts, each with its name:
the header, one record, the loop, the comparison of the roots. Every error is a return in the source
and an `Except.error` here, and every index or slice is checked, with `none` where Rust would panic.
So that no panic can happen is something that can be proved, and it is, in `DumpExact`.

A head is kept as its fields, and not yet as a coin, because two of them are lost on the way: the
flag of a coinbase is any byte but zero, and the value is stored unsigned. Two dumps may therefore
differ in the byte of a flag and list the same coins.
-/

namespace Hazync
namespace VerifierFfi

open ByteStrings Guest
open Accumulator (Forest)

variable {H : Type}

/-! ## The format -/

/-- `b"HZUTXO\0\0"` -/
def DUMP_MAGIC : Bytes := [0x48, 0x5a, 0x55, 0x54, 0x58, 0x4f, 0, 0]

/-- The length of the header. -/
def HDR : ℕ := 8 + 4 + 4 + 8

/-- The fixed part of a record: 61 bytes. -/
structure CoinHead where
  txid : Bytes32
  vout : UInt32
  value : UInt64
  height : UInt32
  /-- Any byte but zero is a coinbase. -/
  coinbase : UInt8
  mtp : UInt32
  pos : UInt32
  spkLen : UInt32

/-- A complete record: as many bytes of script as its head says. -/
structure DumpCoin extends CoinHead where
  spk : Bytes
  spk_length : spk.length = spkLen.toNat

/-- The fields in order, each in its width. -/
def CoinHead.bytes (c : CoinHead) : Bytes :=
  c.txid.toList ++ (le32 c.vout ++ (le64 c.value ++ (le32 c.height ++ (c.coinbase ::
    (le32 c.mtp ++ (le32 c.pos ++ le32 c.spkLen))))))

/-- The head, and the script behind it. -/
def DumpCoin.bytes (c : DumpCoin) : Bytes := c.toCoinHead.bytes ++ c.spk

/-- The coin a head and a script are of. -/
def CoinHead.coin (c : CoinHead) (spk : Bytes) : Coin where
  txid := c.txid
  vout := c.vout
  value := c.value.toInt64
  scriptPubKey := spk
  height := c.height
  isCoinbase := c.coinbase ≠ 0
  mtp := c.mtp

/-- The coin that a record is of. -/
def DumpCoin.coin (c : DumpCoin) : Coin := c.toCoinHead.coin c.spk

/-- Magic, version, height and count. -/
def dumpHeader (height : UInt32) (count : UInt64) : Bytes :=
  DUMP_MAGIC ++ (le32 1 ++ (le32 height ++ le64 count))

/-! ## The code -/

/-- `rd32` -/
def rd32 (buf : Bytes) (o : ℕ) : Option UInt32 :=
  (slice? buf o (o + 4)).map fun b => UInt32.ofNat (ofLe b)

/-- `rd64` -/
def rd64 (buf : Bytes) (o : ℕ) : Option UInt64 :=
  (slice? buf o (o + 8)).map fun b => UInt64.ofNat (ofLe b)

/-- `buf[o..o + 32].try_into().unwrap()` -/
def rd256 (buf : Bytes) (o : ℕ) : Option Bytes32 := do
  let b ← slice? buf o (o + 32)
  if h : b.length = 32 then some ⟨b, h⟩ else none

/-- `if p >= n || slots[p].is_some() { return .. }; slots[p] = Some(leaf)` -/
def fillSlot (n : ℕ) (slots : List (Option H)) (p : ℕ) (leaf : H) :
    Option (Except Int32 (List (Option H))) :=
  if n ≤ p then some (.error HAZYNC_ERR_DUMP_POS)
  else do
    let slot ← slots[p]?
    if slot.isSome then some (.error HAZYNC_ERR_DUMP_POS)
    else some (.ok (slots.set p (some leaf)))

/-- The body of the loop over the records, from offset `o`. -/
def readCoin (hs : Hashing H) (buf : Bytes) (n o : ℕ) (slots : List (Option H)) :
    Option (Except Int32 (ℕ × List (Option H))) :=
  if buf.length < o + 61 then some (.error HAZYNC_ERR_DUMP_TRUNC)
  else do
    let txid ← rd256 buf o
    let vout ← rd32 buf (o + 32)
    let value ← rd64 buf (o + 36)
    let height ← rd32 buf (o + 44)
    let coinbase ← buf[o + 48]?
    let mtp ← rd32 buf (o + 49)
    let pos ← rd32 buf (o + 53)
    let spkLen ← rd32 buf (o + 57)
    let head : CoinHead := ⟨txid, vout, value, height, coinbase, mtp, pos, spkLen⟩
    if buf.length < o + 61 + spkLen.toNat then some (.error HAZYNC_ERR_DUMP_TRUNC)
    else do
      let spk ← slice? buf (o + 61) (o + 61 + spkLen.toNat)
      let filled ← fillSlot n slots pos.toNat ((head.coin spk).leaf hs)
      some (filled.map fun slots => (o + 61 + spkLen.toNat, slots))

/-- `for _ in 0..n`, with `k` of the rounds to go. -/
def readCoins (hs : Hashing H) (buf : Bytes) (n : ℕ) :
    ℕ → ℕ → List (Option H) → Option (Except Int32 (ℕ × List (Option H)))
  | 0, o, slots => some (.ok (o, slots))
  | k + 1, o, slots => do
    match ← readCoin hs buf n o slots with
    | .error e => some (.error e)
    | .ok (o, slots) => readCoins hs buf n k o slots

/-- `for (i, r) in present.iter().enumerate()`: whether each is `pv.utxo_roots[i]`. -/
def rootsEqual [DecidableEq H] (utxoRoots : List H) : ℕ → List H → Option Bool
  | _, [] => some true
  | i, r :: present => do
    let root ← utxoRoots[i]?
    if r ≠ root then some false else rootsEqual utxoRoots (i + 1) present

/-- From the filled slots on. -/
def checkSlots [DecidableEq H] (hs : Hashing H) (slots : List (Option H)) (pv : HazyncState H) :
    Option Int32 :=
  match slots.mapM id with
  | none => some HAZYNC_ERR_DUMP_POS
  | some leaves => do
    let rebuilt ← (Forest.fromLeaves hs.parent leaves).roots
    let present := rebuilt.reduceOption
    if present.length ≠ pv.rootCount.toNat then some HAZYNC_ERR_DUMP_ROOTS
    else do
      let equal ← rootsEqual pv.utxoRoots.toList 0 present
      some (if equal then HAZYNC_OK else HAZYNC_ERR_DUMP_ROOTS)

/-- `hazync_check_utxo_dump` -/
def hazyncCheckUtxoDump [DecidableEq H] (hs : Hashing H) (buf : Bytes) (pv : HazyncState H) :
    Option Int32 :=
  if buf.length = 0 then some HAZYNC_ERR_NULL
  else if buf.length < HDR ∨ slice? buf 0 8 ≠ some DUMP_MAGIC then some HAZYNC_ERR_DUMP_MAGIC
  else do
    let version ← rd32 buf 8
    if version ≠ 1 then some HAZYNC_ERR_DUMP_VERSION
    else do
      let height ← rd32 buf 12
      if height ≠ pv.height then some HAZYNC_ERR_DUMP_HEIGHT
      else do
        let count ← rd64 buf 16
        if count ≠ pv.utxoLeaves then some HAZYNC_ERR_DUMP_COUNT
        else do
          let n := count.toNat
          match ← readCoins hs buf n n HDR (.replicate n none) with
          | .error e => some e
          | .ok (o, slots) =>
            if o ≠ buf.length then some HAZYNC_ERR_DUMP_TRUNC else checkSlots hs slots pv

end VerifierFfi
end Hazync
