import Hazync.Bridge.DumpSnapshot
import Hazync.Host.GenesisAnchored

/-!
# Binding a snapshot to a proof (`snapshot_emit_cmd`, `snapshot_verify_cmd`)

The coins of a checkpoint are written in the order of the forest, so their records alone say where
each stands. The check reads them from a file that anyone may have written: it asks the node for the
times that the leaves need, builds the forest again, and compares it with what the journal of a
range says of the end of the range.

A panic is `none`, and the answer of the check is whether it reports the snapshot as bound.

## What the check has to go by

The file has no positions: the record at index `i` is the coin of leaf `i`. It has no times either,
though a leaf commits to the median time before its coin's block; the check asks the node for the
headers it needs (`mtpAt`). So three parties come together: the file, the node and the receipt. The
first is untrusted, the second is the operator's own, and the third is checked by the verifier of
the receipts, which is a parameter (`Receipts`).

A record has a byte for whether the coin is a coinbase's, and any value but zero counts. Two files
can therefore differ and be of the same coins; the leaves have the bit and not the byte.
-/

namespace Hazync
namespace Bridge

open ByteStrings
open Accumulator (Forest Stump normalize)
open Guest (Coin ImageId KIND_RANGE RangeState Zkvm)
open Host (verifyReceipt)
open VerifierFfi (Receipts rd256 rd32 rd64)

variable {H : Type}

/-! ## The format -/

/-- `b"HZSNAP01"` -/
def SNAP_MAGIC : Bytes := [0x48, 0x5a, 0x53, 0x4e, 0x41, 0x50, 0x30, 0x31]

/-- A record of a snapshot. -/
structure SnapCoin where
  txid : Bytes32
  vout : UInt32
  value : UInt64
  spk : Bytes
  height : UInt32
  /-- Any byte but zero is a coinbase. -/
  coinbase : UInt8
  spk_lt : spk.length < 2 ^ 32

def SnapCoin.bytes (c : SnapCoin) : Bytes :=
  c.txid.toList ++ (le32 c.vout ++ (le64 c.value ++ (le32 (UInt32.ofNat c.spk.length) ++
    (c.spk ++ (le32 c.height ++ [c.coinbase])))))

/-- The coin, with the time that its leaf needs. -/
def SnapCoin.coin (c : SnapCoin) (mtp : UInt32) : Coin where
  txid := c.txid
  vout := c.vout
  value := c.value.toInt64
  scriptPubKey := c.spk
  height := c.height
  isCoinbase := c.coinbase ≠ 0
  mtp := mtp

def snapshot (height : UInt32) (coins : List SnapCoin) : Bytes :=
  SNAP_MAGIC ++ (le32 height ++ (le64 (UInt64.ofNat coins.length) ++ coins.flatMap SnapCoin.bytes))

/-! ## The commands -/

/-- The record of a coin of the map. -/
def snapRecord (e : Outpoint × Unspent) : Bytes :=
  e.1.txid.toList ++ (le32 e.1.vout ++ (le64 e.2.value.toUInt64 ++
    (le32 (UInt32.ofNat e.2.spk.length) ++ (e.2.spk ++ (le32 e.2.height ++
      [if e.2.isCoinbase then 1 else 0])))))

/-- `by_leaf` -/
def entriesByLeaf [DecidableEq H] (hs : Hashing H) (st : BridgeState H) :
    Option (H → Option (Outpoint × Unspent)) :=
  st.utxo.entries.foldlM (fun byLeaf e => do
    let mtp ← st.blockMtp[e.2.height.toNat]?
    some (Function.update byLeaf ((e.2.coin e.1 mtp).leaf hs) (some e))) fun _ => none

/-- `snapshot_emit_cmd` on a checkpoint: the bytes it writes. `none` is a panic, where a leaf has no
    entry or a coin has no time. -/
def snapshotEmit [DecidableEq H] (hs : Hashing H) (st : BridgeState H) : Option Bytes := do
  let byLeaf ← entriesByLeaf hs st
  let records ← st.leaves.mapM fun leaf => (byLeaf leaf).map snapRecord
  some (SNAP_MAGIC ++ (le32 st.height ++ (le64 (UInt64.ofNat st.leaves.length) ++ records.flatten)))

/-- `mtp_at`: `headerTime` is the time of the node's header at a height. The median is of the eleven
    headers below the coin's block, or of so many as there are. -/
def mtpAt (headerTime : ℕ → Option UInt32) (coinHeight : UInt32) : Option UInt32 := do
  let lo := coinHeight.toNat - 11
  let ts ← (List.range' lo (coinHeight.toNat - lo)).mapM headerTime
  medianU32 ts

/-- One round of the loop over the records, from offset `p`. -/
def readSnapCoin (headerTime : ℕ → Option UInt32) (b : Bytes) (p : ℕ) : Option (Coin × ℕ) := do
  let txid ← rd256 b p
  let vout ← rd32 b (p + 32)
  let value ← rd64 b (p + 36)
  let sl ← rd32 b (p + 44)
  let spk ← slice? b (p + 48) (p + 48 + sl.toNat)
  let ch ← rd32 b (p + 48 + sl.toNat)
  let cb ← b[p + 52 + sl.toNat]?
  let mtp ← mtpAt headerTime ch
  some (⟨txid, vout, value.toInt64, spk, ch, cb ≠ 0, mtp⟩, p + 53 + sl.toNat)

/-- `for _ in 0..count` -/
def readSnapCoins (headerTime : ℕ → Option UInt32) (b : Bytes) : ℕ → ℕ → Option (List Coin × ℕ)
  | 0, p => some ([], p)
  | n + 1, p => do
    let (coin, p) ← readSnapCoin headerTime b p
    let (coins, p) ← readSnapCoins headerTime b n p
    some (coin :: coins, p)

variable [DecidableEq H] (hs : Hashing H) (zkvm : Zkvm H) (receipts : Receipts) (methodId : ImageId)

/-- `snapshot_verify_cmd`: the magic, the header, the records to the last byte, the receipt, and
    then the comparison of what the journal says with the file: the guest, the kind, the height, the
    count and the roots. -/
def snapshotVerify (headerTime : ℕ → Option UInt32) (b proof : Bytes) : Option Bool := do
  guard (20 < b.length ∧ slice? b 0 8 = some SNAP_MAGIC)
  let height ← rd32 b 8
  let count ← rd64 b 12
  let (coins, p) ← readSnapCoins headerTime b count.toNat 20
  guard (p = b.length)
  let forest := Forest.fromLeaves hs.parent (coins.map (Coin.leaf hs))
  let r ← receipts.deserialize proof
  verifyReceipt receipts methodId r
  let rs ← zkvm.decodeRange (receipts.journal r)
  guard (rs.selfId = methodId)
  guard (rs.kind = KIND_RANGE)
  let roots ← forest.roots
  some (rs.hi = height ∧ rs.after.leaves = UInt64.ofNat forest.leaves.length ∧
    normalize rs.after.roots = normalize roots)

end Bridge
end Hazync
