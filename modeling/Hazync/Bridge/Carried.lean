import Hazync.Accumulator.ForestJournal
import Hazync.Bridge.Utxo
import Hazync.Guest.Witness

/-!
# The bridge's step of the accumulator (`build_block_carried`, `prover/host/src/main.rs`)

For each input of a block the bridge looks up the coin, first in the map and then among the
outputs of the block. A coin of the block itself it leaves out of the accumulator; every other one
it proves and deletes. Then the coinbase of a grandfathered block has its earlier namesake's
leaves deleted, and the outputs that are left are appended, all in the guest's order.

## The order of things

The order of the deletes is part of the format, since each delete moves the last leaf and with it
changes the proofs of others. In the source the loop over the inputs goes transaction by transaction
and the map of the block's outputs is made before it. So an input may be looked up among outputs
that come later in the block; that no block which is valid has such an input is not checked here.

What the bytes of the witness are is in `Hazync.Bridge.Bundle`; here it is the accumulator only.
`supersededLeaves` hashes the leaves of the earlier coinbase from the one at hand, with the height
and the time of the earlier one, as the source does: the two transactions are the same, byte for
byte.
-/

namespace Hazync
namespace Bridge

open ByteStrings
open Accumulator (Forest ForestOp Proof Stump)
open Guest (Core Transaction TxIn TxOut Coin BlockInput Bip30Del Bip30Overwrite)

variable {H : Type} (hs : Hashing H) (core : Core)

/-- `cur`: all outputs of the block, of which a later one at the same outpoint wins. -/
def Block.cur (block : Block) : SortedMap Outpoint TxOut :=
  SortedMap.empty.insertAll (block.txdata.flatMap fun t =>
    t.vout.zipIdx.map fun (o, v) => (⟨core.getHash t, UInt32.ofNat v⟩, o))

/-- The coin of one input, as `bridge_block_json` finds it; `none` is a panic. -/
def prevout (utxo : Utxo) (block : Block) (height : UInt32) (op : Outpoint) : Option Unspent :=
  match utxo.get? op with
  | some u => some u
  | none => (block.cur core).get? op |>.map fun o => ⟨o.nValue, o.scriptPubKey, height, false⟩

/-- An input of the block: its transaction, its place in it, and the coin it spends. -/
structure InputSpend where
  txIdx : ℕ
  inputIdx : ℕ
  coin : Coin

/-- The inputs of the block in order, each with its coin and the time the coin's leaf commits to. -/
def Block.spends (utxo : Utxo) (blockMtp : List UInt32) (height : UInt32) (block : Block) :
    Option (List InputSpend) :=
  (block.txdata.tail.zipIdx.flatMap fun (t, i) => t.vin.zipIdx.map fun (txin, j) => (i, j, txin)).mapM
    fun (i, j, txin) => do
      let u ← prevout core utxo block height (outpointOf txin)
      some ⟨i, j, u.coin (outpointOf txin) (blockMtp.getD u.height.toNat 0)⟩

/-- `out_leaf_of` of each spendable output, in canonical order. -/
def Block.outLeaves (block : Block) (height mtp : UInt32) : List H :=
  (block.outputs core height).map fun e => (e.2.coin e.1 mtp).leaf hs

/-- `wire_stump` -/
def wireStump (F : Forest H) : Option (Stump H) := do
  let roots ← F.roots
  some ⟨roots, UInt64.ofNat F.leaves.length⟩

/-- What the loop over the inputs has so far. -/
structure Spending (H : Type) where
  forest : Forest H
  spentInBlock : List H
  inputs : List (BlockInput H)

/-- The heights that overwrite a coinbase, each with the height of the coinbase it overwrites. -/
def overwrittenHeight (height : UInt32) : Option UInt32 :=
  if height = 91842 then some 91812 else if height = 91880 then some 91722 else none

/-- What `build_block_carried` makes of the accumulator. The bytes of the witness are left out. -/
structure Carried (H : Type) where
  rootPrev : Stump H
  txids : List Bytes32
  inputs : List (BlockInput H)
  bip30 : Option (Bip30Overwrite H)
  rootNext : Stump H
  forest : Forest H

variable [DecidableEq H]

/-- One input. A coin of this block gets an empty proof; the others are proved with the last leaf,
    which takes their place. `none` is a leaf that is not found, which the source unwraps. -/
def spendInput (created : List H) (acc : Spending H) (s : InputSpend) : Option (Spending H) :=
  let leaf := s.coin.leaf hs
  let input (pos : ℕ) (proofI proofLast : Proof H) : BlockInput H :=
    { txIdx := UInt32.ofNat s.txIdx
      inputIdx := UInt32.ofNat s.inputIdx
      globalPos := UInt64.ofNat pos
      coinHeight := s.coin.height
      coinIsCoinbase := if s.coin.isCoinbase then 1 else 0
      coinMtp := s.coin.mtp
      txFirst := if s.inputIdx = 0 then 1 else 0
      proofI := proofI
      proofLast := proofLast }
  if leaf ∈ created then
    let dummy : Proof H := { leaf := leaf, position := 0, siblings := [] }
    some
      { forest := acc.forest
        spentInBlock := leaf :: acc.spentInBlock
        inputs := acc.inputs ++ [input 0 dummy dummy] }
  else do
    let pos ← acc.forest.find leaf
    let proofI ← acc.forest.prove pos
    let proofLast ← acc.forest.prove (acc.forest.leaves.length - 1)
    let forest ← acc.forest.delete hs.parent pos
    some
      { forest := forest
        spentInBlock := acc.spentInBlock
        inputs := acc.inputs ++ [input pos proofI proofLast] }

/-- One leaf of the overwritten coinbase. -/
def deleteSuperseded (acc : Forest H × List (Bip30Del H)) (leaf : H) :
    Option (Forest H × List (Bip30Del H)) := do
  let pos ← acc.1.find leaf
  let proofI ← acc.1.prove pos
  let proofLast ← acc.1.prove (acc.1.leaves.length - 1)
  let forest ← acc.1.delete hs.parent pos
  some (forest, acc.2 ++ [⟨UInt64.ofNat pos, proofI, proofLast⟩])

/-- The leaves that the coinbase of the block had at the height it overwrites. -/
def supersededLeaves (coinbase : Transaction) (oldHeight oldMtp : UInt32) : List H :=
  (spendableOutputs core oldHeight true coinbase).map fun e => (e.2.coin e.1 oldMtp).leaf hs

/-- The deletes of a grandfathered block. At every other height the forest is left alone and the
    witness has no such part. -/
def overwrite (coinbase : Transaction) (blockMtp : List UInt32) (height : UInt32) (F : Forest H) :
    Option (Forest H × Option (Bip30Overwrite H)) :=
  match overwrittenHeight height with
  | none => some (F, none)
  | some oldHeight => do
    let oldMtp := blockMtp.getD oldHeight.toNat 0
    let (F, dels) ← (supersededLeaves hs core coinbase oldHeight oldMtp).foldlM
      (deleteSuperseded hs) (F, [])
    some (F, some ⟨oldHeight, oldMtp, dels⟩)

/-- `build_block_carried`, with the coins that `bridge_block_json` finds; `none` is a panic. -/
def buildBlockCarried (utxo : Utxo) (blockMtp : List UInt32) (height : UInt32) (block : Block)
    (F : Forest H) : Option (Carried H) := do
  let coinbase ← block.txdata.head?
  let spends ← block.spends core utxo blockMtp height
  let rootPrev ← wireStump F
  let created := block.outLeaves hs core height (blockMtp.getD height.toNat block.time)
  let acc ← spends.foldlM (spendInput hs created) ⟨F, [], []⟩
  let (F, bip30) ← overwrite hs core coinbase blockMtp height acc.forest
  let F := (created.filter (· ∉ acc.spentInBlock)).foldl (Forest.add hs.parent) F
  let rootNext ← wireStump F
  some
    { rootPrev := rootPrev
      txids := block.txdata.map core.getHash
      inputs := acc.inputs
      bip30 := bip30
      rootNext := rootNext
      forest := F }

end Bridge
end Hazync
