import Hazync.Guest.Witness

/-!
# Chunks (`chunk_prove` and the start of `aggregate`, `prover/methods/guest/src/main.rs`)

A chunk verifies the scripts of some inputs in a guest of its own and commits, for each input, the
digest of exactly what it verified. Its payload is the host's: entries of one transaction each,
which own any of its inputs, or none. The aggregate concatenates the journals of its chunks.

`none` is a panic. A vector that outgrows its capacity is one, here as in the block check.

## What goes in and what comes out

A chunk has no access to the block. It is told a height and a block hash, which give it the flags,
and a list of transactions with what they spend; it verifies what it is given and commits a digest
of it, input by input. The digest is what makes it safe: whoever reads the journal compares it with
the digest of the bytes that it has itself. The leaves, the sequences and the versions are committed
beside the digests, so that the aggregate need not parse the transactions again.

The journals are concatenated in the order in which the host gives them. Nothing else says which
inputs of the block a chunk is for: the position in the totals does.
-/

namespace Hazync
namespace Guest

open ByteStrings

variable {H : Type}

/-- `KIND_CHUNK` -/
def KIND_CHUNK : UInt32 := 0xC4A10004

/-- An entry of the payload. `owned` are the four vectors `idx`, `ch`, `cb`, `mtp`. -/
structure ChunkTx where
  rawTx : Blob
  prevouts : Blob
  owned : List InputRef

/-- The payload of a chunk: what its flags are made of, and its entries. -/
structure ChunkPayload where
  height : UInt32
  blockHash : Bytes32
  txs : List ChunkTx

/-- `ChunkOut`, the journal of a chunk. -/
structure ChunkOut (H : Type) where
  kind : UInt32
  allValid : Bool
  binds : List H
  /-- For each entry, the local index of its first owned input, the wtxid and the witness flag. -/
  txWtxids : List (UInt32 × Bytes32 × UInt32)
  leavesOut : List H
  seqsOut : List UInt32
  versOut : List Int32

/-- The flags of the chunk, from the height and the block hash that it was given. -/
def ChunkPayload.flags (p : ChunkPayload) : UInt32 := blockScriptFlags p.height p.blockHash

/-- The journal of no entries. -/
def ChunkOut.start : ChunkOut H where
  kind := KIND_CHUNK
  allValid := true
  binds := []
  txWtxids := []
  leavesOut := []
  seqsOut := []
  versOut := []

section Prove

variable (hs : Hashing H) (core : Core)

/-- One round of the loop of `chunk_prove`. -/
def chunkTx (flags : UInt32) (out : ChunkOut H) (e : ChunkTx) : Option (ChunkOut H) := do
  let (structural, results) ← verifyInputsBatch hs core e.rawTx.1 e.prevouts.1 flags e.owned
  let txb := txBind hs e.rawTx.1 e.prevouts.1 flags
  let (ver, seqs) ← txSeqsBatch core e.rawTx.1 e.owned
  let (wt, hw) ← txWtxidInfo core e.rawTx.1
  if out.binds.length + e.owned.length ≤ vecCapacity32 then
    some
      { kind := out.kind
        allValid := out.allValid && structural = 1 && results.all fun (r, _) => r = 1
        binds := out.binds ++ e.owned.map (inputBindFrom hs txb)
        txWtxids := out.txWtxids ++ [(UInt32.ofNat out.binds.length, wt, hw)]
        leavesOut := out.leavesOut ++ results.map Prod.snd
        seqsOut := out.seqsOut ++ seqs
        versOut := out.versOut ++ e.owned.map fun _ => ver }
  else none

/-- `chunk_prove`: the entries one after the other. -/
def chunkProve (p : ChunkPayload) : Option (ChunkOut H) :=
  p.txs.foldlM (chunkTx hs core p.flags) ChunkOut.start

end Prove

/-! ## The concatenation -/

/-- `all_binds`, `chunks_ok` and the four vectors beside them. -/
structure ChunkTotals (H : Type) where
  binds : List H
  chunksOk : Bool
  wtxids : List (UInt32 × Bytes32 × UInt32)
  leaves : List H
  seqs : List UInt32
  vers : List Int32

/-- The totals of no chunks. -/
def ChunkTotals.start : ChunkTotals H where
  binds := []
  chunksOk := true
  wtxids := []
  leaves := []
  seqs := []
  vers := []

/-- One chunk's journal is added: its local indices move up by the inputs there already are. -/
def addChunk (t : ChunkTotals H) (out : ChunkOut H) : Option (ChunkTotals H) :=
  if out.kind = KIND_CHUNK ∧ t.binds.length + out.binds.length ≤ vecCapacity32 then
    some
      { binds := t.binds ++ out.binds
        chunksOk := t.chunksOk && out.allValid
        wtxids := t.wtxids ++ out.txWtxids.map fun (first, wt, hw) =>
          (UInt32.ofNat t.binds.length + first, wt, hw)
        leaves := t.leaves ++ out.leavesOut
        seqs := t.seqs ++ out.seqsOut
        vers := t.vers ++ out.versOut }
  else none

/-- The journals of all chunks, in their order. -/
def addChunks (outs : List (ChunkOut H)) : Option (ChunkTotals H) :=
  outs.foldlM addChunk ChunkTotals.start

/-- The arguments of `validate_block_wtx`. -/
def ChunkTotals.chunks (t : ChunkTotals H) : Chunks H where
  binds := some (t.binds, t.chunksOk)
  wtxids := t.wtxids
  leaves := t.leaves
  seqs := t.seqs
  vers := t.vers

end Guest
end Hazync
