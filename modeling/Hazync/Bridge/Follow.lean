import Hazync.Bridge.RewindRuns
import Hazync.Guest.HeaderChain

/-!
# Following the node (`cmd_bridge`, `prover/host/src/main.rs`)

The loop goes in passes. A pass asks for the height of the node's tip, and for the hash that the
node has where the bridge stands; where that is another one than the bridge's own it looks down its
records for a block that both have, and rewinds to it. Then it fetches what is missing by height,
block by block. Each of these is a call, and the node may be on another chain at each (`Call`). What
is between two calls is one step; a call that the node refuses, and every panic, ends the process.

Checkpoints and bundles are left out: nothing in the loop reads them.

## Phases

The source is one loop with a call here and there. Cut at the calls it has four places at which it
waits: for the height of the tip, for the hash at its own height, for the hash at the height that
the search has come to, and for the next block. They are the constructors of `Phase`, with the
variables of the loop that are alive there. `Follower.step` runs from one to the next, so between
two steps the node may do anything.

The search down the records and the fetches up the chain belong to one pass, in which the tip was
asked for once; a block may have gone from the node's chain in between. The block at a height is
asked for by its hash, which is asked for first, so that the pair is of one chain (`Call`).
-/

namespace Hazync
namespace Bridge

open ByteStrings
open Guest (Core GENESIS_HASH)

variable {H : Type}

/-! ## What the node answers -/

/-- The 80 bytes of the header. -/
def Block.header (block : Block) : Bytes :=
  le32 block.version.toUInt32 ++ block.prevBlockhash.toList ++ block.merkleRoot.toList ++
    le32 block.time ++ le32 block.bits ++ le32 block.nonce

def Block.hash (hs : Hashing H) (block : Block) : Bytes32 := Guest.headerHash hs block.header

/-- A hash as `getblockhash` prints it. -/
def displayHash (h : Bytes32) : String := hex h.toList.reverse

/-- `getblockhash`, on the active chain from height 1 on. `none` is an error of the node. -/
def hashAt (hs : Hashing H) (chain : List Block) : ℕ → Option Bytes32
  | 0 => some GENESIS_HASH
  | h + 1 => chain[h]?.map (Block.hash hs)

/-- Each block names the one below it, down to genesis. -/
def Linked (hs : Hashing H) (chain : List Block) : Prop :=
  ∀ h block, chain[h]? = some block → hashAt hs chain h = some block.prevBlockhash

/-- What the bridge finds outside at a call: the node's active chain, and, for what it writes before
    its next call, the file system. A block is fetched by its hash, which the node still knows if it
    leaves the active chain in between. -/
structure Call where
  chain : List Block
  outcome : Outcome
  stuck : ℕ → Bool

/-! ## The loop -/

/-- `HAZYNC_BRIDGE_FINALITY`, `HAZYNC_BRIDGE_UNDO_KEEP` and `HAZYNC_BRIDGE_TO` -/
structure Settings where
  finality : UInt32
  undoKeep : UInt32
  cap : Option UInt32

/-- Which call is next. -/
inductive Phase
  /-- `getblockcount`, at the top of a pass -/
  | top
  /-- `getblockhash` of `done`, against `head` -/
  | compare (tip : UInt32)
  /-- `getblockhash` of `h`, in `bridge_fork_point` -/
  | search (tip : UInt32) (floor h : ℕ)
  /-- `getblockhash` and `getblock` of `done + 1` -/
  | fetch (target : UInt32)

structure Follower (H : Type) where
  process : Process H
  head : Option String
  halted : Bool
  phase : Phase

namespace Follower

/-- The height that the accumulator has got to. -/
def done (f : Follower H) : UInt32 := f.process.now.done

/-- The blocks that it has absorbed. -/
def applied (f : Follower H) : List Block := f.process.trail.map Prod.snd

/-- The rest of a pass, once the chain has been compared: `target` is the last height to fetch. -/
def plan (cfg : Settings) (f : Follower H) (tip : UInt32) : Follower H :=
  let target := if tip ≤ cfg.finality then 0 else tip - cfg.finality
  let target := cfg.cap.elim target (min target)
  { f with phase := if f.halted ∨ target ≤ f.done then .top else .fetch target }

def halt (f : Follower H) : Follower H := { f with halted := true }

end Follower

/-- `a.eq_ignore_ascii_case(b)` -/
def eqIgnoreAsciiCase (a b : String) : Bool := a.toList.map Char.toLower = b.toList.map Char.toLower

/-- `bridge_reorg_seen` -/
def reorgSeen (expect : Option String) (nodeHashAtDone : String) : Option Bool := do
  let e ← expect
  if e.length ≠ 64 ∨ nodeHashAtDone.length ≠ 64 then none
  else some (¬ eqIgnoreAsciiCase e nodeHashAtDone)

variable [DecidableEq H] (hs : Hashing H) (core : Core) (cfg : Settings)

/-- Where there is no checkpoint. -/
def Follower.start : Follower H := ⟨.start hs, none, false, .top⟩

/-- The arm of the loop in which the chains agree at `h`. A rewind that is done leaves a checkpoint
    and the hash of the block it went back to; one that reports an error leaves the bridge
    halted. -/
def Follower.rewound (f : Follower H) (tip : UInt32) (h : ℕ) (call : Call) :
    Option (Follower H) := do
  let common := UInt32.ofNat h
  let (r, now, dir) ← rewindTo hs f.process.dir common f.process.now call.stuck
  match r with
  | .ok _ =>
    let head := ((dir.get? now.done.toNat).map (·.blockHash)).or
      ((hashAt hs call.chain now.done.toNat).map displayHash)
    let process : Process H := ⟨now, dir, some now, f.process.trail.take common.toNat⟩
    some ({ f with process := process, head := head }.plan cfg tip)
  | .error _ => some (f.halt.plan cfg tip)

/-- A call, and what the bridge does until its next one. `none` is an error of the node or a
    panic. -/
def Follower.step (f : Follower H) (call : Call) : Option (Follower H) :=
  match f.phase with
  | .top =>
    if call.chain.length < 2 ^ 32 then
      let tip := UInt32.ofNat call.chain.length
      if f.head.isSome ∧ 0 < f.done ∧ f.done ≤ tip then some { f with phase := .compare tip }
      else some (f.plan cfg tip)
    else none
  | .compare tip => do
    let hash ← hashAt hs call.chain f.done.toNat
    if reorgSeen f.head (displayHash hash) = some true then
      let floor := max ((undoFloor f.process.dir).getD f.done.toNat) 1
      if floor ≤ f.done.toNat then some { f with phase := .search tip floor f.done.toNat }
      else some (f.halt.plan cfg tip)
    else some (f.plan cfg tip)
  | .search tip floor h =>
    match f.process.dir.get? h with
    | none => some (f.halt.plan cfg tip)
    | some u => do
      let hash ← hashAt hs call.chain h
      if u.blockHash = displayHash hash then f.rewound hs cfg tip h call
      else if floor < h then some { f with phase := .search tip floor (h - 1) }
      else some (f.halt.plan cfg tip)
  | .fetch target => do
    let block ← call.chain[f.done.toNat]?
    let hash := displayHash (block.hash hs)
    let process ← f.process.step hs core cfg.undoKeep (.advance hash block call.outcome)
    some
      { f with
        process := process
        head := some hash
        phase := if process.now.done < target then .fetch target else .top }

end Bridge
end Hazync
