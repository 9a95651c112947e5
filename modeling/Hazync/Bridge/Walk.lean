import Hazync.Bridge.SmtAdvance
import Hazync.Bridge.Tracks
import Hazync.Guest.Genesis

/-!
# The bridge's walk of the chain (`cmd_bridge`, `prover/host/src/main.rs`)

The bridge holds the forest, the map, the tree of coinbases and the times, and takes one block
after another from the node. What it saves at a checkpoint it starts again from, and the forest is
then built from the leaves alone. A panic ends the walk, so the states here are those of a bridge
that got through every block up to its height.

`Resident` is what is in memory, `BridgeState` what is in the file, and `resume` the way back, which
builds the forest from its leaves and the tree from its entries. A walk may be interrupted by a
restart at any height (`Walked.resume`), and the invariant does not notice: the forest from the
leaves is the one that was saved.

Rewinds are not in this walk. They are events of the process of `Hazync.Bridge.Undo`, whose results
go back to this one by what is held.
-/

namespace Hazync
namespace Bridge

open ByteStrings
open Accumulator (Forest)
open Guest (Core Transaction GENESIS_TIME pushTime)

variable {H : Type}

/-- `median_u32` -/
def medianU32 (v : List UInt32) : Option UInt32 := (v.insertionSort (· ≤ ·))[v.length / 2]?

/-- `push_mtp` -/
def pushMtp (win blockMtp : List UInt32) (time : UInt32) : Option (List UInt32 × List UInt32) := do
  let mtp ← medianU32 win
  some (pushTime win time, blockMtp ++ [mtp])

/-- What the bridge holds while it walks. -/
structure Resident (H : Type) where
  forest : Forest H
  utxo : Utxo
  win : List UInt32
  blockMtp : List UInt32
  done : UInt32
  smt : Smt H

/-- `BridgeState` -/
structure BridgeState (H : Type) where
  height : UInt32
  leaves : List H
  utxo : Utxo
  win : List UInt32
  blockMtp : List UInt32
  smt : List (Bytes32 × UInt32)

/-- `bridge_save_state`, which writes what it is given. -/
def Resident.save (s : Resident H) : BridgeState H where
  height := s.done
  leaves := s.forest.leaves
  utxo := s.utxo
  win := s.win
  blockMtp := s.blockMtp
  smt := s.smt.leaves.entries

/-- `cb_spends`: the txids of the coinbases whose coins the block spends. -/
def Block.coinbaseSpends (utxo : Utxo) (block : Block) : List Bytes32 :=
  (block.spent.filter fun op => (utxo.get? op).any (·.isCoinbase)).map (·.txid)

variable [DecidableEq H] (hs : Hashing H)

/-- Where there is no checkpoint. -/
def Resident.genesis : Resident H where
  forest := .new
  utxo := .empty
  win := [GENESIS_TIME]
  blockMtp := [GENESIS_TIME]
  done := 0
  smt := .new hs

/-- Where there is one. -/
def BridgeState.resume (st : BridgeState H) : Resident H where
  forest := .fromLeaves hs.parent st.leaves
  utxo := st.utxo
  win := st.win
  blockMtp := st.blockMtp
  done := st.height
  smt := .fromEntries hs st.smt

/-- One round of `for h in (done + 1)..=target`, where `target` is a `u32`; `none` is a panic. -/
def Resident.advance (core : Core) (s : Resident H) (block : Block) : Option (Resident H) :=
  if s.done = 0xffffffff then none
  else do
    let h := s.done + 1
    let (win, blockMtp) ← pushMtp s.win s.blockMtp block.time
    let w ← buildBlockCarried hs core s.utxo blockMtp h block s.forest.beginJournal
    let coinbase ← block.txdata.head?
    let nout := (coinbase.vout.filter fun o => outSpendable o.scriptPubKey).length
    let (_, _, smt) ← smtAdvance hs s.smt (core.getHash coinbase) (UInt32.ofNat nout)
      (block.coinbaseSpends s.utxo) (h = 91842 ∨ h = 91880)
    some
      { forest := w.forest.takeJournal
        utxo := (updateUtxo core s.utxo block h).1
        win := win
        blockMtp := blockMtp
        done := h
        smt := smt }

/-- The states of a walk from genesis, each with the blocks it has been through. -/
inductive Walked (core : Core) : List Block → Resident H → Prop
  | genesis : Walked core [] (.genesis hs)
  | block {blocks : List Block} {s s' : Resident H} {block : Block} (h : Walked core blocks s)
      (hadvance : s.advance hs core block = some s') : Walked core (blocks ++ [block]) s'
  | resume {blocks : List Block} {s : Resident H} (h : Walked core blocks s) :
      Walked core blocks (s.save.resume hs)

/-! ## The coins of a chain -/

section

variable {core : Core} {blocks : List Block} {coins coins' : Utxo} {height : UInt32} {block : Block}

/-- A coin after a block is one from before or an output of it. -/
theorem ConnectBlock.get?_cases (h : ConnectBlock core coins height block coins') {k : Outpoint}
    {u : Unspent} (hget : coins'.get? k = some u) :
    (k, u) ∈ block.outputs core height ∨ coins.get? k = some u := by
  obtain ⟨heffect, hall⟩ := h.spec
  rw [hall] at hget
  obtain ⟨-, hget⟩ := Option.ite_none_left_eq_some.mp hget
  by_cases hmem : k ∈ (block.outputs core height).map Prod.fst
  · obtain ⟨⟨l, w⟩, he, rfl⟩ := List.mem_map.mp hmem
    rw [SortedMap.get?_insertAll_of_mem heffect.keys he] at hget
    obtain rfl := Option.some.inj hget
    exact .inl he
  · rw [SortedMap.get?_insertAll_of_notMem hmem] at hget
    exact .inr hget

/-- A coin that consensus knows has a script that can be spent, and a height of the chain. -/
structure Unspent.OfChain (u : Unspent) (n : ℕ) : Prop where
  height : u.height.toNat ≤ n
  spk : u.spk.length ≤ 10000

theorem length_of_outSpendable {spk : Bytes} (h : outSpendable spk = true) :
    spk.length ≤ 10000 := by
  unfold outSpendable at h
  simp only [not_or, decide_eq_true_eq, not_lt] at h
  exact h.2

theorem spk_of_mem_outputs {e : Outpoint × Unspent} (he : e ∈ block.outputs core height) :
    e.2.spk.length ≤ 10000 := by
  unfold Block.outputs at he
  obtain ⟨p, -, he⟩ := List.mem_flatMap.mp he
  obtain ⟨v, o, -, hspendable, -, hu⟩ := mem_spendableOutputs.mp he
  rw [hu]
  exact length_of_outSpendable hspendable

/-- The coins of a chain are of its heights, and their scripts are spendable, so they are not
    long. -/
theorem ValidChain.ofChain (h : ValidChain core blocks coins) (hlen : blocks.length < 2 ^ 32)
    {k : Outpoint} {u : Unspent} (hget : coins.get? k = some u) : u.OfChain blocks.length := by
  induction h with
  | genesis =>
    rw [SortedMap.get?_empty] at hget
    cases hget
  | @connect blocks coins coins' block hchain hblock ih =>
    rw [List.length_append, List.length_singleton] at hlen ⊢
    rcases hblock.get?_cases hget with hmem | hold
    · refine ⟨?_, spk_of_mem_outputs hmem⟩
      rw [height_of_mem_outputs hmem, UInt32.toNat_ofNat']
      exact Nat.mod_le _ _
    · obtain ⟨hheight, hspk⟩ := ih (by omega) hold
      exact ⟨by omega, hspk⟩

/-- The unspent coins of the chain never are more than the positions of the index. -/
def CoinsFit (core : Core) (blocks : List Block) : Prop :=
  ∀ pre coins, pre <+: blocks → ValidChain core pre coins → coins.entries.length ≤ 2 ^ 32

end

/-! ## The walk -/

section

variable {hs} {core : Core} {blocks : List Block} {coins : Utxo} {s s' : Resident H}

/-- What holds wherever the bridge has got to: the map is that of the chain, and the forest has the
    leaves of the map. -/
structure WalkInv (hs : Hashing H) (blocks : List Block) (coins : Utxo) (s : Resident H) : Prop where
  done : s.done.toNat = blocks.length
  /-- The map has the unspent coins of the chain. -/
  utxo : s.utxo = coins
  /-- A median for each block and for genesis. -/
  blockMtp : s.blockMtp.length = blocks.length + 1
  tracks : Tracks hs s.blockMtp s.forest s.utxo

/-- A time that is pushed is none of the coins there are. -/
theorem Tracks.push {F : Forest H} {blockMtp : List UInt32} {utxo : Utxo}
    (h : Tracks hs blockMtp F utxo) (mtp : UInt32)
    (hheight : ∀ k u, utxo.get? k = some u → u.height.toNat < blockMtp.length) :
    Tracks hs (blockMtp ++ [mtp]) F utxo := by
  refine ⟨h.cache, h.index, ?_⟩
  have hsame : utxo.entries.map (leafOf hs (blockMtp ++ [mtp])) =
      utxo.entries.map (leafOf hs blockMtp) := by
    refine List.map_congr_left ?_
    intro e he
    unfold leafOf
    rw [List.getD_append _ _ _ _ (hheight e.1 e.2 (SortedMap.mem_entries.mp he))]
  rw [hsame]
  exact h.leaves

theorem Tracks.fromLeaves {F : Forest H} {blockMtp : List UInt32} {utxo : Utxo}
    (h : Tracks hs blockMtp F utxo) (hroom : F.leaves.length ≤ 2 ^ 32) :
    Tracks hs blockMtp (Forest.fromLeaves hs.parent F.leaves) utxo :=
  ⟨.fromLeaves F.leaves, .fromLeaves hroom, h.leaves⟩

theorem advance_eq_some {block : Block} (h : s.advance hs core block = some s') :
    s.done ≠ 0xffffffff ∧ ∃ mtp w, s'.blockMtp = s.blockMtp ++ [mtp] ∧
      buildBlockCarried hs core s.utxo s'.blockMtp s'.done block s.forest.beginJournal = some w ∧
      s'.forest = w.forest.takeJournal ∧ s'.utxo = (updateUtxo core s.utxo block s'.done).1 ∧
      s'.done = s.done + 1 := by
  unfold Resident.advance at h
  rw [Option.ite_none_left_eq_some] at h
  obtain ⟨hdone, h⟩ := h
  simp only [Option.bind_eq_bind, Option.bind_eq_some_iff, Option.some.injEq] at h
  obtain ⟨⟨win, blockMtp⟩, hpush, w, hw, coinbase, -, ⟨wit, prior, smt⟩, -, rfl⟩ := h
  obtain ⟨mtp, -, heq⟩ := Option.bind_eq_some_iff.mp hpush
  obtain ⟨rfl, rfl⟩ := Prod.mk.inj (Option.some.inj heq)
  exact ⟨hdone, mtp, w, rfl, hw, rfl, rfl, rfl⟩

/-- What the round of a block starts from: the height is the next one, the list of medians has the
    entry for it, and the forest tracks the map, with the recording on. -/
theorem WalkInv.start {block : Block} (h : WalkInv hs blocks coins s)
    (hchain : ValidChain core blocks coins) (hadvance : s.advance hs core block = some s') :
    s'.done = UInt32.ofNat (blocks.length + 1) ∧ s'.done.toNat = blocks.length + 1 ∧
      s'.blockMtp.length = blocks.length + 1 + 1 ∧
      Tracks hs s'.blockMtp s.forest.beginJournal coins := by
  obtain ⟨hdone, mtp, w, hmtp, -, -, -, hnext⟩ := advance_eq_some hadvance
  have hlt : blocks.length + 1 < 2 ^ 32 := by
    have hbound := s.done.toNat_lt
    have hne : s.done.toNat ≠ 2 ^ 32 - 1 := fun heq => hdone (UInt32.toNat_inj.mp heq)
    have hlen := h.done
    omega
  have hheight : s'.done = UInt32.ofNat (blocks.length + 1) := by
    apply UInt32.toNat_inj.mp
    rw [hnext, UInt32.toNat_add, h.done, UInt32.toNat_ofNat']
    rfl
  have hlength : s'.blockMtp.length = blocks.length + 1 + 1 := by
    rw [hmtp, List.length_append, List.length_singleton, h.blockMtp]
  refine ⟨hheight, ?_, hlength, ?_⟩
  · rw [hheight, UInt32.toNat_ofNat', Nat.mod_eq_of_lt hlt]
  · obtain rfl := h.utxo
    have hold : ∀ k u, s.utxo.get? k = some u → u.height.toNat < s.blockMtp.length := by
      intro k u hget
      have hcoin := (hchain.ofChain (by omega) hget).height
      rw [h.blockMtp]
      omega
    have hpush := h.tracks.push mtp hold
    rw [hmtp]
    exact ⟨⟨rfl, hpush.cache.cache⟩, hpush.index, hpush.leaves⟩

/-- A round keeps the map that of the chain and the forest that of the map. -/
theorem WalkInv.advance {coins' : Utxo} {block : Block} (h : WalkInv hs blocks coins s)
    (hleaf : hs.LeafInjective) (hchain : ValidChain core blocks coins)
    (hroom : coins.entries.length ≤ 2 ^ 32)
    (hblock : ConnectBlock core coins (UInt32.ofNat (blocks.length + 1)) block coins')
    (hadvance : s.advance hs core block = some s') : WalkInv hs (blocks ++ [block]) coins' s' := by
  obtain ⟨hheight, hnat, hlength, hstart⟩ := h.start hchain hadvance
  obtain ⟨-, mtp, w, -, hbuild, hforest, hutxo, -⟩ := advance_eq_some hadvance
  obtain rfl := h.utxo
  rw [← hheight] at hblock
  have hend : Tracks hs s'.blockMtp w.forest coins' := by
    refine hstart.buildBlockCarried hleaf ?_ hblock ?_ hbuild
    · rw [hstart.length]
      exact hroom
    · omega
  have hcoins : s'.utxo = coins' := hutxo.trans hblock.updateUtxo_eq
  refine ⟨?_, hcoins, ?_, ?_⟩
  · rw [hnat, List.length_append, List.length_singleton]
  · rw [hlength, List.length_append, List.length_singleton]
  · rw [hforest, hcoins]
    exact ⟨⟨rfl, hend.cache.cache⟩, hend.index, hend.leaves⟩

/-- **The bridge's coins are those of the chain**, in the map and in the forest. By induction along
    the walk, restarts included. -/
theorem Walked.inv (h : Walked hs core blocks s) (hleaf : hs.LeafInjective)
    (hchain : ValidChain core blocks coins) (hfit : CoinsFit core blocks) :
    WalkInv hs blocks coins s := by
  induction h generalizing coins with
  | genesis =>
    obtain rfl := ValidChain.genesis.unique hchain
    exact ⟨rfl, rfl, rfl, .new⟩
  | @block blocks s s' block hwalk hadvance ih =>
    obtain ⟨before, hbefore, hblock⟩ := hchain.last
    have hpre : CoinsFit core blocks := fun pre coins hle =>
      hfit pre coins (hle.trans (List.prefix_append _ _))
    have hroom := hfit blocks before (List.prefix_append _ _) hbefore
    exact (ih hbefore hpre).advance hleaf hbefore hroom hblock hadvance
  | @resume blocks s hwalk ih =>
    have hinv := ih hchain hfit
    refine ⟨hinv.done, hinv.utxo, hinv.blockMtp, hinv.tracks.fromLeaves ?_⟩
    rw [hinv.tracks.length, hinv.utxo]
    exact hfit blocks coins (List.prefix_refl _) hchain

end

end Bridge
end Hazync
