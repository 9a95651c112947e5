import Hazync.Bridge.OwnDump
import Hazync.Bridge.SnapshotBound
import Hazync.Bridge.TipBinds

/-!
# The bridge's own snapshot

What is written for a state whose map and leaves describe the same coins lists these, in the order
of the leaves. The times of the checkpoint are those that the check works out from the headers of
the chain (`Walked.times`). So a proof of the state's end takes it, unless it has no coins at all.

## Times, twice

The bridge computes each median as it goes along, from a window that it shifts; the check computes
it later from eleven headers that it asks for. `KnowsTimes` says what the bridge's lists are in
terms of the headers of its chain, and `Answers` that the node's headers are those. Then the two
medians are of the same list (`mtpAt_eq`), also below height eleven, where both take what there is.

The rest is the order: the bridge writes leaf by leaf and looks each coin up by its leaf, which
finds it because leaves are different.
-/

namespace Hazync
namespace Bridge

open ByteStrings
open Accumulator (Forest)
open Guest (Coin Core GENESIS_TIME ImageId KIND_RANGE RangeState Zkvm lastEleven
  pushTime_lastEleven)
open Host (Anchored journal?)
open VerifierFfi (Receipts)

variable {H : Type} [DecidableEq H] {hs : Hashing H} {core : Core} {blocks : List Block}
  {coins : Utxo} {s s' : Resident H} {block : Block} {headerTime : ℕ → Option UInt32}

/-! ## Times -/

/-- The times of the chain's headers, from genesis on. -/
def chainTimes (blocks : List Block) : List UInt32 := GENESIS_TIME :: blocks.map (·.time)

theorem length_chainTimes (blocks : List Block) :
    (chainTimes blocks).length = blocks.length + 1 := by
  unfold chainTimes
  rw [List.length_cons, List.length_map]

theorem chainTimes_concat (blocks : List Block) (block : Block) :
    chainTimes (blocks ++ [block]) = chainTimes blocks ++ [block.time] := by
  unfold chainTimes
  rw [List.map_append, List.map_singleton, List.cons_append]

theorem advance_pushMtp (h : s.advance hs core block = some s') :
    pushMtp s.win s.blockMtp block.time = some (s'.win, s'.blockMtp) := by
  unfold Resident.advance at h
  rw [Option.ite_none_left_eq_some] at h
  obtain ⟨-, h⟩ := h
  simp only [Option.bind_eq_bind, Option.bind_eq_some_iff, Option.some.injEq] at h
  obtain ⟨⟨win, blockMtp⟩, hpush, w, hw, coinbase, -, ⟨wit, prior, smt⟩, -, rfl⟩ := h
  exact hpush

/-- What the bridge knows of the times: the last eleven, and the median before each block. -/
structure KnowsTimes (blocks : List Block) (win blockMtp : List UInt32) : Prop where
  win : win = lastEleven (chainTimes blocks)
  /-- One median more than there are blocks: the one before genesis comes first. -/
  length : blockMtp.length = blocks.length + 1
  /-- Of the eleven times below the block, or of so many as there are. -/
  median : ∀ n, 1 ≤ n → n ≤ blocks.length →
    blockMtp[n]? = medianU32 (lastEleven ((chainTimes blocks).take n))

/-- A block's time goes into the window, and the median before it onto the list. -/
theorem KnowsTimes.push {win blockMtp win' blockMtp' : List UInt32}
    (h : KnowsTimes blocks win blockMtp)
    (hpush : pushMtp win blockMtp block.time = some (win', blockMtp')) :
    KnowsTimes (blocks ++ [block]) win' blockMtp' := by
  obtain ⟨mtp, hmtp, heq⟩ := Option.bind_eq_some_iff.mp hpush
  obtain ⟨rfl, rfl⟩ := Prod.mk.inj (Option.some.inj heq)
  refine ⟨?_, ?_, ?_⟩
  · rw [h.win, pushTime_lastEleven, chainTimes_concat]
  · rw [List.length_append, List.length_append, h.length]
    rfl
  · intro n hone hle
    rw [List.length_append, List.length_singleton] at hle
    rw [chainTimes_concat, List.take_append_of_le_length (by rw [length_chainTimes]; exact hle)]
    rcases Nat.le_succ_iff.mp hle with hold | hlast
    · rw [List.getElem?_append_left (by rw [h.length]; omega)]
      exact h.median n hone hold
    · have hmtps : n = blockMtp.length := hlast.trans h.length.symm
      have htimes : n = (chainTimes blocks).length := hlast.trans (length_chainTimes blocks).symm
      rw [htimes, List.take_length, ← htimes, hmtps, List.getElem?_concat_length, ← h.win, hmtp]

theorem Walked.times (h : Walked hs core blocks s) : KnowsTimes blocks s.win s.blockMtp := by
  induction h with
  | genesis => exact ⟨rfl, rfl, fun n hone hle => absurd (hone.trans hle) (by decide)⟩
  | block hwalk hadvance ih => exact ih.push (advance_pushMtp hadvance)
  | resume hwalk ih => exact ih

/-- The node's headers are those of the chain. -/
def Answers (headerTime : ℕ → Option UInt32) (blocks : List Block) : Prop :=
  ∀ i ≤ blocks.length, headerTime i = (chainTimes blocks)[i]?

/-- The check's median is that of the last eleven times below. -/
theorem mtpAt_eq (h : Answers headerTime blocks) {height : UInt32}
    (hle : height.toNat ≤ blocks.length) :
    mtpAt headerTime height = medianU32 (lastEleven ((chainTimes blocks).take height.toNat)) := by
  generalize hlo : height.toNat - 11 = lo
  generalize hwindow : lastEleven ((chainTimes blocks).take height.toNat) = window
  have htake : ((chainTimes blocks).take height.toNat).length = height.toNat := by
    rw [List.length_take, length_chainTimes]
    omega
  have hlength : window.length = height.toNat - lo := by
    rw [← hwindow, lastEleven, List.length_drop, htake, hlo]
  have hget : ∀ k < window.length, headerTime (lo + k) = window[k]? := by
    intro k hk
    rw [h (lo + k) (by omega), ← hwindow, lastEleven, htake, hlo, List.getElem?_drop,
      List.getElem?_take_of_lt (by omega)]
  have hread : (List.range' lo (height.toNat - lo)).mapM headerTime = some window := by
    rw [← hlength, List.range'_eq_map_range, List.mapM_map]
    exact Forest.mapM_range hget
  unfold mtpAt
  rw [hlo]
  change ((List.range' lo (height.toNat - lo)).mapM headerTime).bind medianU32 = _
  rw [hread]
  rfl

/-! ## Writing -/

/-- The entry of the map that a record is of. -/
def SnapCoin.entry (c : SnapCoin) : Outpoint × Unspent :=
  (⟨c.txid, c.vout⟩, ⟨c.value.toInt64, c.spk, c.height, c.coinbase ≠ 0⟩)

/-- What is written for the entries are records of them. -/
theorem exists_snapRecords {es : List (Outpoint × Unspent)}
    (hspk : ∀ e ∈ es, e.2.spk.length < 2 ^ 32) : ∃ cs : List SnapCoin,
    cs.map SnapCoin.entry = es ∧ cs.flatMap SnapCoin.bytes = (es.map snapRecord).flatten := by
  induction es with
  | nil => exact ⟨[], rfl, rfl⟩
  | cons e es ih =>
    obtain ⟨cs, hentries, hbytes⟩ := ih fun e' he' => hspk e' (List.mem_cons_of_mem _ he')
    obtain ⟨⟨txid, vout⟩, ⟨value, spk, height, isCoinbase⟩⟩ := e
    refine ⟨⟨txid, vout, value.toUInt64, spk, height, if isCoinbase then 1 else 0,
      hspk _ List.mem_cons_self⟩ :: cs, ?_, ?_⟩
    · rw [List.map_cons, hentries]
      unfold SnapCoin.entry
      cases isCoinbase <;> simp
    · rw [List.flatMap_cons, hbytes]
      rfl

omit [DecidableEq H] in
/-- The records of entries whose times the node has: the coins that are read have the leaves that
    the entries have. -/
theorem timed_of_entries {cs : List SnapCoin} {blockMtp : List UInt32}
    (htimes : ∀ e ∈ cs.map SnapCoin.entry,
      mtpAt headerTime e.2.height = some (blockMtp.getD e.2.height.toNat 0)) :
    ∃ coins, cs.mapM (SnapCoin.timed headerTime) = some coins ∧
      coins.map (Coin.leaf hs) = (cs.map SnapCoin.entry).map (leafOf hs blockMtp) := by
  induction cs with
  | nil => exact ⟨[], rfl, rfl⟩
  | cons c cs ih =>
    rw [List.map_cons, List.forall_mem_cons] at htimes
    obtain ⟨coins, hcoins, hleaves⟩ := ih htimes.2
    refine ⟨c.coin (blockMtp.getD c.height.toNat 0) :: coins, ?_, ?_⟩
    · have hone : c.timed headerTime = some (c.coin (blockMtp.getD c.height.toNat 0)) := by
        have hmtp : mtpAt headerTime c.height = some (blockMtp.getD c.height.toNat 0) := htimes.1
        unfold SnapCoin.timed
        rw [hmtp]
        rfl
      rw [List.mapM_cons, hone, hcoins]
      rfl
    · rw [List.map_cons, List.map_cons, List.map_cons, hleaves]
      rfl

theorem entriesByLeaf_eq (hleaf : hs.LeafInjective) {st : BridgeState H}
    (htimes : ∀ e ∈ st.utxo.entries, e.2.height.toNat < st.blockMtp.length) :
    ∃ byLeaf, entriesByLeaf hs st = some byLeaf ∧
      ∀ e ∈ st.utxo.entries, byLeaf (leafOf hs st.blockMtp e) = some e := by
  unfold entriesByLeaf
  generalize st.utxo.entries = es at htimes ⊢
  induction es using List.reverseRecOn with
  | nil => exact ⟨_, rfl, fun e he => absurd he List.not_mem_nil⟩
  | append_singleton es last ih =>
    rw [List.forall_mem_append, List.forall_mem_singleton] at htimes
    obtain ⟨byLeaf, hbyLeaf, hall⟩ := ih htimes.1
    have hmtp : st.blockMtp[last.2.height.toNat]? =
        some (st.blockMtp.getD last.2.height.toNat 0) := by
      rw [List.getD_eq_getElem _ _ htimes.2, List.getElem?_eq_getElem htimes.2]
    refine ⟨Function.update byLeaf (leafOf hs st.blockMtp last) (some last), ?_, ?_⟩
    · rw [List.foldlM_append, hbyLeaf]
      simp only [Option.bind_eq_bind, Option.bind_some, List.foldlM_cons, List.foldlM_nil, hmtp]
      rfl
    · intro e he
      by_cases heq : e = last
      · rw [heq, Function.update_self]
      · rw [Function.update_of_ne fun h => heq (leafOf_injective hleaf st.blockMtp h)]
        rcases List.mem_append.mp he with hold | hnew
        · exact hall e hold
        · exact absurd (List.mem_singleton.mp hnew) heq

/-- What is written for a state whose map and leaves describe the same coins: a record for each coin
    of the map, in the order of the leaves. -/
theorem snapshotEmit_eq (hleaf : hs.LeafInjective) {st : BridgeState H} (h : st.OneToOne hs)
    (hspk : ∀ e ∈ st.utxo.entries, e.2.spk.length < 2 ^ 32) : ∃ cs : List SnapCoin,
    snapshotEmit hs st = some (snapshot st.height cs) ∧
      (cs.map SnapCoin.entry).Perm st.utxo.entries ∧
      (cs.map SnapCoin.entry).map (leafOf hs st.blockMtp) = st.leaves := by
  have hinj : Function.Injective (leafOf hs st.blockMtp) := leafOf_injective hleaf st.blockMtp
  obtain ⟨es, hes⟩ : st.leaves ∈ Set.range (List.map (leafOf hs st.blockMtp)) := by
    rw [Set.range_list_map]
    intro leaf hmem
    obtain ⟨e, -, rfl⟩ := List.mem_map.mp (h.leaves.mem_iff.mp hmem)
    exact ⟨e, rfl⟩
  have hperm : es.Perm st.utxo.entries := by
    rw [← List.map_perm_map_iff hinj, hes]
    exact h.leaves
  obtain ⟨cs, rfl, hbytes⟩ := exists_snapRecords fun e he => hspk e (hperm.mem_iff.mp he)
  obtain ⟨byLeaf, hbyLeaf, hall⟩ := entriesByLeaf_eq hleaf h.times
  have hrecords : st.leaves.mapM (fun leaf => (byLeaf leaf).map snapRecord) =
      some ((cs.map SnapCoin.entry).map snapRecord) := by
    rw [← hes, List.mapM_map]
    refine Parallel.mapM_of_forall fun e he => ?_
    rw [Function.comp_apply, hall e (hperm.mem_iff.mp he), Option.map_some]
  refine ⟨cs, ?_, hperm, hes⟩
  have hlength : st.leaves.length = cs.length := by
    rw [← hes, List.length_map, List.length_map]
  unfold snapshotEmit snapshot
  rw [hbyLeaf, Option.bind_eq_bind, Option.bind_some, hrecords, Option.bind_eq_bind,
    Option.bind_some, hbytes, hlength]

/-! ## From the bridge to the check -/

omit [DecidableEq H] in
/-- No coin is of genesis. -/
theorem ValidChain.one_le_height (h : ValidChain core blocks coins) (hlen : blocks.length < 2 ^ 32)
    {k : Outpoint} {u : Unspent} (hget : coins.get? k = some u) : 1 ≤ u.height.toNat := by
  induction h with
  | genesis =>
    rw [SortedMap.get?_empty] at hget
    cases hget
  | @connect blocks coins coins' block hchain hblock ih =>
    rw [List.length_append, List.length_singleton] at hlen
    rcases hblock.get?_cases hget with hmem | hold
    · rw [height_of_mem_outputs hmem, UInt32.toNat_ofNat', Nat.mod_eq_of_lt hlen]
      exact Nat.le_add_left 1 _
    · exact ih (by omega) hold

omit [DecidableEq H] in
/-- The check works out the times that the bridge has. -/
theorem KnowsTimes.mtpAt (h : KnowsTimes blocks s.win s.blockMtp)
    (hanswers : Answers headerTime blocks) {height : UInt32} (hone : 1 ≤ height.toNat)
    (hle : height.toNat ≤ blocks.length) :
    mtpAt headerTime height = some (s.blockMtp.getD height.toNat 0) := by
  have hlt : height.toNat < s.blockMtp.length := by rw [h.length]; omega
  rw [mtpAt_eq hanswers hle, ← h.median _ hone hle, List.getD_eq_getElem _ _ hlt,
    List.getElem?_eq_getElem hlt]

/-- The entry of the map that a coin is of. -/
def entryOfCoin (c : Coin) : Outpoint × Unspent :=
  (⟨c.txid, c.vout⟩, ⟨c.value, c.scriptPubKey, c.height, c.isCoinbase⟩)

omit [DecidableEq H] in
theorem entries_of_timed {cs : List SnapCoin} {cs' : List Coin}
    (h : cs.mapM (SnapCoin.timed headerTime) = some cs') :
    cs.map SnapCoin.entry = cs'.map entryOfCoin := by
  refine Parallel.map_eq_of_mapM h fun c coin hcoin => ?_
  obtain ⟨mtp, -, rfl⟩ := Option.map_eq_some_iff.mp hcoin
  rfl

/-- **The bridge's snapshot is bound to a proof of its tip**, and so is no file of other coins. The
    proof may be anybody's: the tip hash says which blocks it is of, unless something at hand
    collides. -/
theorem Replayed.snapshot_bound {zkvm : Zkvm H} {receipts : Receipts} {methodId : ImageId}
    {proof : Bytes} {st : RangeState H} {checked : List (Guest.Checked H)} {now : Standing H}
    (h : Replayed hs core blocks now) (hproved : ProvedFrom hs core zkvm methodId checked st)
    (hgenesis : st.isGenesisAnchored hs = .ok ()) (hsealed : Sealed hs core blocks)
    (hchain : ValidChain core blocks coins) (hfit : CoinsFit core blocks)
    (hleaf : hs.LeafInjective) (hnode : hs.NodeInjective) (hscripts : KnowsSpendable core)
    (hapart : Apart hs core blocks checked)
    (htip : hashAt hs blocks blocks.length = some st.after.tipHash)
    (hjournal : journal? zkvm receipts methodId proof = some st)
    (hanswers : Answers headerTime blocks) (hsome : coins.entries ≠ []) :
    ∃ cs, snapshotEmit hs now.save = some (snapshot now.done cs) ∧
      (cs.map SnapCoin.entry).Perm coins.entries ∧
      snapshotVerify hs zkvm receipts methodId headerTime (snapshot now.done cs) proof =
        some true ∧
      ∀ bytes, snapshotVerify hs zkvm receipts methodId headerTime bytes proof = some true →
        ∃ cs', bytes = snapshot now.done cs' ∧ cs'.map SnapCoin.entry = cs.map SnapCoin.entry := by
  -- the proved state commits to the coins of the chain up to this height
  obtain ⟨-, hhi, hmeets⟩ :=
    h.tip_binds hproved hgenesis hsealed hchain hfit hleaf hnode hscripts hapart htip
  obtain ⟨hkind, hself⟩ := hproved.rangeProof.tags
  have hinv := h.walked.inv hleaf hchain hfit
  obtain ⟨cs, hemit, hperm, hleaves⟩ :=
    snapshotEmit_eq hleaf (hinv.oneToOne hleaf hchain) (hinv.spk hchain)
  have hutxo : now.utxo = coins := hinv.utxo
  have hentries : (cs.map SnapCoin.entry).Perm coins.entries := by
    rw [← hutxo]
    exact hperm
  have hlen : blocks.length < 2 ^ 32 := by
    rw [← hinv.done]
    exact now.done.toNat_lt
  -- the leaves take the times of the header file, which are those of the blocks
  obtain ⟨coins', hcoins, htimed⟩ : ∃ coins', cs.mapM (SnapCoin.timed headerTime) = some coins' ∧
      coins'.map (Coin.leaf hs) = (cs.map SnapCoin.entry).map (leafOf hs now.blockMtp) := by
    refine timed_of_entries fun e he => ?_
    have hget := SortedMap.mem_entries.mp (hentries.mem_iff.mp he)
    exact h.walked.times.mtpAt hanswers (hchain.one_le_height hlen hget)
      (hchain.ofChain hlen hget).height
  have hcommits : st.after.stump.Commits hs.parent (coins'.map (Coin.leaf hs)) := by
    rw [htimed]
    exact hleaves ▸ hmeets.commits
  have hne : cs ≠ [] := by
    rintro rfl
    exact hsome (List.perm_nil.mp hentries.symm)
  refine ⟨cs, hemit, hentries, ?_, ?_⟩
  · refine snapshotVerify_eq_some.mpr ⟨st, cs, coins', hjournal, hself, hkind, ?_, hne, hcoins,
      hcommits⟩
    rw [hhi]
  · intro bytes hbytes
    obtain ⟨st', cs', coins'', hjournal', -, -, rfl, -, hcoins', hcommits'⟩ :=
      snapshotVerify_eq_some.mp hbytes
    obtain rfl := Option.some.inj (hjournal.symm.trans hjournal')
    -- two files bound to one journal have the same leaves, hence the same coins
    have hsame : coins'' = coins' := by
      refine List.map_injective_iff.mpr (Guest.Coin.leaf_injective hleaf) ?_
      exact hcommits'.unique hnode.parent hcommits
    refine ⟨cs', by rw [hhi], ?_⟩
    rw [entries_of_timed hcoins', entries_of_timed hcoins, hsame]

section

open Guest.OpTrue

/-- The snapshot of the coin of block 1. -/
theorem snapshot_bound_firstBlock : ∃ receipts headerTime bytes proof,
    snapshotVerify idealHashing zkvm receipts (.replicate 8 0) headerTime bytes proof =
      some true := by
  obtain ⟨checked, st, s, hproved, hgenesis, hapart, hs, htip⟩ := exists_firstRange
  have hjournal : journal? zkvm (Host.heldReceipt (commit.range st) (.replicate 8 0))
      (.replicate 8 0) (0 :: commit.range st) = some st := by
    have hdecode := commit.decode_range st
    simp [journal?, Host.heldReceipt, guard, hdecode]
  have hanswers : Answers (fun i => (chainTimes [firstBlock])[i]?) [firstBlock] := fun _ _ => rfl
  obtain ⟨cs, -, -, hbound, -⟩ := hs.snapshot_bound hproved hgenesis sealed_firstBlock
    validChain_firstBlock coinsFit_firstBlock (idealHashing_tagInjective TAG_LEAF)
    (idealHashing_tagInjective TAG_NODE) knowsSpendable_opTrue hapart htip hjournal hanswers
    (by decide +kernel)
  exact ⟨_, _, _, _, hbound⟩

end

end Bridge
end Hazync
