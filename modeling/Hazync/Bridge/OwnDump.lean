import Hazync.Bridge.DumpSnapshot
import Hazync.Guest.OpTrue

/-!
# The bridge's own dump passes the check

On a chain that consensus accepts, at every height that the bridge gets to: map and leaves describe
the same coins, the dump is written, and the check accepts it against a state with the roots of the
forest. This is so while the coins are no more than 2^32. A chain of coinbases with 65536 outputs
has more after 65537 blocks; then no dump of it can pass, since the records cannot have as many
positions.

## The bound

Positions are `u32` in the dump and in the forest's index. With more leaves than that two coins
share a position, so the check finds a slot taken or a coin without its leaf. `wide_dump_fails`
builds such a chain without computing it: the leaves are counted, never listed. The dump of it is
not accepted because nothing is: an accepted dump has its positions all different (`room_of_check`).

For the same reason `own_dump_passes` asks that the coins fit at every height up to the dump's, and
not only at its own: a forest that has once been larger has an index that is no longer right.
-/

namespace Hazync
namespace Bridge

open ByteStrings
open Accumulator (Forest)
open Guest (Core Coin Transaction TxIn TxOut)
open VerifierFfi

variable {H : Type}

/-! ## The state of the verifier -/

section

variable {parent : H → H → H} {L : List H} {v : List (Option H)}

/-- There is a root at every height that the binary digits of the count name. -/
theorem length_present (hL : L.length < 2 ^ 64)
    (hv : Accumulator.Reference.naiveRoots parent L = some v) :
    v.reduceOption.length = (List.range 64).countP fun k => L.length / 2 ^ k % 2 = 1 := by
  rw [Accumulator.reduceOption_naiveRoots hL hv, List.length_filterMap_eq_countP]
  refine List.countP_congr fun k _ => ?_
  rw [MerkleForest.peak_isSome, decide_eq_true_iff]

/-- So many roots as the C structure has places for, while the count is at most `2^32`. -/
theorem length_present_le (hL : L.length ≤ 2 ^ 32)
    (hv : Accumulator.Reference.naiveRoots parent L = some v) :
    v.reduceOption.length ≤ HAZYNC_MAX_ROOTS := by
  have hlarge : L.length < 2 ^ 64 := lt_of_le_of_lt hL (by decide)
  rcases Nat.lt_or_ge L.length (2 ^ 32) with hlt | hge
  · obtain ⟨w, hw, hpeak⟩ := Accumulator.Reference.naiveRoots_spec parent L
    obtain rfl := Option.some.inj (hv.symm.trans hw)
    have hnone : ∀ k, 32 ≤ k → MerkleForest.peak parent k L = none := by
      intro k hk
      rw [← Option.not_isSome_iff_eq_none, MerkleForest.peak_isSome, Nat.div_eq_of_lt]
      · decide
      · exact lt_of_lt_of_le hlt (Nat.pow_le_pow_right (by decide) hk)
    rw [Accumulator.reduceOption_eq_filterMap (hpeak hlarge) hnone]
    exact (List.length_filterMap_le _ _).trans (by rw [List.length_range]; rfl)
  · rw [length_present hlarge hv, Nat.le_antisymm hL hge]
    decide

end

variable [DecidableEq H] {hs : Hashing H}

/-- A state of the verifier with these roots and zeros for what is not looked at. -/
def stateWith (hs : Hashing H) (height : UInt32) (count : ℕ) (present : List H)
    (h : present.length ≤ HAZYNC_MAX_ROOTS) : HazyncState H where
  height := height
  tipHash := .replicate 32 0
  cumulativeWorkLo := 0
  cumulativeWorkHi := 0
  utxoLeaves := UInt64.ofNat count
  nextBits := 0
  epochStartTime := 0
  prevTime := 0
  rootCount := UInt32.ofNat present.length
  utxoRoots := ⟨present ++ List.replicate (HAZYNC_MAX_ROOTS - present.length) hs.zero, by
    rw [List.length_append, List.length_replicate, Nat.add_sub_cancel' h]⟩

omit [DecidableEq H] in
theorem describes_stateWith {F : Forest H} {v : List (Option H)} (height : UInt32)
    (hF : Forest.Kept hs.parent F F.leaves) (hlarge : F.leaves.length < 2 ^ 64)
    (hv : Accumulator.Reference.naiveRoots hs.parent F.leaves = some v)
    (h : v.reduceOption.length ≤ HAZYNC_MAX_ROOTS) :
    Describes (stateWith hs height F.leaves.length v.reduceOption h) height F := by
  have hcount : (UInt32.ofNat v.reduceOption.length).toNat = v.reduceOption.length := by
    rw [UInt32.toNat_ofNat', Nat.mod_eq_of_lt (lt_of_le_of_lt h (by decide))]
  refine ⟨rfl, ?_, ?_, ?_⟩
  · unfold stateWith
    rw [UInt64.toNat_ofNat', Nat.mod_eq_of_lt hlarge]
  · rw [Forest.roots_of_isCache hF.cache, hv, Option.map_some]
    congr 1
    unfold HazyncState.roots stateWith
    rw [hcount]
    exact List.take_left.symm
  · unfold stateWith
    rw [hcount]
    exact h

omit [DecidableEq H] in
theorem Describes.commits {pv : HazyncState H} {height : UInt32} {F : Forest H}
    (h : Describes pv height F) (hF : Forest.Kept hs.parent F F.leaves) :
    pv.Commits hs.parent F.leaves := by
  refine ⟨h.leaves, ?_, h.room⟩
  rw [← Forest.roots_of_isCache hF.cache]
  exact h.roots

/-! ## Blocks of a coinbase alone -/

section

variable {core : Core} {block : Block} {coinbase : Transaction} {s : Resident H}

omit [DecidableEq H] in
theorem exists_wireStump {F : Forest H} (hF : Forest.Kept hs.parent F F.leaves) :
    ∃ stump, wireStump F = some stump := by
  obtain ⟨v, hv, -⟩ := Accumulator.Reference.naiveRoots_spec hs.parent F.leaves
  unfold wireStump
  rw [Forest.roots_of_isCache hF.cache, hv]
  exact ⟨_, rfl⟩

theorem kept_foldl_add {F : Forest H} (hF : Forest.Kept hs.parent F F.leaves) (leaves : List H) :
    Forest.Kept hs.parent (leaves.foldl (Forest.add hs.parent) F)
      (leaves.foldl (Forest.add hs.parent) F).leaves := by
  induction leaves generalizing F with
  | nil => exact hF
  | cons leaf leaves ih => exact ih ⟨rfl, (hF.add leaf).cache⟩

/-- Of such a block the forest gets what an overwritten coinbase leaves of it, and the outputs.
    Nothing is proved or deleted beside. -/
theorem buildBlockCarried_coinbase {utxo : Utxo} {blockMtp : List UInt32} {height : UInt32}
    {F G : Forest H} {bip30 : Option (Guest.Bip30Overwrite H)} (hblock : block.txdata = [coinbase])
    (hF : Forest.Kept hs.parent F F.leaves) (hG : Forest.Kept hs.parent G G.leaves)
    (hover : overwrite hs core coinbase blockMtp height F = some (G, bip30)) :
    ∃ w, buildBlockCarried hs core utxo blockMtp height block F = some w ∧
      w.forest = (block.outLeaves hs core height
        (blockMtp.getD height.toNat block.time)).foldl (Forest.add hs.parent) G := by
  obtain ⟨rootPrev, hprev⟩ := exists_wireStump hF
  have hall : (block.outLeaves hs core height (blockMtp.getD height.toNat block.time)).filter
      (· ∉ []) = block.outLeaves hs core height (blockMtp.getD height.toNat block.time) :=
    List.filter_eq_self.mpr fun _ _ => decide_eq_true List.not_mem_nil
  obtain ⟨rootNext, hnext⟩ := exists_wireStump (kept_foldl_add hG
    (block.outLeaves hs core height (blockMtp.getD height.toNat block.time)))
  have hspends : block.spends core utxo blockMtp height = some [] := by
    unfold Block.spends
    rw [hblock]
    rfl
  unfold buildBlockCarried
  rw [hblock, hspends, hprev]
  simp only [List.head?_cons, Option.bind_eq_bind, Option.bind_some, List.foldlM_nil, pure, hover,
    hall, hnext, Option.some.injEq, exists_eq_left']

theorem exists_buildBlockCarried {utxo : Utxo} {blockMtp : List UInt32} {height : UInt32}
    {F : Forest H} (hblock : block.txdata = [coinbase]) (hheight : overwrittenHeight height = none)
    (hF : Forest.Kept hs.parent F F.leaves) :
    ∃ w, buildBlockCarried hs core utxo blockMtp height block F = some w ∧
      Forest.Kept hs.parent w.forest w.forest.leaves := by
  have hover : overwrite hs core coinbase blockMtp height F = some (F, none) := by
    unfold overwrite
    rw [hheight]
  obtain ⟨w, hw, hforest⟩ := @buildBlockCarried_coinbase H _ hs core block coinbase utxo blockMtp
    height F F none hblock hF hF hover
  refine ⟨w, hw, ?_⟩
  rw [hforest]
  exact kept_foldl_add hF _

/-- Below the first of the two heights that may overwrite. -/
theorem ne_of_early {height : UInt32} (h : height.toNat < 91842) :
    height ≠ 91842 ∧ height ≠ 91880 := by
  constructor
  · rintro rfl
    exact absurd h (by decide)
  · rintro rfl
    exact absurd h (by decide)

theorem overwrittenHeight_of_early {height : UInt32} (h : height.toNat < 91842) :
    overwrittenHeight height = none := by
  unfold overwrittenHeight
  rw [if_neg (ne_of_early h).1, if_neg (ne_of_early h).2]

theorem exists_medianU32 {win : List UInt32} (hwin : win ≠ []) :
    ∃ mtp, medianU32 win = some mtp := by
  unfold medianU32
  have hlt : win.length / 2 < (win.insertionSort (· ≤ ·)).length := by
    rw [List.length_insertionSort]
    exact Nat.div_lt_self (List.length_pos_iff.mpr hwin) (by decide)
  exact ⟨_, List.getElem?_eq_getElem hlt⟩

theorem pushTime_ne_nil (win : List UInt32) (time : UInt32) : Guest.pushTime win time ≠ [] := by
  unfold Guest.pushTime
  rw [← List.length_pos_iff, List.length_drop, List.length_append, List.length_singleton]
  omega

theorem exists_advance (hblock : block.txdata = [coinbase]) (hdone : s.done.toNat < 91841)
    (hwin : s.win ≠ []) (hF : Forest.Kept hs.parent s.forest s.forest.leaves) :
    ∃ s', s.advance hs core block = some s' ∧ s'.done.toNat = s.done.toNat + 1 ∧ s'.win ≠ [] ∧
      Forest.Kept hs.parent s'.forest s'.forest.leaves := by
  have hnext : (s.done + 1).toNat = s.done.toNat + 1 := by
    rw [UInt32.toNat_add, UInt32.toNat_one]
    exact Nat.mod_eq_of_lt (by omega)
  have hmax : s.done ≠ 0xffffffff := by
    intro heq
    rw [heq] at hdone
    exact absurd hdone (by decide)
  have hearly : (s.done + 1).toNat < 91842 := by omega
  obtain ⟨hfirst, hsecond⟩ := ne_of_early hearly
  obtain ⟨mtp, hmtp⟩ := exists_medianU32 hwin
  have hpush : pushMtp s.win s.blockMtp block.time =
      some (Guest.pushTime s.win block.time, s.blockMtp ++ [mtp]) := by
    unfold pushMtp
    rw [hmtp]
    rfl
  obtain ⟨w, hw, hkept⟩ : ∃ w, buildBlockCarried hs core s.utxo (s.blockMtp ++ [mtp]) (s.done + 1)
      block s.forest.beginJournal = some w ∧ Forest.Kept hs.parent w.forest w.forest.leaves :=
    exists_buildBlockCarried hblock (overwrittenHeight_of_early hearly) ⟨rfl, hF.cache⟩
  have hspends : block.coinbaseSpends s.utxo = [] := by
    unfold Block.coinbaseSpends Block.spent
    rw [hblock]
    rfl
  unfold Resident.advance
  rw [if_neg hmax, hpush]
  simp only [Option.bind_eq_bind, Option.bind_some, hw, hblock, List.head?_cons, hspends, hfirst,
    hsecond, or_self, decide_false, smtAdvance, overwriteOf, List.foldlM_nil, pure,
    Bool.false_eq_true, if_false, Option.some.injEq, exists_eq_left']
  exact ⟨hnext, pushTime_ne_nil _ _, rfl, hkept.cache⟩

/-- The bridge gets through blocks that have a coinbase alone. -/
theorem exists_walked {blocks : List Block}
    (hblocks : ∀ block ∈ blocks, ∃ coinbase, block.txdata = [coinbase])
    (hlen : blocks.length < 91842) : ∃ s, Walked hs core blocks s ∧
      s.done.toNat = blocks.length ∧ s.win ≠ [] ∧
      Forest.Kept hs.parent s.forest s.forest.leaves := by
  induction blocks using List.reverseRecOn with
  | nil => exact ⟨.genesis hs, .genesis, rfl, by simp [Resident.genesis], .new⟩
  | append_singleton blocks block ih =>
    rw [List.length_append, List.length_singleton] at hlen
    obtain ⟨s, hwalk, hdone, hwin, hF⟩ :=
      ih (fun b hb => hblocks b (List.mem_append_left _ hb)) (by omega)
    obtain ⟨coinbase, hblock⟩ := hblocks block (List.mem_append_right _ (List.mem_singleton_self _))
    obtain ⟨s', hadvance, hdone', hwin', hF'⟩ : ∃ s', s.advance hs core block = some s' ∧
        s'.done.toNat = s.done.toNat + 1 ∧ s'.win ≠ [] ∧
        Forest.Kept hs.parent s'.forest s'.forest.leaves :=
      exists_advance hblock (by omega) hwin hF
    refine ⟨s', hwalk.block hadvance, ?_, hwin', hF'⟩
    rw [hdone', hdone, List.length_append, List.length_singleton]

end

/-! ## Coinbases with many outputs -/

/-- The coinbase of height `i`, with `k` outputs of nothing to the empty script. -/
def wideCoinbase (k : ℕ) (hk : k < 2 ^ 32) (i : ℕ) : Transaction where
  version := 1
  vin := [⟨Guest.OpTrue.nullHash, 0xffffffff, le32 (UInt32.ofNat i), 0xffffffff, []⟩]
  vout := List.replicate k ⟨0, []⟩
  nLockTime := 0
  vin_lt := Nat.one_lt_two_pow (by decide)
  vout_lt := by rwa [List.length_replicate]

/-- The first 32 bytes of the script of the input, filled up with zeros. -/
def scriptTxid (t : Transaction) : Bytes32 :=
  ⟨(t.vin.flatMap TxIn.scriptSig ++ List.replicate 32 0).take 32, by simp⟩

/-- Core, with txids that tell the coinbases apart. -/
def wideCore : Core := { Guest.OpTrue.core with getHash := scriptTxid }

def wideBlock (k : ℕ) (hk : k < 2 ^ 32) (i : ℕ) : Block where
  version := 1
  prevBlockhash := Guest.OpTrue.nullHash
  merkleRoot := Guest.OpTrue.nullHash
  time := 0
  bits := 0x1d00ffff
  nonce := 0
  txdata := [wideCoinbase k hk i]

/-- The blocks from height 1 on. -/
def wideChain (k : ℕ) (hk : k < 2 ^ 32) (n : ℕ) : List Block :=
  (List.range n).map fun i => wideBlock k hk (i + 1)

section

variable {k : ℕ} {hk : k < 2 ^ 32}

theorem wideChain_succ (n : ℕ) :
    wideChain k hk (n + 1) = wideChain k hk n ++ [wideBlock k hk (n + 1)] := by
  unfold wideChain
  rw [List.range_succ, List.map_append, List.map_singleton]

theorem length_wideChain (n : ℕ) : (wideChain k hk n).length = n := by
  unfold wideChain
  rw [List.length_map, List.length_range]

theorem take_scriptTxid (k : ℕ) (hk : k < 2 ^ 32) (i : ℕ) :
    (scriptTxid (wideCoinbase k hk i)).toList.take 4 = le32 (UInt32.ofNat i) := by
  change ((le32 (UInt32.ofNat i) ++ [] ++ List.replicate 32 0).take 32).take 4 = _
  rw [List.append_nil, List.take_take]
  exact List.take_left' (length_le32 _)

theorem scriptTxid_wideCoinbase {i j : ℕ} (hi : i < 2 ^ 32) (hj : j < 2 ^ 32)
    (h : scriptTxid (wideCoinbase k hk i) = scriptTxid (wideCoinbase k hk j)) : i = j := by
  have hscript : le32 (UInt32.ofNat i) = le32 (UInt32.ofNat j) := by
    rw [← take_scriptTxid k hk i, ← take_scriptTxid k hk j, h]
  have hnat := congrArg UInt32.toNat (le32_injective hscript)
  rwa [UInt32.toNat_ofNat', UInt32.toNat_ofNat', Nat.mod_eq_of_lt hi, Nat.mod_eq_of_lt hj] at hnat

theorem length_spendableOutputs_wide (height : UInt32) (i : ℕ) :
    (spendableOutputs wideCore height true (wideCoinbase k hk i)).length = k := by
  unfold spendableOutputs
  rw [List.length_filterMap_eq_countP, List.countP_eq_length.mpr]
  · rw [List.length_zipIdx]
    exact List.length_replicate
  · intro p hp
    have ho : p.1 = ⟨0, []⟩ := List.eq_of_mem_replicate (List.fst_mem_of_mem_zipIdx hp)
    dsimp only
    rw [ho]
    rfl

/-- Consensus accepts the chain, and all its coins are unspent: the coinbases have different txids,
    so none overwrites another. By induction on the height. -/
theorem exists_validChain (n : ℕ) (hn : n < 2 ^ 32) : ∃ coins,
    ValidChain wideCore (wideChain k hk n) coins ∧ coins.entries.length = n * k ∧
      ∀ e ∈ coins.entries, ∃ i ≤ n, e.1.txid = scriptTxid (wideCoinbase k hk i) := by
  induction n with
  | zero =>
    refine ⟨.empty, .genesis, (Nat.zero_mul k).symm, ?_⟩
    intro e he
    exact absurd he List.not_mem_nil
  | succ n ih =>
    obtain ⟨coins, hchain, hlength, htxid⟩ := ih (by omega)
    -- the coinbase of another height has another txid, so nothing is overwritten
    have hnew : ∀ v : UInt32,
        coins.get? ⟨scriptTxid (wideCoinbase k hk (n + 1)), v⟩ = none := by
      intro v
      rw [SortedMap.get?_eq_none]
      intro u hu
      obtain ⟨i, hi, heq⟩ := htxid _ hu
      have := scriptTxid_wideCoinbase hn (by omega) heq
      omega
    have hfresh : ∀ e ∈ spendableOutputs wideCore (UInt32.ofNat (n + 1)) true
        (wideCoinbase k hk (n + 1)), coins.get? e.1 = none := by
      intro e he
      obtain ⟨v, o, -, -, hkey, -⟩ := mem_spendableOutputs.mp he
      rw [hkey]
      exact hnew _
    have hblock : ConnectBlock wideCore coins (UInt32.ofNat (n + 1)) (wideBlock k hk (n + 1))
        (coins.insertAll (spendableOutputs wideCore (UInt32.ofNat (n + 1)) true
          (wideCoinbase k hk (n + 1)))) := by
      refine ⟨List.nodup_singleton _, ?_, rfl⟩
      intro t ht v _
      unfold Block.bip30 at ht
      split at ht
      · obtain rfl := List.mem_singleton.mp ht
        exact hnew _
      · exact absurd ht List.not_mem_nil
    refine ⟨coins.insertAll (spendableOutputs wideCore (UInt32.ofNat (n + 1)) true
      (wideCoinbase k hk (n + 1))), ?_, ?_, ?_⟩
    -- the chain, the number of its coins, and whose outputs they are
    · rw [wideChain_succ]
      refine .connect hchain ?_
      rw [length_wideChain]
      exact hblock
    · rw [SortedMap.length_entries_insertAll (nodup_spendableOutputs true) hfresh, hlength,
        length_spendableOutputs_wide, Nat.succ_mul]
    · intro e he
      rcases SortedMap.mem_entries_insertAll he with hmem | hold
      · obtain ⟨e', he', heq⟩ := List.mem_map.mp hmem
        refine ⟨n + 1, le_refl _, ?_⟩
        rw [← heq]
        exact txid_of_mem_spendableOutputs he'
      · obtain ⟨i, hi, heq⟩ := htxid e hold
        exact ⟨i, Nat.le_succ_of_le hi, heq⟩

theorem wideChain_of_prefix {pre : List Block} {n : ℕ} (h : pre <+: wideChain k hk n) :
    pre.length ≤ n ∧ pre = wideChain k hk pre.length := by
  have hle := h.length_le
  rw [length_wideChain] at hle
  refine ⟨hle, ?_⟩
  have htake := List.prefix_iff_eq_take.mp h
  unfold wideChain at htake ⊢
  rwa [← List.map_take, List.take_range, Nat.min_eq_left hle] at htake

theorem coinsFit_wideChain {n : ℕ} (hn : n < 2 ^ 32) (hfit : n * k ≤ 2 ^ 32) :
    CoinsFit wideCore (wideChain k hk n) := by
  intro pre coins hpre hchain
  obtain ⟨hle, heq⟩ := wideChain_of_prefix hpre
  obtain ⟨all, hall, hlength, -⟩ := exists_validChain (k := k) pre.length (by omega)
  rw [← heq] at hall
  obtain rfl := hchain.unique hall
  rw [hlength]
  exact (Nat.mul_le_mul_right k hle).trans hfit

theorem exists_walked_wideChain (hs : Hashing H) {n : ℕ} (hn : n < 91842) : ∃ s,
    Walked hs wideCore (wideChain k hk n) s ∧ s.done.toNat = n ∧ s.win ≠ [] ∧
      Forest.Kept hs.parent s.forest s.forest.leaves := by
  have hblocks : ∀ block ∈ wideChain k hk n, ∃ coinbase, block.txdata = [coinbase] := by
    intro block hblock
    obtain ⟨i, -, rfl⟩ := List.mem_map.mp hblock
    exact ⟨_, rfl⟩
  have hlen : (wideChain k hk n).length < 91842 := by rwa [length_wideChain]
  obtain ⟨s, hwalk, hdone, hrest⟩ := @exists_walked H _ hs wideCore _ hblocks hlen
  rw [length_wideChain] at hdone
  exact ⟨s, hwalk, hdone, hrest⟩

end

/-! ## The dump of a checkpoint -/

/-- Where map and leaves describe the same coins the dump is written, and its records list them.
    Every coin has a median time and a position; the scripts are short enough to be framed. -/
theorem dumpSnapshot_spec {st : BridgeState H} (h : st.OneToOne hs) (hleaf : hs.LeafInjective)
    (hroom : st.leaves.length ≤ 2 ^ 32)
    (hspk : ∀ e ∈ st.utxo.entries, e.2.spk.length < 2 ^ 32) :
    ∃ coins : List DumpCoin, dumpSnapshot hs st =
        some (dumpHeader st.height (UInt64.ofNat st.leaves.length) ++
          coins.flatMap DumpCoin.bytes) ∧
      ∀ pv : HazyncState H, pv.utxoLeaves.toNat = st.leaves.length →
        Lists hs pv st.leaves coins := by
  obtain ⟨posOf, hposOf, hspec⟩ := positionsOf_eq h.nodup
  have hlength : st.utxo.entries.length = st.leaves.length := by
    rw [h.leaves.length_eq, List.length_map]
  obtain ⟨coins, hwritten, hplaces, hcoins⟩ : ∃ coins : List DumpCoin,
      st.utxo.entries.mapM (dumpRecord hs st.blockMtp posOf) = some (coins.map DumpCoin.bytes) ∧
        coins.map (fun c => st.leaves[c.pos.toNat]?) =
          st.utxo.entries.map (fun e => some (leafOf hs st.blockMtp e)) ∧
        coins.map (fun c => c.coin.leaf hs) = st.utxo.entries.map (leafOf hs st.blockMtp) := by
    refine exists_records hroom hspec ?_
    intro e he
    exact ⟨h.times e he, hspk e he, h.leaves.mem_iff.mpr (List.mem_map_of_mem he)⟩
  refine ⟨coins, ?_, ?_⟩
  · unfold dumpSnapshot
    rw [if_neg (not_not.mpr hlength), hposOf, Option.bind_eq_bind, Option.bind_some, hwritten,
      Option.bind_eq_bind, Option.bind_some, hlength, dumpHeader, List.flatMap_def]
    simp only [List.append_assoc]
    rfl
  · intro pv hpv
    refine lists_of_records hleaf hpv h.nodup (hcoins ▸ h.leaves) ?_
    -- Both lists are read off the same coins, record by record.
    have hboth : coins.map (fun c => st.leaves[c.pos.toNat]?) =
        coins.map fun c => some (c.coin.leaf hs) := by
      have hsome := congrArg (List.map some) hcoins
      rw [List.map_map, List.map_map] at hsome
      exact hplaces.trans hsome.symm
    exact List.map_inj_left.mp hboth

section

variable {core : Core} {blocks : List Block} {coins : Utxo} {s : Resident H}

theorem WalkInv.oneToOne (h : WalkInv hs blocks coins s) (hleaf : hs.LeafInjective)
    (hchain : ValidChain core blocks coins) : s.save.OneToOne hs := by
  have hlen : blocks.length < 2 ^ 32 := by
    rw [← h.done]
    exact s.done.toNat_lt
  refine ⟨?_, h.tracks.nodup hleaf, h.tracks.leaves⟩
  intro e he
  have hget : coins.get? e.1 = some e.2 := by
    rw [← h.utxo]
    exact SortedMap.mem_entries.mp he
  have hheight := (hchain.ofChain hlen hget).height
  change e.2.height.toNat < s.blockMtp.length
  rw [h.blockMtp]
  omega

theorem WalkInv.spk (h : WalkInv hs blocks coins s) (hchain : ValidChain core blocks coins) :
    ∀ e ∈ s.save.utxo.entries, e.2.spk.length < 2 ^ 32 := by
  intro e he
  have hlen : blocks.length < 2 ^ 32 := by
    rw [← h.done]
    exact s.done.toNat_lt
  have hget : coins.get? e.1 = some e.2 := by
    rw [← h.utxo]
    exact SortedMap.mem_entries.mp he
  exact lt_of_le_of_lt (hchain.ofChain hlen hget).spk (by decide)

/-- **The bridge's own dump passes.** On every chain that consensus accepts whose unspent coins fit
    the positions, at every height the bridge gets to: the map is what is unspent, map and leaves
    describe the same coins one to one, the dump is written, and the check accepts exactly those
    bytes against the states of that height with the leaf count and the non-empty roots of the
    forest, of which there are some. -/
theorem own_dump_passes (hleaf : hs.LeafInjective) (hchain : ValidChain core blocks coins)
    (hfit : CoinsFit core blocks) (hwalk : Walked hs core blocks s) :
    s.save.height.toNat = blocks.length ∧ s.save.utxo = coins ∧ s.save.OneToOne hs ∧
      ∃ bytes, dumpSnapshot hs s.save = some bytes ∧
        (∃ pv, Describes pv s.save.height s.forest) ∧
        ∀ pv, Describes pv s.save.height s.forest →
          hazyncCheckUtxoDump hs bytes pv = some HAZYNC_OK := by
  have hinv := hwalk.inv hleaf hchain hfit
  have hone := hinv.oneToOne hleaf hchain
  have hroom : s.forest.leaves.length ≤ 2 ^ 32 := by
    rw [hinv.tracks.length, hinv.utxo]
    exact hfit blocks coins (List.prefix_refl _) hchain
  obtain ⟨records, hdump, hlists⟩ := dumpSnapshot_spec hone hleaf hroom (hinv.spk hchain)
  refine ⟨hinv.done, hinv.utxo, hone, _, hdump, ?_, ?_⟩
  · obtain ⟨v, hv, -⟩ := Accumulator.Reference.naiveRoots_spec hs.parent s.forest.leaves
    have hlarge : s.forest.leaves.length < 2 ^ 64 := lt_of_le_of_lt hroom (by decide)
    exact ⟨_, describes_stateWith s.done hinv.tracks.cache hlarge hv (length_present_le hroom hv)⟩
  · intro pv hpv
    have hbytes : dumpHeader s.save.height (UInt64.ofNat s.save.leaves.length) ++
        records.flatMap DumpCoin.bytes = dump pv records := by
      have hcount : UInt64.ofNat s.save.leaves.length = pv.utxoLeaves := by
        change UInt64.ofNat s.forest.leaves.length = pv.utxoLeaves
        rw [← hpv.leaves, UInt64.ofNat_toNat]
      rw [hcount, ← hpv.height]
      rfl
    rw [hbytes]
    exact check_dump hleaf (hpv.commits hinv.tracks.cache) (hlists pv hpv.leaves)

end

/-- Two blocks of three coins, and a restart. -/
theorem own_dump_passes_wide : ∃ coins s pv bytes,
    ValidChain wideCore (wideChain 3 (by decide) 2) coins ∧ coins.entries.length = 6 ∧
      Walked idealHashing wideCore (wideChain 3 (by decide) 2) s ∧
      dumpSnapshot idealHashing s.save = some bytes ∧ Describes pv s.save.height s.forest ∧
      hazyncCheckUtxoDump idealHashing bytes pv = some HAZYNC_OK := by
  obtain ⟨coins, hchain, hlength, -⟩ := exists_validChain (k := 3) 2 (by decide)
  obtain ⟨s, hwalk, -⟩ := exists_walked_wideChain (k := 3) idealHashing (n := 2) (by decide)
  obtain ⟨-, -, -, bytes, hdump, ⟨pv, hpv⟩, hcheck⟩ :=
    own_dump_passes (idealHashing_tagInjective TAG_LEAF) hchain
      (coinsFit_wideChain (by decide) (by decide)) hwalk.resume
  exact ⟨coins, s.save.resume idealHashing, pv, bytes, hchain, hlength, hwalk.resume, hdump, hpv,
    hcheck pv hpv⟩

/-- Positions of 32 bits are too few for more records: a dump that is accepted has a different
    position for each leaf. -/
theorem room_of_check {pv : HazyncState H} {L : List H} (hleaf : hs.LeafInjective)
    (hnode : hs.NodeInjective) (hpv : pv.Commits hs.parent L) {bytes : Bytes}
    (h : hazyncCheckUtxoDump hs bytes pv = some HAZYNC_OK) : L.length ≤ 2 ^ 32 := by
  obtain ⟨records, -, hlength, arr, harr, -⟩ := (hazyncCheckUtxoDump_ok_iff hleaf hnode hpv).mp h
  rw [hpv.leaves] at hlength
  by_contra hlarge
  have hlast : L.length - 1 ∈ records.map fun c => c.pos.toNat := by
    rw [harr.positions.mem_iff, hlength]
    exact List.mem_range.mpr (by omega)
  obtain ⟨c, -, hpos⟩ := List.mem_map.mp hlast
  have := c.pos.toNat_lt
  omega

/-- 65537 blocks whose coinbases have 65536 outputs: no dump of the bridge's state passes. -/
theorem wide_dump_fails : ∃ coins s pv, idealHashing.LeafInjective ∧
    ValidChain wideCore (wideChain 65536 (by decide) 65537) coins ∧
    Walked idealHashing wideCore (wideChain 65536 (by decide) 65537) s ∧
    Describes pv s.save.height s.forest ∧
    ∀ bytes, dumpSnapshot idealHashing s.save = some bytes →
      hazyncCheckUtxoDump idealHashing bytes pv ≠ some HAZYNC_OK := by
  have hleaf := idealHashing_tagInjective TAG_LEAF
  have hk : 65536 < 2 ^ 32 := by decide
  obtain ⟨coins, hchain, hlength, -⟩ := exists_validChain (k := 65536) 65537 (by decide)
  obtain ⟨s, hwalk, hdone, hwin, hF⟩ :=
    exists_walked_wideChain (k := 65536) idealHashing (n := 65536) (by decide)
  have hlast := hchain
  rw [wideChain_succ] at hlast
  obtain ⟨before, hbefore, hblock⟩ := hlast.last
  -- Up to the last block but one all is well.
  have hfit : CoinsFit wideCore (wideChain 65536 hk 65536) :=
    coinsFit_wideChain (by decide) (by decide)
  have hinv := hwalk.inv hleaf hbefore hfit
  obtain ⟨s', hadvance, -, -, -⟩ : ∃ s', s.advance idealHashing wideCore (wideBlock 65536 hk 65537) =
      some s' ∧ s'.done.toNat = s.done.toNat + 1 ∧ s'.win ≠ [] ∧
      Forest.Kept idealHashing.parent s'.forest s'.forest.leaves :=
    exists_advance rfl (by omega) hwin hF
  have hinv' := hinv.advance hleaf hbefore (hfit _ before (List.prefix_refl _) hbefore) hblock hadvance
  have hcount : s'.forest.leaves.length = 65537 * 65536 := by
    rw [hinv'.tracks.length, hinv'.utxo, hlength]
  have hlarge : s'.forest.leaves.length < 2 ^ 64 := by
    rw [hcount]
    decide
  obtain ⟨v, hv, -⟩ := Accumulator.Reference.naiveRoots_spec idealHashing.parent s'.forest.leaves
  have hpresent : v.reduceOption.length ≤ HAZYNC_MAX_ROOTS := by
    rw [length_present hlarge hv, hcount]
    decide
  have hpv := describes_stateWith s'.done hinv'.tracks.cache hlarge hv hpresent
  refine ⟨coins, s', _, hleaf, hchain, ?_, hpv, ?_⟩
  · rw [wideChain_succ]
    exact hwalk.block hadvance
  · intro bytes _ hok
    have hroom := room_of_check hleaf (idealHashing_tagInjective TAG_NODE)
      (hpv.commits hinv'.tracks.cache) hok
    rw [hcount] at hroom
    exact absurd hroom (by decide)

end Bridge
end Hazync
