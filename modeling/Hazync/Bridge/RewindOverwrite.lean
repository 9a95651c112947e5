import Hazync.Bridge.OwnDump
import Hazync.Bridge.RewindRuns

/-!
# A rewind over a coinbase that was overwritten

The chain has one coinbase at height 91812 and again at height 91842, where consensus lets it
overwrite the first, and no other output that can be spent. Consensus accepts it, and the bridge
walks it with all its records in place. A rewind by one block from there is done, and leaves a map
without a coin where there was one.

The txids of the chain come from the script of the coinbase's input, so that the two coinbases share
one and all others have another; the rest of Core is as in the other examples. The blocks are not
listed: `Quiet` is carried over runs of equal blocks by induction, up to 91841 and one more.

After the rewind the map has no coin at the outpoint, while the tree says again that there is one
and the forest has its leaf again. A walk over the same blocks from genesis has the coin.
-/

namespace Hazync
namespace Bridge

open ByteStrings
open Accumulator (Forest)
open Guest (Core Transaction)

variable {H : Type}

/-- A record that could be written is there afterwards; what is pruned is below it. -/
theorem get?_pushUndo_self (dir : UndoDir H) (u : BlockUndo H) (keep : UInt32) {o : Outcome}
    (ho : o.written = true) : (pushUndo dir u keep o).get? u.height.toNat = some u := by
  have hwrite : (dir.insert u.height.toNat u).get? u.height.toNat = some u := by
    rw [SortedMap.get?_insert, Function.update_self]
  unfold pushUndo
  dsimp only
  rw [ho, if_pos rfl]
  split
  · rename_i hkeep
    rw [SortedMap.get?_eraseAll, if_neg, hwrite]
    intro hmem
    have hlt := (of_decide_eq_true (List.mem_filter.mp hmem).2).1
    rw [UInt32.toNat_sub_of_le _ _ (UInt32.le_of_lt hkeep)] at hlt
    omega
  · exact hwrite

variable [DecidableEq H] {hs : Hashing H} {core : Core} {block : Block} {coinbase : Transaction}

/-- What the file system does when nothing goes wrong. -/
def Outcome.fine : Outcome := ⟨true, fun _ => false⟩

/-- The process takes a block that has a coinbase alone, whatever the forest's part of it comes to,
    as long as there is one. -/
theorem Process.exists_advance {p : Process H} (keep : UInt32) (hash : String)
    {o : Option UInt32} (hblock : block.txdata = [coinbase])
    (hmax : p.now.done ≠ 0xffffffff) (hwin : p.now.win ≠ [])
    (hbuild : ∀ mtp, ∃ w, buildBlockCarried hs core p.now.utxo (p.now.blockMtp ++ [mtp])
      (p.now.done + 1) block p.now.forest.beginJournal = some w)
    (hover : overwriteOf p.now.smt (core.getHash coinbase)
      (p.now.done + 1 = 91842 ∨ p.now.done + 1 = 91880) = some o) :
    ∃ now u, p.now.advance hs core hash block = some (now, u) ∧
      p.step hs core keep (.advance hash block .fine) = some
        { p with
          now := now
          dir := pushUndo p.dir u keep .fine
          trail := p.trail ++ [(p.now.held, block)] } ∧
      now.win ≠ [] ∧ u.height = p.now.done + 1 ∧
      now.smt = enterCoinbase hs p.now.smt (core.getHash coinbase)
        (UInt32.ofNat (coinbase.vout.filter fun o => outSpendable o.scriptPubKey).length)
        (p.now.done + 1 = 91842 ∨ p.now.done + 1 = 91880) := by
  obtain ⟨mtp, hmtp⟩ := exists_medianU32 hwin
  obtain ⟨w, hw⟩ := hbuild mtp
  have hpush : pushMtp p.now.win p.now.blockMtp block.time =
      some (Guest.pushTime p.now.win block.time, p.now.blockMtp ++ [mtp]) := by
    unfold pushMtp
    rw [hmtp]
    rfl
  have hspends : block.coinbaseSpends p.now.utxo = [] := by
    unfold Block.coinbaseSpends Block.spent
    rw [hblock]
    rfl
  have hadvance : ∃ r, p.now.advance hs core hash block = some r ∧ r.1.win ≠ [] ∧
      r.2.height = p.now.done + 1 ∧
      r.1.smt = enterCoinbase hs p.now.smt (core.getHash coinbase)
        (UInt32.ofNat (coinbase.vout.filter fun o => outSpendable o.scriptPubKey).length)
        (p.now.done + 1 = 91842 ∨ p.now.done + 1 = 91880) := by
    unfold Standing.advance
    rw [if_neg hmax, hpush]
    simp only [Option.bind_eq_bind, Option.bind_some, hw, hblock, List.head?_cons, hspends,
      smtAdvance, hover, List.foldlM_nil, pure, Option.some.injEq, exists_eq_left']
    exact ⟨pushTime_ne_nil _ _, trivial, trivial⟩
  obtain ⟨⟨now, u⟩, hsome, hrest⟩ := hadvance
  refine ⟨now, u, hsome, ?_, hrest⟩
  change (p.now.advance hs core hash block).bind _ = _
  rw [hsome]
  rfl

/-! ## The chain -/

theorem one_lt_word : 1 < 2 ^ 32 := Nat.one_lt_two_pow (by decide)

/-- A coinbase with one output of nothing. -/
def coinbaseTo (script spk : Bytes) : Transaction where
  version := 1
  vin := [⟨Guest.OpTrue.nullHash, 0xffffffff, script, 0xffffffff, []⟩]
  vout := [⟨0, spk⟩]
  nLockTime := 0
  vin_lt := one_lt_word
  vout_lt := one_lt_word

def blockOf (t : Transaction) : Block where
  version := 1
  prevBlockhash := Guest.OpTrue.nullHash
  merkleRoot := Guest.OpTrue.nullHash
  time := 0
  bits := 0x1d00ffff
  nonce := 0
  txdata := [t]

/-- Its output cannot be spent. -/
def dataCoinbase : Transaction := coinbaseTo [0] [0x6a]

def repeatedCoinbase : Transaction := coinbaseTo [1] []

/-- Its coin, as the map has it from a height on. -/
def repeatedCoin (height : UInt32) : Outpoint × Unspent :=
  (⟨scriptTxid repeatedCoinbase, 0⟩, ⟨0, [], height, true⟩)

theorem spendableOutputs_data (height : UInt32) :
    spendableOutputs wideCore height true dataCoinbase = [] := rfl

theorem spendableOutputs_repeated (height : UInt32) :
    spendableOutputs wideCore height true repeatedCoinbase = [repeatedCoin height] := rfl

theorem scriptTxid_ne : scriptTxid dataCoinbase ≠ scriptTxid repeatedCoinbase := by decide

/-- Consensus accepts a block that has a coinbase alone, at a new txid or where it may overwrite.
    Maturity and sources are asked of inputs only, and it has none. -/
theorem connectBlock_coinbase {coins : Utxo} {height : UInt32} {t : Transaction}
    (h : (∀ v, coins.get? ⟨scriptTxid t, v⟩ = none) ∨ (overwrittenHeight height).isSome) :
    ConnectBlock wideCore coins height (blockOf t)
      (coins.insertAll (spendableOutputs wideCore height true t)) := by
  refine ⟨List.nodup_singleton _, ?_, rfl⟩
  intro t' ht' v _
  unfold Block.bip30 at ht'
  cases hover : overwrittenHeight height with
  | some old =>
    rw [hover] at ht'
    exact absurd ht' List.not_mem_nil
  | none =>
    rw [hover] at ht' h
    obtain rfl := List.mem_singleton.mp ht'
    rcases h with hnew | hsome
    · exact hnew _
    · cases hsome

/-- The process has walked the blocks, which consensus accepts, and nothing went wrong. -/
structure Quiet (hs : Hashing H) (blocks : List Block) (coins : Utxo) (p : Process H) : Prop where
  /-- A run of advances alone, each of which went well. -/
  run : ∃ trace, Process.Follows hs wideCore 288 trace p ∧
    ∀ t ∈ trace, ∃ block, t.2.1 = .advance "" block .fine
  trail : p.trail.map Prod.snd = blocks
  chain : ValidChain wideCore blocks coins
  walk : WalkInv hs blocks coins p.now.toResident
  /-- The window of times is not empty, so that the next block has a median. -/
  win : p.now.win ≠ []

variable {blocks : List Block} {coins coins' : Utxo} {p : Process H}

theorem Quiet.start (hs : Hashing H) : Quiet hs [] .empty (Process.start hs) where
  run := ⟨[], .nil rfl, fun _ ht => absurd ht List.not_mem_nil⟩
  trail := rfl
  chain := .genesis
  walk := ⟨rfl, rfl, rfl, .new⟩
  win := List.cons_ne_nil _ _

theorem Quiet.next (h : Quiet hs blocks coins p) :
    p.now.done + 1 = UInt32.ofNat (blocks.length + 1) := by
  apply UInt32.toNat_inj.mp
  rw [UInt32.toNat_add, UInt32.toNat_one, h.walk.done, UInt32.toNat_ofNat']

/-- One block more. -/
theorem Quiet.advance {t : Transaction} {o : Option UInt32} (h : Quiet hs blocks coins p)
    (hleaf : hs.LeafInjective) (hroom : coins.entries.length ≤ 2 ^ 32)
    (hlen : blocks.length + 1 < 2 ^ 32)
    (hblock : ConnectBlock wideCore coins (UInt32.ofNat (blocks.length + 1)) (blockOf t) coins')
    (hbuild : ∀ mtp, ∃ w, buildBlockCarried hs wideCore p.now.utxo (p.now.blockMtp ++ [mtp])
      (p.now.done + 1) (blockOf t) p.now.forest.beginJournal = some w)
    (hover : overwriteOf p.now.smt (scriptTxid t)
      (p.now.done + 1 = 91842 ∨ p.now.done + 1 = 91880) = some o) :
    ∃ p', Quiet hs (blocks ++ [blockOf t]) coins' p' ∧
      p'.now.smt = enterCoinbase hs p.now.smt (scriptTxid t)
        (UInt32.ofNat (t.vout.filter fun o => outSpendable o.scriptPubKey).length)
        (p.now.done + 1 = 91842 ∨ p.now.done + 1 = 91880) ∧
      (p'.dir.get? (blocks.length + 1)).isSome ∧
      heldAt p'.trail p'.now.held blocks.length = some p.now.held := by
  have hdone : p.now.done.toNat = blocks.length := h.walk.done
  have hmax : p.now.done ≠ 0xffffffff := by
    intro heq
    rw [heq] at hdone
    change 4294967295 = blocks.length at hdone
    omega
  obtain ⟨now, u, hadvance, hstep, hwin, hheight, hsmt⟩ :=
    p.exists_advance 288 "" rfl hmax h.win hbuild hover
  obtain ⟨trace, hfollows, hfine⟩ := h.run
  have hlength : p.trail.length = blocks.length := by rw [← h.trail, List.length_map]
  refine ⟨_, ⟨⟨_, hfollows.snoc hstep, ?_⟩, ?_, h.chain.connect hblock, ?_, hwin⟩, hsmt, ?_, ?_⟩
  · intro t ht
    rcases List.mem_append.mp ht with hold | hnew
    · exact hfine t hold
    · rw [List.mem_singleton.mp hnew]
      exact ⟨_, rfl⟩
  · dsimp only
    rw [List.map_append, h.trail]
    rfl
  · exact h.walk.advance hleaf h.chain hroom hblock (Standing.advance_toResident hadvance)
  · have hself : (pushUndo p.dir u 288 .fine).get? u.height.toNat = some u :=
      get?_pushUndo_self p.dir u 288 rfl
    rw [hheight, h.next, UInt32.toNat_ofNat', Nat.mod_eq_of_lt hlen] at hself
    dsimp only
    rw [hself]
    rfl
  · dsimp only
    rw [← hlength, heldAt_concat (le_refl _), heldAt_length]

/-- One block more, where no coinbase may be overwritten. -/
theorem Quiet.advance_early {t : Transaction} (h : Quiet hs blocks coins p) (hleaf : hs.LeafInjective)
    (hroom : coins.entries.length ≤ 2 ^ 32) (hlen : blocks.length + 1 < 91842)
    (hnew : ∀ v, coins.get? ⟨scriptTxid t, v⟩ = none) :
    ∃ p', Quiet hs (blocks ++ [blockOf t])
        (coins.insertAll (spendableOutputs wideCore (UInt32.ofNat (blocks.length + 1)) true t)) p' ∧
      p'.now.smt = enterCoinbase hs p.now.smt (scriptTxid t)
        (UInt32.ofNat (t.vout.filter fun o => outSpendable o.scriptPubKey).length) false ∧
      (p'.dir.get? (blocks.length + 1)).isSome := by
  have hearly : (p.now.done + 1).toNat < 91842 := by
    rw [h.next, UInt32.toNat_ofNat', Nat.mod_eq_of_lt (by omega)]
    exact hlen
  have hbuild : ∀ mtp, ∃ w, buildBlockCarried hs wideCore p.now.utxo (p.now.blockMtp ++ [mtp])
      (p.now.done + 1) (blockOf t) p.now.forest.beginJournal = some w := by
    intro mtp
    obtain ⟨w, hw, -⟩ : ∃ w, buildBlockCarried hs wideCore p.now.utxo (p.now.blockMtp ++ [mtp])
        (p.now.done + 1) (blockOf t) p.now.forest.beginJournal = some w ∧
        Forest.Kept hs.parent w.forest w.forest.leaves :=
      exists_buildBlockCarried rfl (overwrittenHeight_of_early hearly)
        ⟨rfl, h.walk.tracks.cache.cache⟩
    exact ⟨w, hw⟩
  have hspecial : decide (p.now.done + 1 = 91842 ∨ p.now.done + 1 = 91880) = false :=
    decide_eq_false (not_or.mpr (ne_of_early hearly))
  obtain ⟨p', hp', hsmt, hdir, -⟩ := h.advance (o := none) hleaf hroom (by omega)
    (connectBlock_coinbase (.inl hnew)) hbuild (by rw [hspecial]; rfl)
  rw [hspecial] at hsmt
  exact ⟨p', hp', hsmt, hdir⟩

/-- Any number of blocks without a spendable output: neither the coins nor the tree change. -/
theorem Quiet.advance_data (h : Quiet hs blocks coins p) (hleaf : hs.LeafInjective)
    (hroom : coins.entries.length ≤ 2 ^ 32)
    (hnew : ∀ v, coins.get? ⟨scriptTxid dataCoinbase, v⟩ = none) {j : ℕ}
    (hlen : blocks.length + j < 91842) :
    ∃ p', Quiet hs (blocks ++ List.replicate j (blockOf dataCoinbase)) coins p' ∧
      p'.now.smt = p.now.smt := by
  induction j with
  | zero =>
    refine ⟨p, ?_, rfl⟩
    rw [List.replicate_zero, List.append_nil]
    exact h
  | succ j ih =>
    obtain ⟨p₁, hp₁, hsmt₁⟩ := ih (by omega)
    obtain ⟨p₂, hp₂, hsmt₂, -⟩ := hp₁.advance_early (t := dataCoinbase) hleaf hroom
      (by rw [List.length_append, List.length_replicate]; omega) hnew
    refine ⟨p₂, ?_, hsmt₂.trans hsmt₁⟩
    rw [spendableOutputs_data, List.append_assoc] at hp₂
    rw [List.replicate_succ']
    exact hp₂

/-- The coinbase at height `n + 1`, and blocks without a spendable output before and after it. -/
def oneCoin (n m : ℕ) : List Block :=
  List.replicate n (blockOf dataCoinbase) ++ [blockOf repeatedCoinbase] ++
    List.replicate m (blockOf dataCoinbase)

theorem length_oneCoin (n m : ℕ) : (oneCoin n m).length = n + 1 + m := by
  unfold oneCoin
  rw [List.length_append, List.length_append, List.length_replicate, List.length_replicate,
    List.length_singleton]

/-- The one coin is that coinbase's, and the tree counts it. -/
theorem exists_oneCoin (hleaf : hs.LeafInjective) {n m : ℕ} (hlen : n + 1 + m < 91842) :
    ∃ p, Quiet hs (oneCoin n m)
        (SortedMap.empty.insertAll [repeatedCoin (UInt32.ofNat (n + 1))]) p ∧
      p.now.smt.get (scriptTxid repeatedCoinbase) = some 1 := by
  obtain ⟨p₁, hp₁, hsmt₁⟩ := (Quiet.start hs).advance_data (j := n) hleaf
    (Nat.zero_le _) (fun _ => rfl) (by rw [List.length_nil]; omega)
  rw [List.nil_append] at hp₁
  have hbefore : (List.replicate n (blockOf dataCoinbase)).length = n := List.length_replicate
  obtain ⟨p₂, hp₂, hsmt₂, -⟩ := hp₁.advance_early (t := repeatedCoinbase) hleaf (Nat.zero_le _)
    (by rw [hbefore]; omega) (fun _ => rfl)
  rw [hbefore, spendableOutputs_repeated] at hp₂
  have hnew : ∀ v, (SortedMap.empty.insertAll [repeatedCoin (UInt32.ofNat (n + 1))] : Utxo).get?
      ⟨scriptTxid dataCoinbase, v⟩ = none := by
    intro v
    refine SortedMap.get?_insertAll_of_notMem ?_
    intro hmem
    exact scriptTxid_ne (congrArg Outpoint.txid (List.mem_singleton.mp hmem))
  have hroom : (SortedMap.empty.insertAll [repeatedCoin (UInt32.ofNat (n + 1))] :
      Utxo).entries.length ≤ 2 ^ 32 := Nat.one_le_two_pow
  obtain ⟨p₃, hp₃, hsmt₃⟩ := hp₂.advance_data (j := m) hleaf hroom hnew
    (by rw [List.length_append, hbefore, List.length_singleton]; omega)
  refine ⟨p₃, hp₃, ?_⟩
  have hcached : p₁.now.smt.Cached hs := by
    rw [hsmt₁]
    exact Smt.cached_new
  have hcount : (repeatedCoinbase.vout.filter fun o => outSpendable o.scriptPubKey).length = 1 :=
    rfl
  have hone : UInt32.ofNat 1 > 0 := by decide
  rw [hsmt₃, hsmt₂, hcount]
  unfold enterCoinbase
  rw [if_pos hone, hcached.get_insert, Function.update_self, stored_of_pos hone]
  rfl

/-! ## The second coinbase, and back -/

omit [DecidableEq H] in
theorem exists_prove {F : Forest H} {i : ℕ} (hF : Forest.Kept hs.parent F F.leaves)
    (hroom : F.leaves.length ≤ 2 ^ 32) (hi : i < F.leaves.length) : ∃ proof, F.prove i = some proof := by
  have hlarge : F.leaves.length < 2 ^ 64 := lt_of_le_of_lt hroom (by decide)
  obtain ⟨proof, hproof, -⟩ := @Accumulator.Reference.naiveProve_located H hs.parent _ _ hi hlarge
  rw [Forest.prove_of_isCache hF.cache]
  exact ⟨proof, hproof⟩

/-- A leaf that is there can be superseded. -/
theorem exists_deleteSuperseded {F : Forest H} {leaf : H} (dels : List (Guest.Bip30Del H))
    (hF : Forest.Kept hs.parent F F.leaves) (hindex : F.IndexKept)
    (hroom : F.leaves.length ≤ 2 ^ 32) (hmem : leaf ∈ F.leaves) :
    ∃ r, deleteSuperseded hs (F, dels) leaf = some r ∧ Forest.Kept hs.parent r.1 r.1.leaves := by
  obtain ⟨pos, hfind⟩ := Option.isSome_iff_exists.mp (hindex.find_isSome hmem)
  have hlt := (List.getElem?_eq_some_iff.mp (hindex.getElem?_find hroom hfind)).1
  obtain ⟨proofI, hproofI⟩ := exists_prove hF hroom hlt
  obtain ⟨proofLast, hproofLast⟩ := exists_prove hF hroom (i := F.leaves.length - 1) (by omega)
  have hrel := hF.delete pos
  unfold Accumulator.ListModel.delete at hrel
  rw [if_pos hlt] at hrel
  cases hdelete : F.delete hs.parent pos with
  | none =>
    rw [hdelete] at hrel
    cases hrel
  | some G =>
    rw [hdelete] at hrel
    cases hrel with
    | some hkept =>
      refine ⟨(G, dels ++ [⟨UInt64.ofNat pos, proofI, proofLast⟩]), ?_, ⟨rfl, hkept.cache⟩⟩
      unfold deleteSuperseded
      simp only [hfind, hproofI, hproofLast, hdelete, Option.bind_eq_bind, Option.bind_some]

/-- The coin of height 91812 gives way to that of height 91842: its leaf is in the forest, with the
    time of its own block. -/
theorem exists_overwrite {F : Forest H} {blockMtp : List UInt32} (mtp : UInt32)
    (hleaf : hs.LeafInjective) (hlen : 91812 < blockMtp.length)
    (h : Tracks hs blockMtp F (SortedMap.empty.insertAll [repeatedCoin 91812])) :
    ∃ r, overwrite hs wideCore repeatedCoinbase (blockMtp ++ [mtp]) 91842 F = some r ∧
      Forest.Kept hs.parent r.1 r.1.leaves := by
  have hleaves : supersededLeaves hs wideCore repeatedCoinbase 91812
      ((blockMtp ++ [mtp]).getD 91812 0) = [leafOf hs blockMtp (repeatedCoin 91812)] := by
    unfold supersededLeaves
    rw [spendableOutputs_repeated, List.map_singleton, List.getD_append _ _ _ _ hlen]
    rfl
  have hmem : leafOf hs blockMtp (repeatedCoin 91812) ∈ F.leaves := by
    apply (h.mem_leaves hleaf).mpr
    exact SortedMap.get?_insertAll_of_mem (List.nodup_singleton _) (List.mem_singleton_self _)
  have hroom : F.leaves.length ≤ 2 ^ 32 := by
    rw [h.length]
    exact Nat.one_le_two_pow
  obtain ⟨r, hr, hkept⟩ := exists_deleteSuperseded [] h.cache h.index hroom hmem
  have hat : overwrittenHeight 91842 = some 91812 := rfl
  refine ⟨(r.1, some ⟨91812, (blockMtp ++ [mtp]).getD 91812 0, r.2⟩), ?_, hkept⟩
  unfold overwrite
  rw [hat]
  change Option.bind (List.foldlM _ _ (supersededLeaves hs wideCore repeatedCoinbase 91812
    ((blockMtp ++ [mtp]).getD 91812 0))) _ = _
  rw [hleaves, List.foldlM_cons, hr]
  rfl

/-- The bridge takes the block of height 91842, and there is a record of it. What was held below has
    the coin of height 91812. -/
theorem exists_repeated (hleaf : hs.LeafInjective) :
    ∃ coins p held, Quiet hs (oneCoin 91811 29 ++ [blockOf repeatedCoinbase]) coins p ∧
      (p.dir.get? 91842).isSome ∧ heldAt p.trail p.now.held 91841 = some held ∧
      held.utxo = SortedMap.empty.insertAll [repeatedCoin 91812] := by
  -- the run up to height 91841, with the one coin of 91812 unspent
  obtain ⟨p, hp, hcount⟩ := exists_oneCoin (n := 91811) (m := 29) hleaf (by omega)
  have hlen : (oneCoin 91811 29).length = 91841 := length_oneCoin 91811 29
  have hcoin : UInt32.ofNat (91811 + 1) = 91812 := rfl
  have hnext : p.now.done + 1 = 91842 := by
    rw [hp.next, hlen]
    rfl
  rw [hcoin] at hp
  have hroom : (SortedMap.empty.insertAll [repeatedCoin 91812] : Utxo).entries.length ≤ 2 ^ 32 :=
    Nat.one_le_two_pow
  have hbuild : ∀ mtp, ∃ w, buildBlockCarried hs wideCore p.now.utxo (p.now.blockMtp ++ [mtp])
      (p.now.done + 1) (blockOf repeatedCoinbase) p.now.forest.beginJournal = some w := by
    intro mtp
    have htracks : Tracks hs p.now.blockMtp p.now.forest.beginJournal
        (SortedMap.empty.insertAll [repeatedCoin 91812]) := by
      have hwalk := hp.walk.tracks
      rw [hp.walk.utxo] at hwalk
      exact ⟨⟨rfl, hwalk.cache.cache⟩, hwalk.index, hwalk.leaves⟩
    -- BIP30 does not refuse the overwrite at 91842
    obtain ⟨⟨G, bip30⟩, hover, hkept⟩ := exists_overwrite mtp hleaf
      (by rw [hp.walk.blockMtp, hlen]; omega) htracks
    rw [hnext]
    obtain ⟨w, hw, -⟩ := @buildBlockCarried_coinbase H _ hs wideCore (blockOf repeatedCoinbase)
      repeatedCoinbase p.now.utxo _ _ _ _ _ rfl htracks.cache hkept hover
    exact ⟨w, hw⟩
  have hspecial : decide (p.now.done + 1 = 91842 ∨ p.now.done + 1 = 91880) = true :=
    decide_eq_true (.inl hnext)
  -- the coinbase that it overwrites has one coin in the counts
  have hover : overwriteOf p.now.smt (scriptTxid repeatedCoinbase)
      (p.now.done + 1 = 91842 ∨ p.now.done + 1 = 91880) = some (some 1) := by
    rw [hspecial]
    unfold overwriteOf
    rw [if_pos rfl, hcount]
    rfl
  have hmay : (overwrittenHeight (UInt32.ofNat ((oneCoin 91811 29).length + 1))).isSome := by
    rw [hlen]
    rfl
  have hblock : ConnectBlock wideCore (SortedMap.empty.insertAll [repeatedCoin 91812])
      (UInt32.ofNat ((oneCoin 91811 29).length + 1)) (blockOf repeatedCoinbase) _ :=
    connectBlock_coinbase (.inr hmay)
  -- one more step, whose undo file is kept
  obtain ⟨p', hp', -, hdir, hheld⟩ := hp.advance hleaf hroom (by rw [hlen]; omega) hblock hbuild
    hover
  rw [hlen] at hdir hheld
  exact ⟨_, p', _, hp', hdir, hheld, hp.walk.utxo⟩

theorem covers_repeated :
    Covers wideCore 91842 [blockOf repeatedCoinbase] ⟨scriptTxid repeatedCoinbase, 0⟩ := by
  refine .inl ?_
  exact List.mem_singleton_self _

omit [DecidableEq H] in
theorem meets_of_fine {trace : List (Process H × Event × Process H)}
    (h : ∀ t ∈ trace, ∃ block, t.2.1 = .advance "" block .fine) :
    ∀ t ∈ trace, t.1.Meets core t.2.1 := by
  intro t ht
  obtain ⟨block, heq⟩ := h t ht
  rw [heq]
  exact .inl rfl

/-- Consensus accepts the chain, and the bridge walks it to height 91842 with nothing going wrong. A
    rewind by one block from there is done, and leaves no coin where there was one: the record lists
    the new coin as created and the old one nowhere. -/
theorem rewind_loses_coin : ∃ trace coins p now dir held,
    Process.Follows idealHashing wideCore 288 trace p ∧
      (∀ t ∈ trace, ∃ block, t.2.1 = .advance "" block .fine) ∧
      ValidChain wideCore (p.trail.map Prod.snd) coins ∧
      rewindTo idealHashing p.dir 91841 p.now (fun _ => false) = some (.ok (), now, dir) ∧
      heldAt p.trail p.now.held 91841 = some held ∧
      (held.utxo.get? ⟨scriptTxid repeatedCoinbase, 0⟩).isSome ∧
      now.utxo.get? ⟨scriptTxid repeatedCoinbase, 0⟩ = none := by
  obtain ⟨coins, p, held, hp, hdir, hheld, hutxo⟩ :=
    exists_repeated (idealHashing_tagInjective TAG_LEAF)
  obtain ⟨trace, hfollows, hfine⟩ := hp.run
  have hinv : p.Inv idealHashing wideCore := hfollows.inv (meets_of_fine hfine)
  have hlength : p.trail.length = 91842 := by
    rw [← List.length_map Prod.snd, hp.trail, List.length_append, length_oneCoin,
      List.length_singleton]
  have hdone : p.now.done.toNat = 91842 := by rw [hinv.done, hlength]
  have hblocks : (p.trail.drop 91841).map Prod.snd = [blockOf repeatedCoinbase] := by
    rw [List.map_drop, hp.trail]
    exact List.drop_left' (length_oneCoin 91811 29)
  rcases hinv.rewindTo 91841 (fun _ => false) with ⟨e, -, hnot⟩ | ⟨now, dir, held', hdid, -, hheld',
    hback, -⟩
  · exfalso
    apply hnot
    refine ⟨?_, ?_⟩
    · apply UInt32.lt_iff_toNat_lt.mpr
      rw [hdone]
      decide
    · intro i hfrom hto
      rw [hdone] at hto
      change 91841 < i at hfrom
      obtain rfl : i = 91842 := by omega
      exact hdir
  · obtain rfl : held = held' := Option.some.inj (hheld.symm.trans hheld')
    have hchain := hp.chain
    rw [← hp.trail] at hchain
    refine ⟨trace, coins, p, now, dir, held, hfollows, hfine, hchain, hdid, hheld, ?_, ?_⟩
    · rw [hutxo]
      rfl
    · refine hback.lost _ ?_
      change Covers wideCore 91842 ((p.trail.drop 91841).map Prod.snd) _
      rw [hblocks]
      exact covers_repeated

/-- A block whose coinbase has a coin, and a rewind to genesis, which has none. -/
theorem rewind_restores_genesis : ∃ trace p now dir held,
    Process.Follows idealHashing wideCore 288 trace p ∧
      p.trail.map Prod.snd = [blockOf repeatedCoinbase] ∧
      p.now.utxo.get? (repeatedCoin 1).1 = some (repeatedCoin 1).2 ∧
      rewindTo idealHashing p.dir 0 p.now (fun _ => false) = some (.ok (), now, dir) ∧
      heldAt p.trail p.now.held 0 = some held ∧ held.utxo.get? (repeatedCoin 1).1 = none ∧
      now.held = held := by
  obtain ⟨p, hp, -, hdir⟩ := (Quiet.start idealHashing).advance_early (t := repeatedCoinbase)
    (idealHashing_tagInjective TAG_LEAF) (Nat.zero_le _) (by decide) (fun _ => rfl)
  obtain ⟨trace, hfollows, hfine⟩ := hp.run
  have hinv : p.Inv idealHashing wideCore := hfollows.inv (meets_of_fine hfine)
  have hcoin : p.now.utxo.get? (repeatedCoin 1).1 = some (repeatedCoin 1).2 := by
    have hutxo : p.now.utxo = SortedMap.empty.insertAll [repeatedCoin 1] := hp.walk.utxo
    rw [hutxo]
    exact SortedMap.get?_insertAll_of_mem (List.nodup_singleton _) (List.mem_singleton_self _)
  obtain ⟨r, now, dir, hrewind, hok, -, hrestored⟩ :=
    rewind_restores hfollows (meets_of_fine hfine) 0 (fun _ => false)
  have hdone : p.now.done.toNat = 1 := hp.walk.done
  have hr : r = .ok () := by
    refine hok.mpr ⟨?_, ?_⟩
    · apply UInt32.lt_iff_toNat_lt.mpr
      rw [hdone]
      decide
    · intro i hfrom hto
      rw [hdone] at hto
      change 0 < i at hfrom
      obtain rfl : i = 1 := by omega
      exact hdir
  obtain ⟨-, held, hheld, hiff⟩ := hrestored hr
  have hstart : ∀ held', heldAt p.trail p.now.held 0 = some held' → held'.utxo = .empty := by
    intro held' hheld'
    rw [hinv.start] at hheld'
    obtain rfl := Option.some.inj hheld'
    rfl
  rw [hr] at hrewind
  refine ⟨trace, p, now, dir, held, hfollows, hp.trail, hcoin, hrewind, hheld, ?_, hiff.mpr ?_⟩
  · rw [hstart held hheld]
    rfl
  · -- the coin is put in over nothing
    intro held' hheld' k _
    rw [hstart held' hheld']
    rfl

end Bridge
end Hazync
