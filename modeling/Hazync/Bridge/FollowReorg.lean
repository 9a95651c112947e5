import Hazync.Bridge.FollowRuns
import Hazync.Bridge.RewindOverwrite

/-!
# A reorganisation between two fetches

The node has one chain of two blocks at the count and at the first fetch, and another one of the
same length from then on. The bridge takes the first block of the one and the second of the other.
At its next pass it asks for the hash at the height of the second, and all is as it should be.

The pass at the end of the run compares at the height of the last block only, where the bridge has
the node's own block. So the mixture stays, and the bundles that were written of it are of no chain.

The hash of this run is its own Merkle root field, which makes headers easy to tell apart; the
blocks have a coinbase alone, whose output is unspendable, so that the accumulator stays empty. The
second run of the file is one with a fork that is noticed.
-/

namespace Hazync
namespace Bridge

open ByteStrings
open Guest (Core Transaction GENESIS_HASH)

variable {H : Type} [DecidableEq H] {hs : Hashing H} {core : Core} {cfg : Settings}
  {f : Follower H} {call : Call} {block : Block} {coinbase : Transaction}

/-- A block that has a coinbase alone is fetched: nothing about its coinbase can stop the bridge
    below the two heights that overwrite. -/
theorem Follower.exists_fetch (f : Follower H) (core : Core) (cfg : Settings) (call : Call)
    {target : UInt32} (hphase : f.phase = .fetch target)
    (hkeep : cfg.undoKeep = 288) (hfine : call.outcome = .fine) (hlow : f.done.toNat < 288)
    (hsound : f.process.now.Sound hs) (hwin : f.process.now.win ≠ [])
    (hget : call.chain[f.done.toNat]? = some block) (hblock : block.txdata = [coinbase]) :
    ∃ f', f.step hs core cfg call = some f' ∧ f'.process.now.Sound hs ∧
      f'.process.now.win ≠ [] ∧ f'.done.toNat = f.done.toNat + 1 ∧
      f'.applied = f.applied ++ [block] ∧ f'.halted = f.halted ∧
      f'.phase = (if f.done + 1 < target then .fetch target else .top) ∧
      (∀ i, i ≤ f.done.toNat → f'.process.dir.get? i = f.process.dir.get? i) ∧
      (f'.process.dir.get? (f.done.toNat + 1)).isSome := by
  have hnext : (f.process.now.done + 1).toNat = f.done.toNat + 1 := by
    rw [UInt32.toNat_add, UInt32.toNat_one]
    exact Nat.mod_eq_of_lt (by unfold Follower.done at hlow; omega)
  -- below the first overwritten height, and with a coinbase only, no step of the block can fail
  have hearly : (f.process.now.done + 1).toNat < 91842 := by omega
  have hmax : f.process.now.done ≠ 0xffffffff := by
    intro heq
    unfold Follower.done at hlow
    rw [heq] at hlow
    exact absurd hlow (by decide)
  have hbuild : ∀ mtp, ∃ w, buildBlockCarried hs core f.process.now.utxo
      (f.process.now.blockMtp ++ [mtp]) (f.process.now.done + 1) block
      f.process.now.forest.beginJournal = some w := by
    intro mtp
    obtain ⟨w, hw, -⟩ : ∃ w, buildBlockCarried hs core f.process.now.utxo
        (f.process.now.blockMtp ++ [mtp]) (f.process.now.done + 1) block
        f.process.now.forest.beginJournal = some w ∧
        Accumulator.Forest.Kept hs.parent w.forest w.forest.leaves :=
      exists_buildBlockCarried hblock (overwrittenHeight_of_early hearly)
        ⟨rfl, hsound.forest.cache⟩
    exact ⟨w, hw⟩
  have hover : overwriteOf f.process.now.smt (core.getHash coinbase)
      (f.process.now.done + 1 = 91842 ∨ f.process.now.done + 1 = 91880) = some none := by
    rw [decide_eq_false (not_or.mpr (ne_of_early hearly))]
    rfl
  obtain ⟨now, u, hadvance, hstep, hwin', hheight, -⟩ :=
    f.process.exists_advance 288 (displayHash (block.hash hs)) hblock hmax hwin hbuild hover
  obtain ⟨hsound', hdone, -, -⟩ := hsound.advance hadvance
  -- the undo file is kept, and none is old enough to be deleted
  have hdir : pushUndo f.process.dir u 288 .fine = f.process.dir.insert (f.done.toNat + 1) u := by
    have hnot : ¬ u.height > 288 := by
      rw [hheight, gt_iff_lt, UInt32.lt_iff_toNat_lt, hnext]
      change ¬ 288 < _
      omega
    change (if u.height > 288 then _ else f.process.dir.insert u.height.toNat u) = _
    rw [if_neg hnot, hheight, hnext]
  refine ⟨{ f with
    process := { f.process with
      now := now
      dir := pushUndo f.process.dir u 288 .fine
      trail := f.process.trail ++ [(f.process.now.held, block)] }
    head := some (displayHash (block.hash hs))
    phase := if now.done < target then .fetch target else .top },
    ?_, hsound', hwin', hdone, ?_, rfl, ?_, ?_, ?_⟩
  · unfold Follower.step
    rw [hphase]
    change (call.chain[f.done.toNat]?).bind _ = _
    rw [hget, Option.bind_some, hkeep, hfine]
    change (f.process.step hs core 288 _).bind _ = _
    rw [hstep]
    rfl
  · exact List.map_append
  · have heq : now.done = f.done + 1 := UInt32.toNat_inj.mp (hdone.trans hnext.symm)
    rw [heq]
  · intro i hi
    dsimp only
    rw [hdir, SortedMap.get?_insert, Function.update_of_ne (by omega)]
  · dsimp only
    rw [hdir, SortedMap.get?_insert, Function.update_self]
    rfl

/-! ## Two chains -/

theorem getD_idealBytes (b : Bytes) (i : ℕ) : (idealBytes b).getD (2 * i + 1) 0 = b.getD i 0 := by
  induction b generalizing i with
  | nil =>
    cases i with
    | zero => rfl
    | succ i => rfl
  | cons x b ih =>
    cases i with
    | zero => rfl
    | succ i => exact ih i

/-- A hash that is the Merkle root of the header. -/
def rootHashing : Hashing Bytes where
  sha256 := id
  bytes := idealBytes
  digest h := List.Vector.ofFn fun i : Fin 32 => h.getD (2 * (36 + i) + 1) 0
  zero := []
  bytes_append_inj := idealBytes_append_inj

theorem hash_rootHashing (b : Block) : b.hash rootHashing = b.merkleRoot := by
  refine List.Vector.ext fun i => ?_
  change (List.Vector.ofFn fun i : Fin 32 => (idealBytes b.header).getD (2 * (36 + i) + 1) 0).get i
    = _
  rw [List.Vector.get_ofFn, getD_idealBytes]
  have hbefore : (le32 b.version.toUInt32 ++ b.prevBlockhash.toList).length = 36 := by
    rw [List.length_append, length_le32, List.Vector.toList_length]
  have hroot : i.val < b.merkleRoot.toList.length := by
    rw [List.Vector.toList_length]
    exact i.isLt
  unfold Block.header
  simp only [List.append_assoc]
  rw [← List.append_assoc, List.getD_append_right _ _ _ _ (by omega), hbefore,
    Nat.add_sub_cancel_left, List.getD_append _ _ _ _ hroot, List.getD_eq_getElem _ _ hroot,
    List.Vector.get_eq_get_toList]
  rfl

/-- A block on top of another, with a coinbase of data. -/
def blockOn (prev root : Bytes32) : Block :=
  { blockOf dataCoinbase with prevBlockhash := prev, merkleRoot := root }

def rootOf (n : UInt8) : Bytes32 := List.Vector.replicate 32 n

/-- Two blocks from genesis on. -/
def branch (a b : UInt8) : List Block :=
  [blockOn GENESIS_HASH (rootOf a), blockOn (rootOf a) (rootOf b)]

theorem linked_branch (a b : UInt8) : Linked rootHashing (branch a b) := by
  intro h block hget
  match h, hget with
  | 0, hget =>
    obtain rfl := Option.some.inj hget
    rfl
  | 1, hget =>
    obtain rfl := Option.some.inj hget
    change some (Block.hash rootHashing (blockOn GENESIS_HASH (rootOf a))) = _
    rw [hash_rootHashing]
    rfl

/-! ## The run -/

/-- To the tip itself, with the default window. -/
def toTip : Settings := ⟨0, 288, none⟩

/-- A call at which the file system does as it is told. -/
def callOn (chain : List Block) : Call := ⟨chain, .fine, fun _ => false⟩

/-- With two blocks on the node's chain the bridge fetches two: its target is the tip itself, the
    finality of these settings being 0. -/
theorem step_start (hlength : call.chain.length = 2) :
    (Follower.start hs).step hs core toTip call =
      some { Follower.start hs with phase := .fetch 2 } := by
  have hsmall : call.chain.length < 2 ^ 32 := by
    rw [hlength]
    decide
  have hhead : ¬ ((Follower.start hs).head.isSome ∧ 0 < (Follower.start hs).done ∧
      (Follower.start hs).done ≤ UInt32.ofNat call.chain.length) :=
    fun hall => Bool.noConfusion hall.1
  have hmore : ¬ ((Follower.start hs).halted = true ∨ (2 : UInt32) ≤ (Follower.start hs).done) := by
    change ¬ (false = true ∨ (2 : UInt32) ≤ 0)
    decide
  change (if call.chain.length < 2 ^ 32 then _ else none) = _
  rw [if_pos hsmall]
  dsimp only
  rw [if_neg hhead, hlength]
  change some { Follower.start hs with
    phase := if (Follower.start hs).halted = true ∨ (2 : UInt32) ≤ (Follower.start hs).done then
      .top else .fetch 2 } = _
  rw [if_neg hmore]

/-- A count of two, a first block from one branch, and a second one from another. The run meets
    every condition of the results about runs but the one that the blocks stay on the node's
    chain. -/
theorem exists_fetched (a b c d : UInt8) : ∃ trace f,
    Follower.Follows rootHashing wideCore toTip trace f ∧
      (∀ t ∈ trace, t.1.Meets rootHashing wideCore t.2.1) ∧
      f.applied = [blockOn GENESIS_HASH (rootOf a), blockOn (rootOf c) (rootOf d)] ∧
      f.phase = .top ∧ f.halted = false ∧ f.done.toNat = 2 ∧
      (f.process.dir.get? 1).isSome ∧ (f.process.dir.get? 2).isSome := by
  -- the plan, and a block from each of two chains that differ in the second one
  let f₁ : Follower Bytes := { Follower.start rootHashing with phase := .fetch 2 }
  have hstart : (Follower.start rootHashing).step rootHashing wideCore toTip
      (callOn (branch a b)) = some f₁ := step_start rfl
  obtain ⟨f₂, hstep₂, hsound₂, hwin₂, hdone₂, happlied₂, hhalted₂, hphase₂, -, hrecord₂⟩ :=
    f₁.exists_fetch wideCore toTip (callOn (branch a b)) rfl rfl rfl (by decide) .genesis
      (List.cons_ne_nil _ _) rfl rfl
  have hphase₂ : f₂.phase = .fetch 2 := hphase₂
  have hdone₂ : f₂.done.toNat = 1 := hdone₂
  have hsecond : (callOn (branch c d)).chain[f₂.done.toNat]? =
      some (blockOn (rootOf c) (rootOf d)) := by
    rw [hdone₂]
    rfl
  obtain ⟨f₃, hstep₃, -, -, hdone₃, happlied₃, hhalted₃, hphase₃, hkept₃, hrecord₃⟩ :=
    f₂.exists_fetch wideCore toTip (callOn (branch c d)) hphase₂ rfl rfl (by omega) hsound₂ hwin₂
      hsecond rfl
  have htop₃ : f₃.phase = .top := by
    have hone : f₂.done = 1 := UInt32.toNat_inj.mp hdone₂
    rw [hphase₃, hone]
    exact if_neg (by decide)
  have hrun₀ : Follower.Follows rootHashing wideCore toTip [] (.start rootHashing) := .nil rfl
  have hrun₁ := Runs.Run.snoc hrun₀ ⟨linked_branch a b, hstart⟩
  have hrun₂ := Runs.Run.snoc hrun₁ ⟨linked_branch a b, hstep₂⟩
  have hrun₃ := Runs.Run.snoc hrun₂ ⟨linked_branch c d, hstep₃⟩
  refine ⟨_, f₃, hrun₃, ?_, ?_, htop₃, ?_, ?_, ?_, ?_⟩
  · intro t ht
    simp only [List.cons_append, List.nil_append, List.mem_cons, List.not_mem_nil, or_false] at ht
    rcases ht with rfl | rfl | rfl
    · exact ⟨fun _ _ => .inl rfl, fun _ _ _ hphase => nomatch hphase⟩
    · exact ⟨fun _ _ => .inl rfl, fun _ _ _ hphase => nomatch hphase⟩
    · exact ⟨fun _ _ => .inl rfl, fun _ _ _ hphase => nomatch hphase₂.symm.trans hphase⟩
  · rw [happlied₃, happlied₂]
    rfl
  · rw [hhalted₃, hhalted₂]
    rfl
  · rw [hdone₃, hdone₂]
  · rw [hkept₃ 1 hdone₂.ge]
    exact hrecord₂
  · rw [hdone₂] at hrecord₃
    exact hrecord₃

theorem hashAt_two (prev prev' a b : Bytes32) :
    hashAt rootHashing [blockOn prev a, blockOn prev' b] 1 = some a ∧
      hashAt rootHashing [blockOn prev a, blockOn prev' b] 2 = some b :=
  ⟨congrArg some (hash_rootHashing (blockOn prev a)),
    congrArg some (hash_rootHashing (blockOn prev' b))⟩

theorem rootOf_ne {a b : UInt8} (h : a ≠ b) : rootOf a ≠ rootOf b := by
  intro heq
  exact h (congrArg List.Vector.head heq)

/-- **A reorganisation between two fetches.** The bridge has taken a block of each branch, and they
are no chain. The node stays on its branch from then on; a pass of the bridge finds nothing, and
leaves it where it was. -/
theorem mixes_two_branches : ∃ trace f call,
    Follower.Follows rootHashing wideCore toTip trace f ∧
      (∀ t ∈ trace, t.1.Meets rootHashing wideCore t.2.1) ∧
      ¬ Linked rootHashing f.applied ∧ Linked rootHashing call.chain ∧
      hashAt rootHashing call.chain 1 ≠ hashAt rootHashing f.applied 1 ∧
      (∀ i, 1 ≤ i → i ≤ f.done.toNat → (f.process.dir.get? i).isSome) ∧ f.phase = .top ∧
      f.Checks rootHashing wideCore toTip call f := by
  obtain ⟨trace, f, hfollows, hmeets, happlied, hphase, -, hdone, hone, htwo⟩ :=
    exists_fetched 1 2 3 4
  have hinv : f.Inv rootHashing wideCore := hfollows.inv hmeets
  have hours := hashAt_two GENESIS_HASH (rootOf 3) (rootOf 1) (rootOf 4)
  have htheirs : hashAt rootHashing (branch 3 4) 1 = some (rootOf 3) ∧
      hashAt rootHashing (branch 3 4) 2 = some (rootOf 4) := hashAt_two _ _ _ _
  rw [← happlied] at hours
  refine ⟨trace, f, callOn (branch 3 4), hfollows, hmeets, ?_, linked_branch 3 4, ?_, ?_, hphase,
    ?_⟩
  · intro hlinked
    have hlast := hlinked 1 (blockOn (rootOf 3) (rootOf 4)) (by rw [happlied]; rfl)
    rw [hours.1] at hlast
    exact rootOf_ne (by decide) (Option.some.inj hlast)
  · intro heq
    exact rootOf_ne (by decide) (Option.some.inj (htheirs.1.symm.trans (heq.trans hours.1)))
  · intro i hi hto
    obtain rfl | rfl : i = 1 ∨ i = 2 := by omega
    · exact hone
    · exact htwo
  · have hagree : hashAt rootHashing (branch 3 4) f.done.toNat =
        hashAt rootHashing f.applied f.done.toNat := by
      rw [hdone]
      exact htheirs.2.trans hours.2.symm
    have hpass := hinv.check_passes toTip (callOn (branch 3 4)) hphase (by decide) (by omega)
      (by rw [hdone]; exact le_refl 2) hagree
    rwa [f.plan_eq_self toTip hphase] at hpass
    rw [UInt32.le_iff_toNat_le, hdone]
    exact le_refl 2

/-- Two blocks of the node's chain, and a fork at the second: the bridge goes back to the first. -/
theorem follows_one_chain_fork : ∃ trace f call f',
    Follower.Follows rootHashing wideCore toTip trace f ∧
      Replayed rootHashing wideCore f.applied f.process.now ∧ Linked rootHashing f.applied ∧
      hashAt rootHashing call.chain 2 ≠ hashAt rootHashing f.applied 2 ∧
      f.Checks rootHashing wideCore toTip call f' ∧ f'.applied = f.applied.take 1 ∧
      f'.done.toNat = 1 ∧ f'.halted = false := by
  obtain ⟨trace, f, hfollows, hmeets, happlied, hphase, hhalted, hdone, hone, htwo⟩ :=
    exists_fetched 1 2 1 2
  have hlinked : Linked rootHashing f.applied := by
    rw [happlied]
    exact linked_branch 1 2
  have hours := hashAt_two GENESIS_HASH (rootOf 1) (rootOf 1) (rootOf 2)
  have htheirs : hashAt rootHashing (branch 1 5) 1 = some (rootOf 1) ∧
      hashAt rootHashing (branch 1 5) 2 = some (rootOf 5) := hashAt_two _ _ _ _
  rw [← happlied] at hours
  have hfork : hashAt rootHashing (branch 1 5) 2 ≠ hashAt rootHashing f.applied 2 := by
    intro heq
    exact rootOf_ne (by decide) (Option.some.inj (htheirs.2.symm.trans (heq.trans hours.2)))
  obtain ⟨hreplayed, -, hcheck⟩ := follows_one_chain hfollows hmeets
  obtain ⟨-, hlong⟩ := hcheck (callOn (branch 1 5)) hphase hlinked (linked_branch 1 5) (by decide)
  -- a collision, a way back to a common block, or a halt
  rcases hlong (by rw [hdone]; exact le_refl 2) ⟨2, hdone.ge, hfork⟩ with hcollide | ⟨f', hchecks,
    ⟨m, hcommon, hparted, happlied', hdone', hhalted'⟩ | ⟨hnone, -⟩⟩
  · exfalso
    obtain ⟨b, hb, b', hb', hhash, hheader⟩ := hcollide
    rw [hash_rootHashing, hash_rootHashing] at hhash
    rw [happlied] at hb'
    simp only [callOn, branch, List.mem_cons, List.not_mem_nil, or_false] at hb hb'
    rcases hb with rfl | rfl <;> rcases hb' with rfl | rfl
    · exact hheader rfl
    · exact rootOf_ne (by decide) hhash
    · exact rootOf_ne (by decide) hhash
    · exact rootOf_ne (by decide) hhash
  · have hm : m = 1 := by
      have hle := hcommon.le
      have hpos := hcommon.pos
      have htop : m ≠ 2 := by
        rintro rfl
        exact hfork hcommon.agrees
      unfold Follower.done at hdone
      omega
    subst hm
    exact ⟨trace, f, _, f', hfollows, hreplayed, hlinked, hfork, hchecks, happlied', hdone',
      hhalted'.trans hhalted⟩
  -- the first block is common, so the follower does not halt
  · refine absurd ⟨le_refl 1, ?_, ?_, htheirs.1.trans hours.1.symm⟩ (hnone 1)
    · exact hdone ▸ (by decide : 1 ≤ 2)
    · intro i hi hto
      obtain rfl | rfl : i = 1 ∨ i = 2 := by
        unfold Follower.done at hdone
        omega
      · exact hone
      · exact htwo

end Bridge
end Hazync
