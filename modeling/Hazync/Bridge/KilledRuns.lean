import Hazync.Bridge.BundleRuns
import Hazync.Bridge.FollowReorg
import Hazync.Bridge.Killed

/-!
# Runs that are cut off

A bridge that is killed any number of times, after any of its operations on a file, stands at each
call on the replay of blocks that it has fetched, and so does what is in its checkpoint. What it
finds beside the checkpoint, of records and of bundles, is of those blocks (`survives_kills`).

The checkpoint may be far below the blocks that were taken last, so a process that is started takes
some of them again; the node may have others by then. The records and the bundles of the first time
are above the checkpoint and are written anew as their heights come up. So what is at or below the
height is of one walk, and the theorem says nothing of files above it.

The example kills the bridge between the record and the bundle of the first block: the record is
there, the bundle is not, and the next process starts at genesis and takes the block again.
-/

namespace Hazync
namespace Bridge

open ByteStrings
open Guest (Core)

section

variable {H : Type} {hs : Hashing H} [DecidableEq H] {core : Core} {ser : Serializer}
  {cfg : WriteSettings} {b : Service H} {trace : List (Service H × Turn × Service H)}

theorem Service.Follows.inv (h : Service.Follows hs core ser cfg trace b)
    (hmeets : ∀ t ∈ trace, t.1.Meets hs core cfg t.2.1) : b.Inv hs core ser cfg := by
  refine (Runs.Run.restrict (q := fun b t _ => b.Meets hs core cfg t) h hmeets).invariant ?_ ?_
  · rintro b rfl
    exact .empty
  · intro b t b' hb hstep
    exact hb.step hstep.2 hstep.1.2

/-- The blocks that are applied are one chain, where each fetch meets a chain that has the last of
    them; a kill takes blocks off the end only. -/
theorem Service.Follows.linked (h : Service.Follows hs core ser cfg trace b)
    (hmeets : ∀ t ∈ trace, t.1.Meets hs core cfg t.2.1)
    (hstays : ∀ t ∈ trace, t.1.follower.Stays hs t.2.1.call) : Linked hs b.applied := by
  induction h with
  | nil hstart =>
    subst hstart
    exact .nil
  | @snoc trace b b' t hrun hstep ih =>
    have hbefore : ∀ t ∈ trace, t.1.Meets hs core cfg t.2.1 :=
      fun t ht => hmeets t (List.mem_append_left _ ht)
    have hlast : (b, t, b') ∈ trace ++ [(b, t, b')] :=
      List.mem_append_right _ (List.mem_singleton_self _)
    have hlinked := ih hbefore fun t ht => hstays t (List.mem_append_left _ ht)
    exact (Service.Follows.inv hrun hbefore).linked_step (hmeets _ hlast) hlinked hstep.1
      (hstays _ hlast) hstep.2

theorem Service.Inv.replayed (h : b.Inv hs core ser cfg) : Replayed hs core b.applied b.now := by
  obtain ⟨head, hinv⟩ := h.steady
  exact hinv.replayed

omit [DecidableEq H] in
/-- The last block of a part of a list. -/
theorem getElem?_of_part {blocks pre : List Block} {block : Block}
    (hle : pre ++ [block] <+: blocks) :
    blocks[pre.length]? = some block ∧ blocks.take pre.length = pre := by
  obtain ⟨rest, rfl⟩ := hle
  rw [List.append_assoc, List.singleton_append]
  refine ⟨?_, List.take_left⟩
  rw [List.getElem?_append_right (le_refl _), Nat.sub_self]
  rfl

/-- **The bridge survives being killed** after any of its operations on a file, any number of times,
whatever the node does in between. It stands on the replay of the blocks that it has applied; its
checkpoint is the replay of the first of them, and so it is what a next process goes on from. The
bundle at a height is the one that a walk over the blocks below makes of the block there, and the
record there is of that block. The blocks are one chain where each fetch met the last of them. -/
theorem survives_kills (h : Service.Follows hs core ser cfg trace b)
    (hmeets : ∀ t ∈ trace, t.1.Meets hs core cfg t.2.1) :
    Replayed hs core b.applied b.now ∧
      (∀ s below, b.files.state = some (s, below) →
        Replayed hs core (below.map Prod.snd) (s.resumed hs) ∧
          below.map Prod.snd <+: b.applied) ∧
      (∀ pre block x, pre ++ [block] <+: b.applied →
        b.files.bundles.get? (pre.length + 1) = some x →
          ∃ s, Replayed hs core pre s ∧ x = s.bundle hs core ser block) ∧
      (∀ pre block u, pre ++ [block] <+: b.applied →
        b.files.undo.get? (pre.length + 1) = some u →
          u.blockHash = displayHash (block.hash hs)) ∧
      ((∀ t ∈ trace, t.1.follower.Stays hs t.2.1.call) → Linked hs b.applied) := by
  have hinv := h.inv hmeets
  obtain ⟨head, hloop⟩ := hinv.steady
  refine ⟨hinv.replayed, ?_, ?_, ?_, h.linked hmeets⟩
  · intro s below hstate
    have hnext := hinv.restart.replayed
    have htrail := hinv.start_spec.1
    unfold Service.applied Service.start at hnext
    unfold Service.start at htrail
    dsimp only at hnext htrail
    rw [hstate] at hnext htrail
    refine ⟨hnext, ?_⟩
    have hbelow : below = b.trail.take (s.resumed hs).done.toNat := htrail
    rw [hbelow]
    exact (List.take_prefix _ _).map _
  · intro pre block x hle hx
    obtain ⟨hblock, hpre⟩ := getElem?_of_part hle
    obtain ⟨s, hs, heq⟩ := hinv.bundles pre.length block x hblock hx
    rw [hpre] at hs
    exact ⟨s, hs, heq⟩
  · intro pre block u hle hu
    obtain ⟨hblock, -⟩ := getElem?_of_part hle
    have hlt := (List.getElem?_eq_some_iff.mp hblock).1
    obtain ⟨hash, hhash, hname⟩ := hloop.hashes pre.length u hlt hu
    have hat : hashAt hs b.applied (pre.length + 1) = some (block.hash hs) := by
      rw [hashAt_succ, hblock]
      rfl
    have heq : hash = block.hash hs := Option.some.inj (hhash.symm.trans hat)
    rw [hname, heq]

end

section

open Guest.OpTrue

/-- To the tip, with a checkpoint after each block. -/
def eachBlock : WriteSettings := { toTip with emitFrom := 0, ckptEvery := 1 }

def turnOn (chain : List Block) (killed : Option ℕ) : Turn :=
  ⟨callOn chain, fun _ => false, true, killed⟩

/-- The leaves after the first block can be indexed. -/
theorem room_firstBlock {s : Standing Bytes} (h : Replayed idealHashing core [firstBlock] s) :
    s.forest.leaves.length ≤ 2 ^ 32 := by
  have hinv := h.walked.inv (idealHashing_tagInjective TAG_LEAF) validChain_firstBlock
    coinsFit_firstBlock
  rw [hinv.tracks.length, hinv.utxo]
  exact coinsFit_firstBlock _ _ (List.prefix_refl _) validChain_firstBlock

/-- The bridge is killed when it has written the record of the first block and not its bundle. -/
theorem survives_kills_firstBlock : ∃ trace b,
    Service.Follows idealHashing core serializer eachBlock trace b ∧
      (∃ t ∈ trace, t.2.1.killed = some 1) ∧ Replayed idealHashing core b.applied b.now ∧
      Linked idealHashing b.applied := by
  let b₀ : Service Bytes := .start idealHashing .empty
  let b₁ : Service Bytes := { b₀ with phase := .fetch 2 }
  -- the first turn only asks for the count
  have hcount : b₀.follower.step idealHashing core toTip (callOn [firstBlock, laterBlock]) =
      some b₁.follower := step_start rfl
  have hfirst : b₀.step idealHashing core serializer eachBlock
      (turnOn [firstBlock, laterBlock] none) = some b₁ := by
    change (b₀.follower.step idealHashing core toTip (callOn [firstBlock, laterBlock])).map _ = _
    rw [hcount]
    rfl
  -- the second takes block 1 and is killed after one file operation
  obtain ⟨b₂, hsecond⟩ : ∃ b₂, b₁.step idealHashing core serializer eachBlock
      (turnOn [firstBlock, laterBlock] (some 1)) = some b₂ := ⟨_, rfl⟩
  have hrun₀ : Service.Follows idealHashing core serializer eachBlock [] b₀ := .nil rfl
  have hrun₁ := Runs.Run.snoc hrun₀ ⟨linked_firstBlocks, hfirst⟩
  have hrun₂ := Runs.Run.snoc hrun₁ ⟨linked_firstBlocks, hsecond⟩
  have hinv : b₁.follower.Inv idealHashing core := Follower.Inv.start.rephase nofun
  -- one block of one coin fits the positions
  have hroom : ∀ f, b₁.follower.step idealHashing core toTip
      (callOn [firstBlock, laterBlock]) = some f → f.process.now.forest.leaves.length ≤ 2 ^ 32 := by
    intro f hf
    have hmeets : b₁.follower.Meets idealHashing core (callOn [firstBlock, laterBlock]) :=
      ⟨fun _ _ => .inl rfl, fun _ _ _ hphase => nomatch hphase⟩
    have hreplayed := (hinv.step hmeets hf).replayed
    rcases hinv.applied_step hf with ⟨hphase, -⟩ | ⟨target, block, -, hblock, happlied⟩
    · exact absurd rfl (hphase 2)
    · obtain rfl := Option.some.inj hblock
      rw [happlied] at hreplayed
      exact room_firstBlock hreplayed
  obtain ⟨hreplayed, -, -, -, hlinked⟩ := survives_kills hrun₂ (by
    intro t ht
    simp only [List.nil_append, List.cons_append, List.mem_cons, List.not_mem_nil, or_false] at ht
    rcases ht with rfl | rfl
    · refine ⟨⟨fun _ hphase => (nomatch hphase), fun _ _ _ hphase => (nomatch hphase)⟩, ?_⟩
      intro f hf
      obtain rfl := Option.some.inj (hcount.symm.trans hf)
      exact Nat.zero_le _
    · exact ⟨⟨fun _ _ => .inl rfl, fun _ _ _ hphase => nomatch hphase⟩, hroom⟩)
  refine ⟨_, b₂, hrun₂, ⟨_, List.mem_append_right _ (List.mem_singleton_self _), rfl⟩, hreplayed,
    hlinked ?_⟩
  intro t ht
  simp only [List.nil_append, List.cons_append, List.mem_cons, List.not_mem_nil, or_false] at ht
  rcases ht with rfl | rfl
  · exact fun _ hphase => nomatch hphase
  · exact fun _ _ => rfl

end

end Bridge
end Hazync
