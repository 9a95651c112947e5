import Hazync.Bridge.RewindRuns

/-!
# What the bridge holds is the replay of its blocks

All that the bridge holds is determined by the leaves, the map, the tree, the windows and the header
fields (`Standing.Exact.eq`): the levels and the index of the forest follow from the leaves. So a
rewind that puts those back puts the bridge where a walk over the blocks that are left would be.

`Replayed` is the specification that the results on rewinds and restarts are stated with: the state
of a process that has walked these blocks from genesis, was never killed and never went back. Two
states that hold the same leaves, map, tree and fields are the same state (`Standing.Exact.eq`),
since the rest is kept in a form that these determine.
-/

namespace Hazync
namespace Bridge

open Accumulator (Forest)
open Guest (Core)

variable {H : Type} [DecidableEq H] {hs : Hashing H} {core : Core} {block : Block}
  {blocks : List Block} {s s' : Standing H} {u : BlockUndo H} {dir : UndoDir H}

/-- The walk over a list of blocks. -/
inductive Replayed (hs : Hashing H) (core : Core) : List Block → Standing H → Prop
  | genesis : Replayed hs core [] (.genesis hs)
  | block {blocks : List Block} {s s' : Standing H} {hash : String} {block : Block}
      {u : BlockUndo H} (h : Replayed hs core blocks s)
      (hadvance : s.advance hs core hash block = some (s', u)) :
      Replayed hs core (blocks ++ [block]) s'

/-- The index is kept, and nothing is recorded. -/
structure Indexed (F : Forest H) : Prop where
  index : F.IndexKept
  journal : F.journal = none

/-- Nothing in it is other than its leaves, its map and so on make it. -/
structure Standing.Exact (hs : Hashing H) (s : Standing H) : Prop where
  sound : s.Sound hs
  forest : Indexed s.forest

theorem Standing.Exact.genesis : (Standing.genesis hs).Exact hs := ⟨.genesis, .new, rfl⟩

/-- A block keeps it: the levels, the index and the tree's cache stay what they are to be, and the
    journal is off again when the block is done. -/
theorem Standing.Exact.advance {hash : String} (h : s.Exact hs)
    (hadvance : s.advance hs core hash block = some (s', u)) : s'.Exact hs := by
  refine ⟨(h.sound.advance hadvance).1, ?_⟩
  unfold Standing.advance at hadvance
  rw [Option.ite_none_left_eq_some] at hadvance
  obtain ⟨-, hadvance⟩ := hadvance
  simp only [Option.bind_eq_bind, Option.bind_eq_some_iff, Option.some.injEq] at hadvance
  obtain ⟨⟨win, blockMtp⟩, hpush, w, hw, coinbase, -, ⟨wit, prior, smt⟩, -, heq⟩ := hadvance
  obtain ⟨rfl, -⟩ := Prod.mk.inj heq
  have hstart : s.forest.beginJournal.IndexKept := h.forest.index
  have hindex : w.forest.IndexKept :=
    forest_of_buildBlockCarried (fun _ leaf hF => hF.add leaf) (fun _ _ _ hF hdel => hF.delete hdel)
      hstart hw
  exact ⟨hindex, rfl⟩

theorem Replayed.exact (h : Replayed hs core blocks s) :
    s.Exact hs ∧ s.done.toNat = blocks.length := by
  induction h with
  | genesis => exact ⟨.genesis, rfl⟩
  | block hblocks hadvance ih =>
    refine ⟨ih.1.advance hadvance, ?_⟩
    rw [(ih.1.sound.advance hadvance).2.1, ih.2, List.length_append, List.length_singleton]

/-- Two that hold the same are the same. The levels are the cache of the leaves, the maps their
    canonical index, and the journal is off in both. -/
theorem Standing.Exact.eq (h : s.Exact hs) (h' : s'.Exact hs) (hheld : s.held = s'.held)
    (hdone : s.done = s'.done) : s = s' := by
  have hleaves : s.forest.leaves = s'.forest.leaves := congrArg Held.leaves hheld
  have hforest : s.forest = s'.forest := by
    have hcache := h.sound.forest.cache
    have hindex := h.forest.index
    rw [Forest.IndexKept, hleaves] at hindex
    rw [hleaves] at hcache
    obtain ⟨hi, hd⟩ := hindex.unique h'.forest.index
    exact Forest.ext hleaves (h.forest.journal.trans h'.forest.journal.symm)
      (hcache.unique h'.sound.forest.cache) hi hd
  obtain ⟨⟨forest, utxo, win, blockMtp, done, smt⟩, nbits, time, epochStart⟩ := s
  obtain ⟨⟨forest', utxo', win', blockMtp', done', smt'⟩, nbits', time', epochStart'⟩ := s'
  dsimp only at hforest hdone
  unfold Standing.held at hheld
  simp only [Held.mk.injEq] at hheld
  obtain ⟨-, rfl, rfl, rfl, rfl, rfl, rfl, rfl⟩ := hheld
  subst hforest hdone
  rfl

/-- Taking a block back keeps the index. -/
theorem Indexed.unwind {stuck : ℕ → Bool} {dir' : UndoDir H} {n : ℕ} (h : Indexed s.forest)
    (hunwind : unwind hs stuck (s, dir) n = some (s', dir')) : Indexed s'.forest := by
  unfold Bridge.unwind at hunwind
  simp only [Option.bind_eq_bind, Option.bind_eq_some_iff, Option.some.injEq] at hunwind
  obtain ⟨u, -, F, hundo, heq⟩ := hunwind
  obtain ⟨rfl, -⟩ := Prod.mk.inj heq
  refine ⟨h.index.undoOps hundo, ?_⟩
  have hops : u.forestOps.reverse.foldlM (Forest.undoOp hs.parent) s.forest.takeJournal = some F :=
    hundo
  exact Runs.foldlM_invariant (p := fun F : Forest H => F.journal = none)
    (fun _ _ _ _ hF hop => (Forest.undoOp_journal hop).trans hF) rfl hops

/-- So does a rewind, done or refused. -/
theorem Indexed.rewindTo {stuck : ℕ → Bool} {target : UInt32} {r : Except String Unit}
    {dir' : UndoDir H} (h : Indexed s.forest)
    (hrewind : rewindTo hs dir target s stuck = some (r, s', dir')) : Indexed s'.forest := by
  unfold Bridge.rewindTo at hrewind
  split at hrewind
  · obtain ⟨-, hrest⟩ := Prod.mk.inj (Option.some.inj hrewind)
    obtain ⟨rfl, -⟩ := Prod.mk.inj hrest
    exact h
  · split at hrewind
    · obtain ⟨-, hrest⟩ := Prod.mk.inj (Option.some.inj hrewind)
      obtain ⟨rfl, -⟩ := Prod.mk.inj hrest
      exact h
    · simp only [Option.bind_eq_bind, Option.bind_eq_some_iff, Option.some.injEq] at hrewind
      obtain ⟨⟨s₁, dir₁⟩, hfold, heq⟩ := hrewind
      obtain ⟨-, hrest⟩ := Prod.mk.inj heq
      obtain ⟨rfl, -⟩ := Prod.mk.inj hrest
      exact Runs.foldlM_invariant (p := fun acc : Standing H × UndoDir H => Indexed acc.1.forest)
        (fun _ _ _ _ hF hstep => hF.unwind hstep) h hfold

/-- A standing that holds what a walk held is that of the walk. -/
theorem Replayed.of_held (h : Replayed hs core blocks s) (hexact : s'.Exact hs)
    (hdone : s'.done.toNat = blocks.length) (hheld : s.held = s'.held) :
    Replayed hs core blocks s' := by
  obtain ⟨hs, hlength⟩ := h.exact
  have heq : s = s' := by
    refine hs.eq hexact hheld (UInt32.toNat_inj.mp ?_)
    rw [hlength, hdone]
  rwa [← heq]

end Bridge
end Hazync
