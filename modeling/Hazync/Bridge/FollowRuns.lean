import Hazync.Bridge.ForkCheck

/-!
# The bridge follows one chain

A block that is fetched links to the last one applied just where the node still has that one
(`Follower.Inv.linked_step`). So over a run the blocks are one chain just where no reorganisation
that takes out the last one comes between the check and a fetch of the same pass
(`follows_one_chain`).

`Stays` is the condition of the last result: at a fetch the node still has the block that was
applied last. It is about the node and the state before the step, and nothing in the loop asks for
it between the comparison and the fetches. `Meets` gathers the conditions that keep away the other
defects of a rewind: an overwritten coinbase among the blocks taken back, a record that could not be
written.

The invariant is `Follower.Inv`, of `Hazync.Bridge.Rewind` and its neighbours; here each step is
looked at for the blocks it takes off or puts on.
-/

namespace Hazync
namespace Bridge

open Guest (Core)

variable {H : Type} {hs : Hashing H} [DecidableEq H] {core : Core} {cfg : Settings}
  {f f' : Follower H} {call : Call} {tip : UInt32}

/-- What a call does to the blocks that have been applied: it takes some off the end, or it puts one
    on, and the latter in the phase of fetching only. -/
theorem Follower.Inv.applied_step (h : f.Inv hs core)
    (hstep : f.step hs core cfg call = some f') :
    ((∀ target, f.phase ≠ .fetch target) ∧ ∃ m, f'.applied = f.applied.take m) ∨
      ∃ target block, f.phase = .fetch target ∧ call.chain[f.done.toNat]? = some block ∧
        f'.applied = f.applied ++ [block] := by
  have hkept : ∀ g : Follower H, g.process = f.process → ∃ m, g.applied = f.applied.take m := by
    intro g hg
    refine ⟨f.applied.length, ?_⟩
    unfold Follower.applied
    rw [hg, List.take_length]
  obtain ⟨hphase, halted, phase, rfl, -⟩ | ⟨tip, floor, n, u, hphase, -, -, hrewound⟩ |
    ⟨target, block, process, phase, hphase, hblock, hprocess, rfl, -⟩ := h.step_cases hstep
  · exact .inl ⟨hphase, hkept _ rfl⟩
  · refine .inl ⟨fun target hfetch => (nomatch hphase.symm.trans hfetch), ?_⟩
    rcases h.rewound_cases (h.search tip floor n hphase).2.2 cfg tip call with ⟨-, hhalt⟩ |
      ⟨now, dir, head, held, -, -, hdid, -⟩
    · obtain rfl := Option.some.inj (hhalt.symm.trans hrewound)
      exact hkept _ rfl
    · obtain rfl := Option.some.inj (hdid.symm.trans hrewound)
      exact ⟨n, List.map_take⟩
  · refine .inr ⟨target, block, hphase, hblock, ?_⟩
    obtain ⟨⟨now, u⟩, hadvance, heq⟩ := Option.bind_eq_some_iff.mp hprocess
    obtain rfl := Option.some.inj heq
    exact List.map_append

/-- **The chain stays linked just where the node still has the block that was applied last.** -/
theorem Follower.Inv.linked_step (h : f.Inv hs core) (hlinked : Linked hs f.applied)
    (hchain : Linked hs call.chain) (hstep : f.step hs core cfg call = some f') :
    Linked hs f'.applied ↔ f.Stays hs call := by
  rcases h.applied_step hstep with ⟨hphase, m, happlied⟩ | ⟨target, block, hphase, hblock, happlied⟩
  · rw [happlied]
    exact ⟨fun _ target hfetch => absurd hfetch (hphase target), fun _ => hlinked.take m⟩
  · rw [happlied, linked_concat, h.length]
    unfold Follower.Stays
    rw [hchain _ block hblock]
    constructor
    · intro hlast _ _
      exact hlast.2.symm
    · intro hstays
      exact ⟨hlinked, (hstays target hphase).symm⟩

/-- The runs of the loop, over what the node answers: at each call it has some chain. -/
def Follower.Follows (hs : Hashing H) (core : Core) (cfg : Settings) :
    List (Follower H × Call × Follower H) → Follower H → Prop :=
  Runs.Run (· = .start hs) fun f call f' =>
    Linked hs call.chain ∧ f.step hs core cfg call = some f'

variable {trace : List (Follower H × Call × Follower H)}

theorem Follower.Follows.inv (h : Follower.Follows hs core cfg trace f)
    (hmeets : ∀ t ∈ trace, t.1.Meets hs core t.2.1) : f.Inv hs core := by
  refine (Runs.Run.restrict (q := fun f call _ => f.Meets hs core call) h hmeets).invariant ?_ ?_
  · rintro f rfl
    exact .start
  · intro f call f' hf hstep
    exact hf.step hstep.2 hstep.1.2

/-- The blocks applied are linked throughout a run just where none of its fetches met a chain that
    had lost the one before. One direction is the step lemma along the run; for the other, the first
    fetch that meets such a chain breaks the links. -/
theorem Follower.Follows.linked_iff (h : Follower.Follows hs core cfg trace f)
    (hmeets : ∀ t ∈ trace, t.1.Meets hs core t.2.1) :
    ((∀ t ∈ trace, Linked hs t.1.applied) ∧ Linked hs f.applied) ↔
      ∀ t ∈ trace, t.1.Stays hs t.2.1 := by
  induction h with
  | @nil f hstart =>
    subst hstart
    exact ⟨fun _ t ht => absurd ht List.not_mem_nil,
      fun _ => ⟨fun t ht => absurd ht List.not_mem_nil, .nil⟩⟩
  | @snoc trace f f' call hrun hstep ih =>
    have hbefore : ∀ t ∈ trace, t.1.Meets hs core t.2.1 :=
      fun t ht => hmeets t (List.mem_append_left _ ht)
    have hinv : f.Inv hs core := Follower.Follows.inv hrun hbefore
    have hiff := ih hbefore
    simp only [List.forall_mem_append, List.forall_mem_singleton]
    constructor
    · rintro ⟨⟨htrace, hf⟩, hf'⟩
      exact ⟨hiff.mp ⟨htrace, hf⟩, (hinv.linked_step hf hstep.1 hstep.2).mp hf'⟩
    · rintro ⟨htrace, hlast⟩
      obtain ⟨hall, hf⟩ := hiff.mpr htrace
      exact ⟨⟨hall, hf⟩, (hinv.linked_step hf hstep.1 hstep.2).mpr hlast⟩

/-- **The bridge follows one chain**, in every run so far without the defects of the rewind. What it
holds is the replay of the blocks that it has applied. They are one chain throughout, if and only if
at each fetch the node still had the block applied last. And where they are one chain at the top of
a pass that the node is not on, that pass rewinds to the highest block in common, or halts where
there is none in the window; nothing is fetched while the node's chain is the shorter one. -/
theorem follows_one_chain (h : Follower.Follows hs core cfg trace f)
    (hmeets : ∀ t ∈ trace, t.1.Meets hs core t.2.1) :
    Replayed hs core f.applied f.process.now ∧
      ((∀ t ∈ trace, Linked hs t.1.applied) ∧ Linked hs f.applied ↔
        ∀ t ∈ trace, t.1.Stays hs t.2.1) ∧
      ∀ call, f.phase = .top → Linked hs f.applied → Linked hs call.chain →
        call.chain.length < 2 ^ 32 →
        (call.chain.length < f.done.toNat → f.step hs core cfg call = some f) ∧
        (f.done.toNat ≤ call.chain.length →
          (∃ i ≤ f.done.toNat, hashAt hs call.chain i ≠ hashAt hs f.applied i) →
          Collide hs call.chain f.applied ∨
            ∃ f', f.Checks hs core cfg call f' ∧ f.Settles hs call.chain f') := by
  have hinv : f.Inv hs core := h.inv hmeets
  refine ⟨hinv.replayed, h.linked_iff hmeets, ?_⟩
  intro call hphase hlinked hchain hsmall
  refine ⟨Follower.step_of_lt hphase, ?_⟩
  rintro hlong ⟨i, hi, hdiffer⟩
  by_cases hcollide : Collide hs call.chain f.applied
  · exact .inl hcollide
  · refine .inr (hinv.check_settles hphase hsmall hlong ?_)
    intro hagree
    exact hdiffer (agree_below hchain hlinked hcollide hlong hinv.length.ge hagree i hi)

end Bridge
end Hazync
