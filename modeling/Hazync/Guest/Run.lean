import Hazync.Guest.ChunkSound
import Hazync.Guest.RangeTree

/-!
# Runs of accepted blocks

Both tracks prove blocks one on the other. On the range track each block is proved on a state the
host gives, and the states have to meet (`RangeRun`); on the chain track each step takes the state
from the journal of the one before it (`ChainRun`), and `aggregate` has the scripts from chunks.
Either way the blocks are accepted one on the state after the other (`Run`).

## One notion for both tracks

The results on what is held are about blocks that were accepted one on the state after the other,
and it does not matter by which of the modes. So the two tracks are each shown to make runs of one
kind (`RangeRun.run`, `ChainRun.run`), and the results are proved of those. A block is accepted on a
state if some chunks that can be trusted, or none, let it pass; where the chunks came from is then
settled. In a run of ranges the states of neighbours agree up to trailing empty roots, and a run
allows for that.

What a run does not say is where it began. Ranges begin on any state the host has made up, and only
the chain begins at block 0.
-/

namespace Hazync
namespace Guest

open ByteStrings

variable {H : Type}

/-- A block, and what the check made of it. -/
abbrev Checked (H : Type) := BlockWitness H × BlockResult H

/-- A journal of a chunk that the image has a receipt for was committed by `chunk_prove`. -/
def Zkvm.ChunksSound (hs : Hashing H) (core : Core) (zkvm : Zkvm H) (selfId : ImageId) : Prop :=
  ∀ journal out, zkvm.verify selfId journal = true → zkvm.decodeChunk journal = some out →
    out.kind = KIND_CHUNK → ∃ p, chunkProve hs core p = some out

variable [DecidableEq H]

/-- A block passes on the state `b`, by itself or on chunks that tell the truth about its bytes. -/
def Accepts (hs : Hashing H) (core : Core) (b : Boundary H) (x : Checked H) : Prop :=
  ∃ chunks, (∀ pre, prePass hs core x.1 (medianTimePast b.recent) chunks = some pre →
      ScriptsSound hs core x.1 chunks pre) ∧
    validateBlock hs core x.1 (medianTimePast b.recent) chunks = some x.2 ∧
    Extends core b x.1.height x.1 x.2

/-- Blocks accepted one on the other from the state `b₀` on, their heights in sequence. -/
inductive Run (hs : Hashing H) (core : Core) (b₀ : Boundary H) :
    List (Checked H) → Boundary H → Prop
  | nil : Run hs core b₀ [] b₀
  | snoc {blocks : List (Checked H)} {b b' : Boundary H} {w : BlockWitness H} {r : BlockResult H} :
      Run hs core b₀ blocks b → b.Agrees b' → Accepts hs core b' (w, r) →
      (∀ x ∈ blocks.getLast?, w.height = x.1.height + 1) →
      Run hs core b₀ (blocks ++ [(w, r)]) (b'.next w.height r)

/-- Single blocks proved as ranges that meet, the first of them on the state `b₀`. -/
inductive RangeRun (hs : Hashing H) (core : Core) (b₀ : Boundary H) (selfId : ImageId) :
    List (Checked H) → RangeState H → Prop
  | first {w : BlockWitness H} {r : BlockResult H} {st : RangeState H} :
      validateBlock hs core w (medianTimePast b₀.recent) Chunks.none = some r →
      proveRange hs core b₀ w selfId = some st → RangeRun hs core b₀ selfId [(w, r)] st
  | next {blocks : List (Checked H)} {l st : RangeState H} {before : Boundary H}
      {w : BlockWitness H} {r : BlockResult H} : RangeRun hs core b₀ selfId blocks l →
      validateBlock hs core w (medianTimePast before.recent) Chunks.none = some r →
      proveRange hs core before w selfId = some st → seamOk l st →
      RangeRun hs core b₀ selfId (blocks ++ [(w, r)]) st

/-- Steps of the chain from the genesis anchor, each from a journal of the state before it. -/
inductive ChainRun (hs : Hashing H) (core : Core) (zkvm : Zkvm H) (methodId : ImageId) :
    List (Checked H) → ChainState H → Prop
  | genesis : ChainRun hs core zkvm methodId [] (genesisAnchor hs methodId)
  | step {blocks : List (Checked H)} {prev st : ChainState H} {prevJournal : Bytes}
      {w : BlockWitness H} {isBase : UInt32} {r : BlockResult H} :
      ChainRun hs core zkvm methodId blocks prev → zkvm.decodeChain prevJournal = some prev →
      validateBlock hs core w (medianTimePast prev.tip.recent) Chunks.none = some r →
      chainStep hs core zkvm prevJournal w isBase methodId = some st →
      ChainRun hs core zkvm methodId (blocks ++ [(w, r)]) st
  | aggregate {blocks : List (Checked H)} {prev st : ChainState H} {prevJournal : Bytes}
      {chunkJournals : List Bytes} {totals : ChunkTotals H} {w : BlockWitness H} {isBase : UInt32}
      {r : BlockResult H} :
      ChainRun hs core zkvm methodId blocks prev → zkvm.decodeChain prevJournal = some prev →
      addJournals zkvm methodId chunkJournals = some totals →
      validateBlock hs core w (medianTimePast prev.tip.recent) totals.chunks = some r →
      aggregate hs core zkvm methodId chunkJournals prevJournal w isBase = some st →
      ChainRun hs core zkvm methodId (blocks ++ [(w, r)]) st

variable {hs : Hashing H} {core : Core} {b b₀ : Boundary H} {blocks : List (Checked H)}
  {selfId methodId : ImageId} {zkvm : Zkvm H}

/-- What an accepted block is. -/
theorem Accepts.validated {x : Checked H} (h : Accepts hs core b x) :
    Extends core b x.1.height x.1 x.2 ∧ ∃ chunks cb views s stump,
      Validated hs core x.1 (medianTimePast b.recent) chunks x.2 cb views s stump := by
  obtain ⟨chunks, hscripts, hr, he⟩ := h
  obtain ⟨cb, views, s, stump, hval⟩ :=
    validateBlock_ok hscripts hr (blockValid_iff.mp he.valid).1.1
  exact ⟨he, chunks, cb, views, s, stump, hval⟩

/-- A run of no blocks ends where it begins. -/
theorem Run.eq_of_nil (h : Run hs core b₀ [] b) : b = b₀ := by
  generalize hnil : ([] : List (Checked H)) = blocks at h
  cases h with
  | nil => rfl
  | snoc => exact absurd hnil.symm (List.append_ne_nil_of_right_ne_nil _ (List.cons_ne_nil _ _))

/-- The last block of a run, and the run before it. -/
theorem Run.eq_snoc {x : Checked H} (h : Run hs core b₀ (blocks ++ [x]) b) : ∃ c c',
    Run hs core b₀ blocks c ∧ c.Agrees c' ∧ Accepts hs core c' x ∧
      b = c'.next x.1.height x.2 := by
  generalize heq : blocks ++ [x] = all at h
  cases h with
  | nil => exact absurd heq (List.append_ne_nil_of_right_ne_nil _ (List.cons_ne_nil _ _))
  | @snoc blocks' c c' w r hrun hagrees haccepts _ =>
    obtain ⟨rfl, hlast⟩ := List.append_inj' heq rfl
    obtain rfl := (List.cons.inj hlast).1
    exact ⟨c, c', hrun, hagrees, haccepts, rfl⟩

/-- A beginning of a run is a run. -/
theorem Run.of_append {rest : List (Checked H)} (h : Run hs core b₀ (blocks ++ rest) b) :
    ∃ c, Run hs core b₀ blocks c := by
  induction rest using List.reverseRecOn generalizing b with
  | nil => exact ⟨b, by rwa [List.append_nil] at h⟩
  | append_singleton rest x ih =>
    rw [← List.append_assoc] at h
    obtain ⟨c, c', hrun, -⟩ := h.eq_snoc
    exact ih hrun

/-- The blocks say which state the run ends in. -/
theorem Run.unique {b' : Boundary H} (h : Run hs core b₀ blocks b) (h' : Run hs core b₀ blocks b') :
    b = b' := by
  induction blocks using List.reverseRecOn generalizing b b' with
  | nil => rw [h.eq_of_nil, h'.eq_of_nil]
  | append_singleton blocks x ih =>
    obtain ⟨c, c₁, hrun, hagrees, -, rfl⟩ := h.eq_snoc
    obtain ⟨d, d₁, hrun', hagrees', -, rfl⟩ := h'.eq_snoc
    obtain rfl := ih hrun hrun'
    obtain ⟨-, -, -, -, -, hepoch, hrecent⟩ := hagrees
    obtain ⟨-, -, -, -, -, hepoch', hrecent'⟩ := hagrees'
    rw [Boundary.next, Boundary.next, ← hepoch, ← hrecent, hepoch', hrecent']

theorem getLast?_eq_of_snoc {α : Type} {as : List α} {a x : α} (h : x ∈ (as ++ [a]).getLast?) :
    x = a := by
  rw [List.getLast?_concat] at h
  exact (Option.mem_some_iff.mp h).symm

/-- A run of ranges is a run. -/
theorem RangeRun.run {st : RangeState H} (h : RangeRun hs core b₀ selfId blocks st) :
    Run hs core b₀ blocks st.after ∧ ∀ x ∈ blocks.getLast?, st.hi = x.1.height := by
  induction h with
  | first hr hst =>
    obtain ⟨r', hr', he, rfl⟩ := proveRange_eq_some.mp hst
    cases hr.symm.trans hr'
    refine ⟨?_, fun x hx => ?_⟩
    · rw [← List.nil_append [_]]
      exact .snoc .nil (.refl _) ⟨_, fun pre _ => scriptsSound_none pre, hr, he⟩
        fun x hx => by cases hx
    · cases hx
      rfl
  | @next blocks l st before w r _ hr hst hseam ih =>
    obtain ⟨hrun, hhi⟩ := ih
    obtain ⟨r', hr', he, rfl⟩ := proveRange_eq_some.mp hst
    cases hr.symm.trans hr'
    obtain ⟨hadjacent, hagrees, -⟩ := seamOk_iff.mp hseam
    refine ⟨.snoc hrun hagrees ⟨_, fun pre _ => scriptsSound_none pre, hr, he⟩ fun x hx => ?_,
      fun x hx => ?_⟩
    · rw [← hhi x hx]
      exact hadjacent.symm
    · rw [getLast?_eq_of_snoc hx]

/-- The block of a step extends the state before it. -/
theorem extends_of_extendChain {prev st : ChainState H} {prevJournal : Bytes} {w : BlockWitness H}
    {isBase : UInt32} {chunks : Chunks H} {r : BlockResult H}
    (hprev : zkvm.decodeChain prevJournal = some prev)
    (hr : validateBlock hs core w (medianTimePast prev.tip.recent) chunks = some r)
    (h : extendChain hs core zkvm selfId prevJournal w isBase chunks = some st) :
    Extends core prev.tip w.height w r ∧ w.height = prev.height + 1 ∧
      st.tip = prev.tip.next w.height r ∧ st.height = w.height := by
  obtain ⟨prev', r', -, hprev', -, -, hheight, hr', he, rfl⟩ := extendChain_eq_some.mp h
  cases hprev.symm.trans hprev'
  cases hr.symm.trans hr'
  exact ⟨he, hheight, rfl, rfl⟩

/-- So is a run of the chain, when no two digests collide and the zkVM tells the truth about the
chunks. -/
theorem ChainRun.run (hinj : Function.Injective hs.dsha256)
    (hchunks : zkvm.ChunksSound hs core methodId) {st : ChainState H}
    (h : ChainRun hs core zkvm methodId blocks st) :
    Run hs core genesisTip blocks st.tip ∧ ∀ x ∈ blocks.getLast?, st.height = x.1.height := by
  induction h with
  | genesis => exact ⟨.nil, fun x hx => by cases hx⟩
  | @step blocks prev st prevJournal w isBase r _ hprev hr hst ih =>
    obtain ⟨hrun, hlast⟩ := ih
    obtain ⟨he, hheight, htip, hst⟩ := extends_of_extendChain hprev hr hst
    rw [htip, hst]
    refine ⟨.snoc hrun (.refl _) ⟨_, fun pre _ => scriptsSound_none pre, hr, he⟩ fun x hx => ?_,
      fun x hx => ?_⟩
    · rw [hheight, hlast x hx]
    · rw [getLast?_eq_of_snoc hx]
  | @aggregate blocks prev st prevJournal chunkJournals totals w isBase r _ hprev htotals hr hst ih =>
    obtain ⟨hrun, hlast⟩ := ih
    obtain ⟨totals', htotals', hst⟩ := Option.bind_eq_some_iff.mp hst
    cases htotals.symm.trans htotals'
    obtain ⟨he, hheight, htip, hst⟩ := extends_of_extendChain hprev hr hst
    obtain ⟨rows, hrows⟩ := addJournals_traced (fun j _ out => hchunks j out) htotals
    rw [htip, hst]
    refine ⟨.snoc hrun (.refl _) ⟨_, fun pre hpre => hrows.scriptsSound hinj hpre, hr, he⟩
      fun x hx => ?_, fun x hx => ?_⟩
    · rw [hheight, hlast x hx]
    · rw [getLast?_eq_of_snoc hx]

end Guest
end Hazync
