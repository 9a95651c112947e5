import Hazync.Bridge.KilledRuns

/-!
# The check after a start

What says whether the node has moved is the hash beside the checkpoint. Where the two files are
written together, or neither is, it is the hash of the block that the checkpoint is of
(`Files.Labelled`), and the first pass of a process that is started compares it with the node's.

## Two things that a kill can take away

A process that is started compares only if it has a hash to compare. The hash is in a second file,
written after the checkpoint; a kill between the two leaves a hash of another height, which is
ignored. `Service.Pairs` is the condition that this does not happen, and under it the invariant of
the loop that is never killed holds of every process of the run (`Service.Named`).

How far down the search can go is a matter of the records. They are pruned as the bridge goes up,
and a rewind takes away those it has used. A rewind that is cut off has removed some of the records
that the next process, which starts at the old checkpoint, would go down along. `Service.Sweeps`
excludes that, and then every record within `keep` of the highest height there was is still there
(`Service.Window`).
-/

namespace Hazync
namespace Bridge

open ByteStrings
open Guest (Core GENESIS_HASH)

section

variable {H : Type} {hs : Hashing H} [DecidableEq H] {core : Core} {ser : Serializer}
  {cfg : WriteSettings} {b b' : Service H} {t : Turn} {f : Follower H}
  {trace : List (Service H × Turn × Service H)}

/-- Beside a checkpoint is the hash of its last block. -/
def Files.Labelled (hs : Hashing H) (files : Files H) : Prop :=
  ∀ s below, files.state = some (s, below) → 0 < s.done.toNat →
    ∃ hash, hashAt hs (below.map Prod.snd) s.done.toNat = some hash ∧
      files.head = some (s.done, displayHash hash)

/-- The two files of a checkpoint are both written, or neither is. -/
def Service.Pairs (hs : Hashing H) (core : Core) (ser : Serializer) (cfg : WriteSettings)
    (b : Service H) (t : Turn) : Prop :=
  ∀ f, b.follower.step hs core cfg.toSettings t.call = some f → b.saves cfg f = true →
    t.noted = true ∧ ∀ k, t.killed = some k →
      k ≤ (b.edits hs core ser cfg t f).length ∨ (b.edits hs core ser cfg t f).length + 2 ≤ k

/-- The bridge knows the hash of the block that it stands on, and so will one that is started over
    its files. This is what a kill between the two files of a checkpoint loses. -/
structure Service.Named (hs : Hashing H) (core : Core) (ser : Serializer) (cfg : WriteSettings)
    (b : Service H) : Prop where
  inv : b.Inv hs core ser cfg
  /-- The search below the tip stays within the records. -/
  loop : b.follower.Inv hs core
  /-- The head on disk is that of the checkpoint beside it. -/
  labelled : b.files.Labelled hs

theorem Service.Named.empty : (Service.start hs .empty).Named hs core ser cfg where
  inv := .empty
  loop := .start
  labelled s below hstate := by cases hstate

/-- A process that is started knows it from the files: its state is that of the checkpoint, and the
    label is of it. -/
theorem Service.Inv.named_start (h : b.Inv hs core ser cfg) (hlabel : b.files.Labelled hs) :
    (Service.start hs b.files).Named hs core ser cfg := by
  have hinv := h.restart
  obtain ⟨head, hloop⟩ := hinv.steady
  refine ⟨hinv, ⟨hloop.process, hloop.exact, hloop.replays, ?_, hloop.hashes, hloop.search⟩, hlabel⟩
  intro hpos
  change 0 < (Service.start hs b.files).now.done.toNat at hpos
  cases hstate : b.files.state with
  | none =>
    unfold Service.start at hpos
    dsimp only at hpos
    rw [hstate] at hpos
    exact absurd hpos (Nat.lt_irrefl 0)
  | some ckpt =>
    obtain ⟨s, below⟩ := ckpt
    unfold Service.start at hpos
    dsimp only at hpos
    rw [hstate] at hpos
    obtain ⟨hash, hhash, hhead⟩ := hlabel s below hstate hpos
    refine ⟨hash, ?_, ?_⟩
    · unfold Service.start Service.follower Follower.applied Follower.done
      dsimp only
      rw [hstate]
      exact hhash
    · unfold Service.start Service.follower
      dsimp only
      rw [hstate, hhead, Option.bind_some]
      exact if_pos ⟨length_displayHash hash, rfl⟩

/-- A call that is answered keeps the label to the checkpoint: a new checkpoint has its own, and
    else both files are as they were. -/
theorem Service.Named.went (h : b.Named hs core ser cfg) (hmeets : b.Meets hs core cfg t)
    (hstep : b.follower.step hs core cfg.toSettings t.call = some f)
    (hnoted : b.saves cfg f = true → t.noted = true) :
    (b.went hs core ser cfg t f).Named hs core ser cfg := by
  have hinv := h.inv.went hmeets hstep
  have hnext : f.Inv hs core := h.loop.step hmeets.calls hstep
  obtain ⟨head, hloop⟩ := hinv.steady
  refine ⟨hinv, ⟨hloop.process, hloop.exact, hloop.replays, hnext.head, hloop.hashes,
    hloop.search⟩, ?_⟩
  have habove : ∀ op ∈ b.edits hs core ser cfg t f, op.Above cfg b.now.done.toNat :=
    fun op hop => h.inv.above hop
  obtain ⟨hstate, hhead⟩ := b.files.run_above habove
  unfold Service.went Service.writes
  dsimp only
  rw [Files.run_append]
  unfold Service.checkpoint
  cases hsaves : b.saves cfg f with
  | false =>
    intro s below hs
    exact hhead ▸ h.labelled s below (hstate.symm.trans hs)
  | true =>
    rw [if_pos rfl]
    cases hname : f.head with
    | none =>
      intro s below hs hpos
      obtain ⟨rfl, rfl⟩ := Prod.mk.inj (Option.some.inj hs)
      obtain ⟨hash, -, hknown⟩ := hnext.head hpos
      cases hname.symm.trans hknown
    | some name =>
      rw [Option.elim_some, if_pos (hnoted hsaves)]
      intro s below hs hpos
      obtain ⟨rfl, rfl⟩ := Prod.mk.inj (Option.some.inj hs)
      obtain ⟨hash, hhash, hknown⟩ := hnext.head hpos
      obtain rfl := Option.some.inj (hname.symm.trans hknown)
      exact ⟨hash, hhash, rfl⟩

/-- **From one call to the next**, where no kill comes between the two files of a checkpoint. Where
    a process is killed before the checkpoint or behind the label, what it leaves is labelled. -/
theorem Service.Named.step (h : b.Named hs core ser cfg) (hmeets : b.Meets hs core cfg t)
    (hpairs : b.Pairs hs core ser cfg t) (hstep : b.step hs core ser cfg t = some b') :
    b'.Named hs core ser cfg := by
  obtain ⟨f, hf, rfl⟩ | rfl | ⟨k, f, hkilled, hf, rfl⟩ := Service.step_cases hstep
  · exact h.went hmeets hf fun hsaves => (hpairs f hf hsaves).1
  · exact h.inv.named_start h.labelled
  -- up to the checkpoint the two files are those from before
  have hbefore : ∀ j, (Service.start hs (b.files.run
      ((b.edits hs core ser cfg t f).take j))).Named hs core ser cfg := by
    intro j
    have habove : ∀ op ∈ (b.edits hs core ser cfg t f).take j,
        op.Above cfg b.now.done.toNat := fun op hop => h.inv.above (List.mem_of_mem_take hop)
    obtain ⟨hstate, hhead⟩ := b.files.run_above habove
    refine (h.inv.run habove).named_start ?_
    intro s below hs
    exact hhead ▸ h.labelled s below (hstate.symm.trans hs)
  cases hsaves : b.saves cfg f with
  | false =>
    unfold Service.writes Service.checkpoint
    rw [hsaves, if_neg Bool.false_ne_true, List.append_nil]
    exact hbefore k
  | true =>
    obtain ⟨hnoted, hwhole⟩ := hpairs f hf hsaves
    rcases hwhole k hkilled with hle | hge
    · unfold Service.writes
      rw [List.take_append_of_le_length hle]
      exact hbefore k
    · -- all is written
      have hall : (b.writes hs core ser cfg t f).take k = b.writes hs core ser cfg t f := by
        refine List.take_of_length_le (le_trans ?_ hge)
        unfold Service.writes Service.checkpoint
        rw [hsaves, if_pos rfl, List.length_append]
        cases f.head with
        | none => simp
        | some name => simp [hnoted]
      rw [hall]
      have hwent := h.went hmeets hf fun _ => hnoted
      exact hwent.inv.named_start hwent.labelled

theorem Service.Follows.named (h : Service.Follows hs core ser cfg trace b)
    (hmeets : ∀ t ∈ trace, t.1.Meets hs core cfg t.2.1)
    (hpairs : ∀ t ∈ trace, t.1.Pairs hs core ser cfg t.2.1) : b.Named hs core ser cfg := by
  have hboth : ∀ t ∈ trace, t.1.Meets hs core cfg t.2.1 ∧ t.1.Pairs hs core ser cfg t.2.1 :=
    fun t ht => ⟨hmeets t ht, hpairs t ht⟩
  refine (Runs.Run.restrict
    (q := fun b t _ => b.Meets hs core cfg t ∧ b.Pairs hs core ser cfg t) h hboth).invariant ?_ ?_
  · rintro b rfl
    exact .empty
  · intro b t b' hb hstep
    exact hb.step hstep.2.1 hstep.2.2 hstep.1.2

/-! ## The window -/

/-- An operation that does not take away the record at `i`. -/
def FileOp.Spares (i : ℕ) : FileOp H → Prop
  | .dropUndo height => height ≠ i
  | _ => True

omit [DecidableEq H] in
theorem Files.run_spares {ops : List (FileOp H)} {i : ℕ} (files : Files H)
    (hops : ∀ op ∈ ops, op.Spares i) (hsome : (files.undo.get? i).isSome) :
    ((files.run ops).undo.get? i).isSome := by
  induction ops generalizing files with
  | nil => exact hsome
  | cons op ops ih =>
    obtain ⟨hop, hrest⟩ := List.forall_mem_cons.mp hops
    apply ih (op.run files) hrest
    cases op with
    | putUndo u =>
      change ((files.undo.insert u.height.toNat u).get? i).isSome
      rw [SortedMap.get?_insert, Function.update_apply]
      split
      · rfl
      · exact hsome
    | dropUndo height =>
      change ((files.undo.erase height).get? i).isSome
      rw [SortedMap.get?_erase, Function.update_of_ne (Ne.symm hop)]
      exact hsome
    | putBundle | dropBundle | putState | putHead => exact hsome

omit [DecidableEq H] in
/-- What is pruned is more than `keep` below. -/
theorem lt_of_mem_pruned {undo : UndoDir H} {u : BlockUndo H} {keep : UInt32} {o : Outcome} {i : ℕ}
    (hi : i ∈ Service.pruned undo u keep o) : i + keep.toNat < u.height.toNat := by
  unfold Service.pruned at hi
  dsimp only at hi
  split at hi
  · rename_i hold
    have hmem := (List.mem_filter.mp hi).2
    rw [decide_eq_true_eq, UInt32.toNat_sub_of_le _ _ (UInt32.le_of_lt hold)] at hmem
    have hlt := UInt32.lt_iff_toNat_lt.mp hold
    omega
  · exact absurd hi List.not_mem_nil

/-- What is asked of a call: no height goes above `peak`, the record of a block is written, and a
    rewind is not cut off between what it removes and its checkpoint. -/
structure Service.Sweeps (hs : Hashing H) (core : Core) (ser : Serializer) (cfg : WriteSettings)
    (peak : ℕ) (b : Service H) (t : Turn) : Prop where
  /-- The peak bounds the heights, and with them what the window still reaches. -/
  height : ∀ f, b.follower.step hs core cfg.toSettings t.call = some f → f.done.toNat ≤ peak
  /-- The undo record of each block that is fetched gets to the disk. -/
  written : ∀ target, b.phase = .fetch target → t.call.outcome.written = true
  /-- A rewind may be killed before it has done anything or when it is through. -/
  whole : ∀ f, b.follower.step hs core cfg.toSettings t.call = some f → f.done < b.now.done →
    ∀ k, t.killed = some k → k = 0 ∨ (b.edits hs core ser cfg t f).length < k

/-- The records at most `keep` below `peak` are there, up to where the bridge is. -/
def Service.Window (keep : UInt32) (peak : ℕ) (b : Service H) : Prop :=
  ∀ i, 1 ≤ i → peak ≤ i + keep.toNat → i ≤ b.now.done.toNat → (b.files.undo.get? i).isSome

theorem Service.Window.start {keep : UInt32} {peak : ℕ} (hinv : b.Inv hs core ser cfg)
    (h : b.Window keep peak) : (Service.start hs b.files).Window keep peak :=
  fun i hi hpeak hle => h i hi hpeak (hle.trans hinv.start_spec.2.2)

/-- What is written at a fetch takes none of the window away: what is pruned is more than `keep`
    below the new height, and the new height is at most the peak. -/
theorem Service.Inv.spares_fetch (h : b.Inv hs core ser cfg) {peak i : ℕ} {target : UInt32}
    (hphase : b.phase = .fetch target)
    (hstep : b.follower.step hs core cfg.toSettings t.call = some f) (hpeak : f.done.toNat ≤ peak)
    (hi : peak ≤ i + cfg.undoKeep.toNat) {op : FileOp H}
    (hop : op ∈ b.edits hs core ser cfg t f) : op.Spares i := by
  obtain ⟨hnot, -⟩ | ⟨tip, floor, n, u, now, dir, head, hsearch, -⟩ |
    ⟨target', block, now, u, -, hblock, hadvance, hf⟩ := h.steady.step_cases hstep
  · exact absurd hphase (hnot target)
  · cases hphase.symm.trans hsearch
  obtain ⟨head, hinv⟩ := h.steady
  have hblock : t.call.chain[b.now.done.toNat]? = some block := hblock
  have hadvance : b.now.advance hs core (displayHash (block.hash hs)) block = some (now, u) :=
    hadvance
  have hheight : u.height = now.done := (hinv.process.sound.advance hadvance).2.2.1
  have hdone : f.done = now.done := by rw [hf]; rfl
  unfold Service.edits at hop
  rw [hphase] at hop
  dsimp only at hop
  rw [hblock] at hop
  dsimp only at hop
  rw [hadvance] at hop
  rcases List.mem_append.mp hop with hop | hop
  · split at hop
    · rw [List.mem_singleton.mp hop]
      trivial
    · exact absurd hop List.not_mem_nil
  · rcases List.mem_append.mp hop with hop | hop
    · obtain ⟨height, hmem, rfl⟩ := List.mem_map.mp hop
      have hlt := lt_of_mem_pruned hmem
      rw [hheight, ← hdone] at hlt
      change height ≠ i
      omega
    · split at hop
      · rw [List.mem_singleton.mp hop]
        trivial
      · exact absurd hop List.not_mem_nil

omit [DecidableEq H] in
theorem Service.spares_checkpoint (i : ℕ) {op : FileOp H} (hop : op ∈ b.checkpoint cfg t f) :
    op.Spares i := by
  rcases Service.checkpoint_cases cfg b t f with ⟨-, hckpt⟩ | ⟨names, hnames, -, hckpt⟩
  · rw [hckpt] at hop
    exact absurd hop List.not_mem_nil
  · rw [hckpt] at hop
    rcases List.mem_cons.mp hop with rfl | hop
    · trivial
    · have hname := hnames op hop
      cases op with
      | putHead height hash => trivial
      | putUndo | dropUndo | putBundle | dropBundle | putState => exact hname.elim

theorem Service.spares_rewind {tip : UInt32} {floor n i : ℕ}
    (hphase : b.phase = .search tip floor n) (hi : i ≤ f.done.toNat) {op : FileOp H}
    (hop : op ∈ b.edits hs core ser cfg t f) : op.Spares i := by
  unfold Service.edits at hop
  rw [hphase] at hop
  dsimp only at hop
  split at hop
  · rcases List.mem_append.mp hop with hop | hop
    · obtain ⟨height, hmem, rfl⟩ := List.mem_map.mp hop
      have habove := List.mem_reverse.mp (List.mem_filter.mp hmem).1
      unfold heightsAbove at habove
      rw [List.mem_range'_1] at habove
      change height ≠ i
      omega
    · obtain ⟨height, -, rfl⟩ := List.mem_map.mp hop
      trivial
  · exact absurd hop List.not_mem_nil

/-- What is written before a checkpoint takes none of the window away, below where it leads. -/
theorem Service.Inv.spares_edits (h : b.Inv hs core ser cfg) {peak i : ℕ}
    (hstep : b.follower.step hs core cfg.toSettings t.call = some f) (hpeak : f.done.toNat ≤ peak)
    (hi : peak ≤ i + cfg.undoKeep.toNat) (hback : f.done < b.now.done → i ≤ f.done.toNat)
    {op : FileOp H} (hop : op ∈ b.edits hs core ser cfg t f) : op.Spares i := by
  cases hphase : b.phase with
  | fetch target => exact h.spares_fetch hphase hstep hpeak hi hop
  | search tip floor n =>
    by_cases hlt : f.done < b.now.done
    · exact Service.spares_rewind hphase (hback hlt) hop
    · unfold Service.edits at hop
      rw [hphase] at hop
      dsimp only at hop
      rw [if_neg hlt] at hop
      exact absurd hop List.not_mem_nil
  | top | compare =>
    unfold Service.edits at hop
    rw [hphase] at hop
    exact absurd hop List.not_mem_nil

omit [DecidableEq H] in
theorem isSome_pushUndo {dir : UndoDir H} {u : BlockUndo H} {keep : UInt32} {o : Outcome} {i : ℕ}
    (hkeep : u.height.toNat ≤ i + keep.toNat)
    (h : (o.written = true ∧ i = u.height.toNat) ∨ (dir.get? i).isSome) :
    ((pushUndo dir u keep o).get? i).isSome := by
  have hput : ((if o.written then dir.insert u.height.toNat u else dir).get? i).isSome := by
    cases hw : o.written with
    | false =>
      rw [hw] at h
      rcases h with ⟨hno, -⟩ | hsome
      · cases hno
      · exact hsome
    | true =>
      rw [if_pos rfl, SortedMap.get?_insert, Function.update_apply]
      split
      · rfl
      · rename_i hne
        rcases h with ⟨-, heq⟩ | hsome
        · exact absurd heq hne
        · exact hsome
  unfold pushUndo
  dsimp only
  split
  · rename_i hold
    rw [SortedMap.get?_eraseAll, if_neg]
    · exact hput
    · intro hmem
      have hlt := (List.mem_filter.mp hmem).2
      rw [decide_eq_true_eq, UInt32.toNat_sub_of_le _ _ (UInt32.le_of_lt hold)] at hlt
      have habove := UInt32.lt_iff_toNat_lt.mp hold
      omega
  · exact hput

/-- The window after a call. A fetch adds the record of its block; a rewind takes away what is above
    it only. -/
theorem Service.Window.went {peak : ℕ} (h : b.Window cfg.undoKeep peak)
    (hinv : b.Inv hs core ser cfg) (hmeets : b.Meets hs core cfg t)
    (hsweeps : b.Sweeps hs core ser cfg peak t)
    (hstep : b.follower.step hs core cfg.toSettings t.call = some f) :
    (b.went hs core ser cfg t f).Window cfg.undoKeep peak := by
  intro i hi hpeak hle
  have hle : i ≤ f.done.toNat := hle
  have hnext := (hinv.went hmeets hstep).length
  have hlast := hinv.length
  have hckpt : ∀ op ∈ b.checkpoint cfg t f, op.Spares i := fun op hop => b.spares_checkpoint i hop
  -- nothing is written; or a rewind deletes records above its target; or a block adds one and drops
  -- those that are too old
  obtain ⟨hfetch, halted, phase, rfl, -⟩ | ⟨tip, floor, n, u, now, dir, head, hphase, -, -, -,
    hprocess, -⟩ | ⟨target, block, now, u, hphase, hblock, hadvance, hf⟩ :=
    hinv.steady.step_cases hstep
  · have hwrites : b.writes hs core ser cfg t
        { b.follower with halted := halted, phase := phase } = [] :=
      (Service.writes_idle hfetch rfl).1
    unfold Service.went
    dsimp only
    rw [hwrites]
    exact h i hi hpeak hle
  · have hbelow : f.done.toNat ≤ b.now.done.toNat := by
      have hlength : (f.process.trail.map Prod.snd).length = f.done.toNat := hnext
      have htrail : f.process.trail = b.trail.take (UInt32.ofNat n).toNat := by rw [hprocess]; rfl
      rw [← hlength, ← hlast, htrail, List.length_map, List.length_take]
      unfold Service.applied
      rw [List.length_map]
      exact min_le_right _ _
    apply Files.run_spares b.files _ (h i hi hpeak (hle.trans hbelow))
    intro op hop
    rcases List.mem_append.mp hop with hop | hop
    · exact Service.spares_rewind hphase hle hop
    · exact hckpt op hop
  · obtain ⟨head, hloop⟩ := hinv.steady
    have hphase : b.phase = .fetch target := hphase
    have hblock : t.call.chain[b.now.done.toNat]? = some block := hblock
    have hadvance : b.now.advance hs core (displayHash (block.hash hs)) block = some (now, u) :=
      hadvance
    obtain ⟨-, hdone, hheight, -⟩ := hloop.process.sound.advance hadvance
    have hdone : now.done.toNat = b.now.done.toNat + 1 := hdone
    have hat : f.done = now.done := by rw [hf]; rfl
    unfold Service.went Service.writes
    dsimp only
    rw [Files.run_append]
    apply Files.run_spares _ hckpt
    rw [Service.run_edits_fetch hphase hblock hadvance]
    have hroom := hsweeps.height f hstep
    rw [hat] at hroom hle
    apply isSome_pushUndo
    · rw [hheight]
      omega
    · rw [hheight]
      rcases Nat.le_succ_iff.mp (hdone ▸ hle) with hold | hnew
      · exact .inr (h i hi hpeak hold)
      · exact .inl ⟨hsweeps.written target hphase, hnew.trans hdone.symm⟩

/-- What a checkpoint is of. -/
theorem Service.state_went (hsaves : b.saves cfg f = true) :
    (b.went hs core ser cfg t f).files.state = some (f.process.now, f.process.trail) := by
  rcases Service.checkpoint_cases cfg b t f with ⟨hno, -⟩ | ⟨names, hnames, -, hckpt⟩
  · cases hno.symm.trans hsaves
  · unfold Service.went Service.writes
    dsimp only
    rw [hckpt, Files.run_append]
    obtain ⟨head, hrun⟩ := Files.run_names
      (FileOp.run (b.files.run (b.edits hs core ser cfg t f))
        (.putState f.process.now f.process.trail)) hnames
    exact congrArg Files.state hrun

/-- Only a rewind leads to a lower height, and there is a checkpoint after it. -/
theorem Service.Inv.saves_lower (h : b.Inv hs core ser cfg)
    (hstep : b.follower.step hs core cfg.toSettings t.call = some f)
    (hlt : f.done < b.now.done) : b.saves cfg f = true := by
  obtain ⟨-, halted, phase, rfl, -⟩ | ⟨tip, floor, n, -, -, -, -, hphase, -⟩ |
    ⟨target, block, now, u, -, -, hadvance, rfl⟩ := h.steady.step_cases hstep
  · exact absurd hlt (UInt32.lt_irrefl _)
  · have hphase : b.phase = .search tip floor n := hphase
    unfold Service.saves
    rw [hphase]
    exact decide_eq_true hlt
  · obtain ⟨head, hinv⟩ := h.steady
    have hdone : now.done.toNat = b.now.done.toNat + 1 :=
      (hinv.process.sound.advance hadvance).2.1
    have hlower : now.done.toNat < b.now.done.toNat := UInt32.lt_iff_toNat_lt.mp hlt
    omega

/-- **From one call to the next**, where no rewind is cut off. -/
theorem Service.Window.step {peak : ℕ} (h : b.Window cfg.undoKeep peak)
    (hinv : b.Inv hs core ser cfg) (hmeets : b.Meets hs core cfg t)
    (hsweeps : b.Sweeps hs core ser cfg peak t) (hstep : b.step hs core ser cfg t = some b') :
    b'.Window cfg.undoKeep peak := by
  obtain ⟨f, hf, rfl⟩ | rfl | ⟨k, f, hkilled, hf, rfl⟩ := Service.step_cases hstep
  · exact h.went hinv hmeets hsweeps hf
  · exact h.start hinv
  obtain ⟨g, hg, hcases, hfiles⟩ := hinv.killed_cases hmeets hf k
  rw [← hfiles]
  refine Service.Window.start hg ?_
  intro i hi hpeak hle
  have hglength := hg.length
  unfold Service.applied at hglength
  rw [List.length_map] at hglength
  rcases hcases with ⟨htrail, hearly, hundo⟩ | ⟨htrail, hundo⟩
  · -- killed before the checkpoint
    have hlast := hinv.length
    unfold Service.applied at hlast
    rw [List.length_map] at hlast
    rw [htrail, hlast] at hglength
    rw [← hglength] at hle
    rw [hundo]
    apply Files.run_spares b.files _ (h i hi hpeak hle)
    intro op hop
    refine hinv.spares_edits hf (hsweeps.height f hf) hpeak ?_ (List.mem_of_mem_take hop)
    intro hlt
    -- a rewind that removes anything gets to its checkpoint
    rcases hsweeps.whole f hf hlt k hkilled with rfl | hafter
    · exact absurd hop List.not_mem_nil
    · exact absurd (hearly (hinv.saves_lower hf hlt)) (by omega)
  · rw [hundo]
    refine h.went hinv hmeets hsweeps hf i hi hpeak ?_
    have hwent := (hinv.went hmeets hf).length
    unfold Service.applied at hwent
    rw [List.length_map] at hwent
    change f.process.trail.length = _ at hwent
    rw [← hwent, ← htrail, hglength]
    exact hle

theorem Service.Follows.window {peak : ℕ} (h : Service.Follows hs core ser cfg trace b)
    (hmeets : ∀ t ∈ trace, t.1.Meets hs core cfg t.2.1)
    (hsweeps : ∀ t ∈ trace, t.1.Sweeps hs core ser cfg peak t.2.1) :
    b.Window cfg.undoKeep peak := by
  induction h with
  | nil hstart =>
    subst hstart
    exact fun i hi _ hle => absurd hle (Nat.not_le.mpr hi)
  | @snoc trace b b' t hrun hstep ih =>
    have hbefore : ∀ t ∈ trace, t.1.Meets hs core cfg t.2.1 :=
      fun t ht => hmeets t (List.mem_append_left _ ht)
    have hlast : (b, t, b') ∈ trace ++ [(b, t, b')] :=
      List.mem_append_right _ (List.mem_singleton_self _)
    have hwindow := ih hbefore fun t ht => hsweeps t (List.mem_append_left _ ht)
    exact hwindow.step (Service.Follows.inv hrun hbefore) (hmeets _ hlast) (hsweeps _ hlast) hstep.2

/-- **What a pass finds after any number of kills**, none of them between the two files of a
    checkpoint. Where the node has the bridge's last block nothing is found. Where it has another
    one the bridge goes back to the highest block in common down to which it has the records, or
    halts. And where no rewind was cut off and no record failed to be written, a block in common
    that is at most `keep` below every height that there was is found. -/
theorem checks_after_kills (h : Service.Follows hs core ser cfg trace b)
    (hmeets : ∀ t ∈ trace, t.1.Meets hs core cfg t.2.1)
    (hpairs : ∀ t ∈ trace, t.1.Pairs hs core ser cfg t.2.1) (hphase : b.phase = .top) (call : Call)
    (hsmall : call.chain.length < 2 ^ 32) (hlong : b.now.done.toNat ≤ call.chain.length) :
    (0 < b.now.done.toNat →
      hashAt hs call.chain b.now.done.toNat = hashAt hs b.applied b.now.done.toNat →
        b.follower.Checks hs core cfg.toSettings call
          (b.follower.plan cfg.toSettings (UInt32.ofNat call.chain.length))) ∧
      (hashAt hs call.chain b.now.done.toNat ≠ hashAt hs b.applied b.now.done.toNat →
        ∃ f, b.follower.Checks hs core cfg.toSettings call f ∧
          b.follower.Settles hs call.chain f ∧
          ∀ peak m, (∀ t ∈ trace, t.1.Sweeps hs core ser cfg peak t.2.1) → 1 ≤ m →
            m ≤ b.now.done.toNat → peak ≤ m + cfg.undoKeep.toNat →
            hashAt hs call.chain m = hashAt hs b.applied m →
              ∃ n, m ≤ n ∧ n ≤ b.now.done.toNat ∧
                hashAt hs call.chain n = hashAt hs b.applied n ∧
                f.applied = b.applied.take n ∧ f.done.toNat = n ∧ f.halted = b.halted) := by
  have hnamed := h.named hmeets hpairs
  have hloop := hnamed.loop
  refine ⟨fun hpos hagree =>
    hloop.check_passes cfg.toSettings call hphase hsmall hpos hlong hagree, ?_⟩
  intro hparted
  obtain ⟨f, hchecks, hsettles⟩ := hloop.check_settles hphase hsmall hlong hparted
  refine ⟨f, hchecks, hsettles, ?_⟩
  intro peak m hsweeps hone hm hpeak hagree
  have hcommon : b.follower.process.Common hs call.chain m :=
    ⟨hone, hm, fun i hi hto => h.window hmeets hsweeps i (by omega) (by omega) hto, hagree⟩
  rcases hsettles with ⟨n, hn, hapart, happlied, hdone, hhalted⟩ | ⟨hnone, -⟩
  · exact ⟨n, hapart.le hcommon, hn.le, hn.agrees, happlied, hdone, hhalted⟩
  · exact absurd hcommon (hnone m)

end

section

open Guest.OpTrue

/-! ## A fork after a start -/

theorem blockOn_connects (prev root : Bytes32) (height : UInt32) :
    ConnectBlock wideCore .empty height (blockOn prev root) .empty := by
  have h : ConnectBlock wideCore .empty height (blockOf dataCoinbase) _ :=
    connectBlock_coinbase (.inl fun _ => rfl)
  exact ⟨h.txids, h.bip30, h.txs⟩

theorem validChain_branch (x y : UInt8) : ValidChain wideCore (branch x y) .empty :=
  .connect (.connect .genesis (blockOn_connects _ _ _)) (blockOn_connects _ _ _)

theorem validChain_part {blocks : List Block} {x y : UInt8} (hle : blocks <+: branch x y) :
    ValidChain wideCore blocks .empty := by
  have hinit := (List.mem_inits blocks _).mpr hle
  simp only [branch, List.inits, List.map_cons, List.map_nil, List.mem_cons, List.not_mem_nil,
    or_false] at hinit
  rcases hinit with rfl | rfl | rfl
  · exact .genesis
  · exact .connect .genesis (blockOn_connects _ _ _)
  · exact validChain_branch x y

/-- The blocks of a branch leave no coin, so no leaf. -/
theorem leaves_branch {blocks : List Block} {s : Standing Bytes} {x y : UInt8}
    (h : Replayed rootHashing wideCore blocks s) (hle : blocks <+: branch x y) :
    s.forest.leaves.length ≤ 2 ^ 32 := by
  have hfit : CoinsFit wideCore blocks := by
    intro pre coins hpre hchain
    rw [hchain.unique (validChain_part (hpre.trans hle))]
    exact Nat.zero_le _
  have hleaf : rootHashing.LeafInjective := idealHashing_tagInjective TAG_LEAF
  have hinv := h.walked.inv hleaf (validChain_part hle) hfit
  rw [hinv.tracks.length, hinv.utxo]
  exact Nat.zero_le _

/-- The bridge is on a part of the node's branch, and no rewind is near. -/
theorem meets_branch {b : Service Bytes} {x y : UInt8} (killed : Option ℕ)
    (h : b.Named rootHashing wideCore serializer eachBlock)
    (hsearch : ∀ tip floor n, b.phase ≠ .search tip floor n) (hle : b.applied <+: branch x y) :
    b.Meets rootHashing wideCore eachBlock (turnOn (branch x y) killed) ∧
      ∀ f, b.follower.step rootHashing wideCore toTip (callOn (branch x y)) = some f →
        f.applied <+: branch x y ∧ f.done.toNat ≤ 2 := by
  have hcalls : b.follower.Meets rootHashing wideCore (callOn (branch x y)) :=
    ⟨fun _ _ => .inl rfl, fun tip floor n hphase => absurd hphase (hsearch tip floor n)⟩
  have hnext : ∀ f, b.follower.step rootHashing wideCore toTip (callOn (branch x y)) = some f →
      f.applied <+: branch x y := by
    intro f hstep
    rcases h.loop.applied_step hstep with ⟨-, m, happlied⟩ | ⟨target, block, -, hblock, happlied⟩
    · rw [happlied]
      exact (List.take_prefix m _).trans hle
    · obtain ⟨rest, hrest⟩ := hle
      rw [happlied, ← hrest]
      have hlength : b.applied.length = b.follower.done.toNat := h.inv.length
      have hget : (b.applied ++ rest)[b.follower.done.toNat]? = some block := by
        rw [hrest]
        exact hblock
      rw [← hlength, List.getElem?_append_right (le_refl _), Nat.sub_self] at hget
      cases rest with
      | nil => cases hget
      | cons first rest =>
        obtain rfl := Option.some.inj hget
        exact ⟨rest, by rw [List.append_assoc]; rfl⟩
  refine ⟨⟨hcalls, ?_⟩, ?_⟩
  · intro f hstep
    exact leaves_branch (h.loop.step hcalls hstep).replayed (hnext f hstep)
  · intro f hstep
    refine ⟨hnext f hstep, ?_⟩
    rw [← (h.loop.step hcalls hstep).length]
    exact (hnext f hstep).length_le

/-- Two blocks are taken and the bridge is killed; the node has another second block then, and the
    bridge goes back to the first. -/
theorem checks_after_kills_fork : ∃ trace b call f,
    Service.Follows rootHashing wideCore serializer eachBlock trace b ∧
      (∃ t ∈ trace, t.2.1.killed = some 0) ∧
      hashAt rootHashing call.chain 2 ≠ hashAt rootHashing b.applied 2 ∧
      b.follower.Checks rootHashing wideCore toTip call f ∧ f.applied = b.applied.take 1 ∧
      f.halted = false := by
  let t : Turn := turnOn (branch 1 2) none
  let b₀ : Service Bytes := .start rootHashing .empty
  let b₁ : Service Bytes := { b₀ with phase := .fetch 2 }
  -- the count, and two blocks
  have hcount : b₀.follower.step rootHashing wideCore toTip (callOn (branch 1 2)) =
      some b₁.follower := step_start rfl
  have hstep₁ : b₀.step rootHashing wideCore serializer eachBlock t = some b₁ := by
    change (b₀.follower.step rootHashing wideCore toTip (callOn (branch 1 2))).map _ = _
    rw [hcount]
    rfl
  obtain ⟨f₂, hnext₂, hsound₂, hwin₂, hdone₂, happlied₂, hhalted₂, hphase₂, -⟩ :=
    b₁.follower.exists_fetch wideCore toTip (callOn (branch 1 2)) rfl rfl rfl (by decide) .genesis
      (List.cons_ne_nil _ _) rfl rfl
  have hdone₂ : f₂.done.toNat = 1 := hdone₂
  have hphase₂ : f₂.phase = .fetch 2 := hphase₂
  let b₂ : Service Bytes := b₁.went rootHashing wideCore serializer eachBlock t f₂
  have hstep₂ : b₁.step rootHashing wideCore serializer eachBlock t = some b₂ := by
    change (b₁.follower.step rootHashing wideCore toTip (callOn (branch 1 2))).map _ = _
    rw [hnext₂]
    rfl
  have hat₂ : b₂.follower.done.toNat = 1 := hdone₂
  obtain ⟨f₃, hnext₃, -, -, hdone₃, happlied₃, hhalted₃, hphase₃, -⟩ :=
    b₂.follower.exists_fetch wideCore toTip (callOn (branch 1 2)) hphase₂ rfl rfl (by omega) hsound₂
      hwin₂ (by rw [hat₂]; rfl) rfl
  have hdone₃ : f₃.done.toNat = 2 := by rw [hdone₃, hat₂]
  have hphase₃ : f₃.phase = .top := by
    have hone : b₂.follower.done = 1 := UInt32.toNat_inj.mp hat₂
    rw [hphase₃, hone]
    exact if_neg (by decide)
  have happlied₃ : f₃.applied = branch 1 2 := by
    have happlied : b₂.follower.applied = [blockOn GENESIS_HASH (rootOf 1)] := happlied₂
    rw [happlied₃, happlied]
    rfl
  let b₃ : Service Bytes := b₂.went rootHashing wideCore serializer eachBlock t f₃
  have hstep₃ : b₂.step rootHashing wideCore serializer eachBlock t = some b₃ := by
    change (b₂.follower.step rootHashing wideCore toTip (callOn (branch 1 2))).map _ = _
    rw [hnext₃]
    rfl
  -- killed, and started again
  let b₄ : Service Bytes := .start rootHashing b₃.files
  have hstep₄ : b₃.step rootHashing wideCore serializer eachBlock (turnOn (branch 1 2) (some 0)) =
      some b₄ := by
    change some (Service.start rootHashing (b₃.files.run (List.take 0 _))) = _
    rw [List.take_zero]
    rfl
  have hsaves : b₂.saves eachBlock f₃ = true := by
    have hlast : b₂.lastCkpt < f₃.done := by
      have htwo : f₃.done = 2 := UInt32.toNat_inj.mp hdone₃
      have hone : f₂.done = 1 := UInt32.toNat_inj.mp hdone₂
      change (if b₁.saves eachBlock f₂ then f₂.done else (0 : UInt32)) < f₃.done
      rw [htwo, hone]
      split <;> decide
    have hend : ¬ f₃.done < 2 := by
      rw [UInt32.lt_iff_toNat_lt, hdone₃]
      decide
    unfold Service.saves
    rw [show b₂.phase = .fetch 2 from hphase₂]
    exact decide_eq_true (.inr ⟨hend, hlast⟩)
  have hstate : b₃.files.state = some (f₃.process.now, f₃.process.trail) :=
    Service.state_went hsaves
  have happlied₄ : b₄.applied = branch 1 2 := by
    change (b₃.files.state.elim [] Prod.snd).map Prod.snd = _
    rw [hstate]
    exact happlied₃
  have hdone₄ : b₄.now.done.toNat = 2 := by
    change (b₃.files.state.elim (Standing.genesis rootHashing)
      fun ckpt => ckpt.1.resumed rootHashing).done.toNat = 2
    rw [hstate]
    exact hdone₃
  -- nothing goes wrong on the way
  have hunkilled : ∀ b : Service Bytes, b.Pairs rootHashing wideCore serializer eachBlock t :=
    fun b f _ _ => ⟨rfl, fun k hk => (nomatch hk)⟩
  have hsweeps : ∀ (b : Service Bytes) (killed : Option ℕ), (∀ k, killed = some k → k = 0) →
      (∀ f, b.follower.step rootHashing wideCore toTip (callOn (branch 1 2)) = some f →
        f.applied <+: branch 1 2 ∧ f.done.toNat ≤ 2) →
      b.Sweeps rootHashing wideCore serializer eachBlock 2 (turnOn (branch 1 2) killed) :=
    fun b killed hzero hdone => ⟨fun f hf => (hdone f hf).2, fun _ _ => rfl,
      fun f _ _ k hk => .inl (hzero k hk)⟩
  have hnamed₀ : b₀.Named rootHashing wideCore serializer eachBlock := .empty
  obtain ⟨hmeets₀, hnext₀⟩ := meets_branch none hnamed₀ (fun _ _ _ => nofun) List.nil_prefix
  have hnamed₁ := hnamed₀.step hmeets₀ (hunkilled b₀) hstep₁
  obtain ⟨hmeets₁, hnext₁⟩ := meets_branch none hnamed₁ (fun _ _ _ => nofun) List.nil_prefix
  have hnamed₂ := hnamed₁.step hmeets₁ (hunkilled b₁) hstep₂
  have hpart₂ : b₂.applied <+: branch 1 2 := (hnext₁ f₂ hnext₂).1
  have hfetch₂ : b₂.phase = .fetch 2 := hphase₂
  have htop₃ : b₃.phase = .top := hphase₃
  obtain ⟨hmeets₂, hlater₂⟩ := meets_branch none hnamed₂
    (fun _ _ _ hphase => nomatch hfetch₂.symm.trans hphase) hpart₂
  have hnamed₃ := hnamed₂.step hmeets₂ (hunkilled b₂) hstep₃
  obtain ⟨hmeets₃, hlater₃⟩ := meets_branch (some 0) hnamed₃
    (fun _ _ _ hphase => nomatch htop₃.symm.trans hphase) (hlater₂ f₃ hnext₃).1
  have hpairs₃ : b₃.Pairs rootHashing wideCore serializer eachBlock
      (turnOn (branch 1 2) (some 0)) := by
    intro f _ hsaves
    unfold Service.saves at hsaves
    rw [htop₃] at hsaves
    cases hsaves
  have hrun₀ : Service.Follows rootHashing wideCore serializer eachBlock [] b₀ := .nil rfl
  have hrun₁ := Runs.Run.snoc hrun₀ ⟨linked_branch 1 2, hstep₁⟩
  have hrun₂ := Runs.Run.snoc hrun₁ ⟨linked_branch 1 2, hstep₂⟩
  have hrun₃ := Runs.Run.snoc hrun₂ ⟨linked_branch 1 2, hstep₃⟩
  have hrun₄ := Runs.Run.snoc hrun₃ ⟨linked_branch 1 2, hstep₄⟩
  have hours := hashAt_two GENESIS_HASH (rootOf 1) (rootOf 1) (rootOf 2)
  have htheirs : hashAt rootHashing (branch 1 5) 1 = some (rootOf 1) ∧
      hashAt rootHashing (branch 1 5) 2 = some (rootOf 5) := hashAt_two _ _ _ _
  have hsame : branch 1 2 = [blockOn GENESIS_HASH (rootOf 1), blockOn (rootOf 1) (rootOf 2)] := rfl
  rw [← hsame, ← happlied₄] at hours
  have hfork : hashAt rootHashing (branch 1 5) 2 ≠ hashAt rootHashing b₄.applied 2 := by
    intro heq
    exact rootOf_ne (by decide) (Option.some.inj (htheirs.2.symm.trans (heq.trans hours.2)))
  have hall : ∀ p : Service Bytes × Turn × Service Bytes → Prop, p (b₀, t, b₁) → p (b₁, t, b₂) →
      p (b₂, t, b₃) → p (b₃, turnOn (branch 1 2) (some 0), b₄) →
        ∀ e ∈ [] ++ [(b₀, t, b₁)] ++ [(b₁, t, b₂)] ++ [(b₂, t, b₃)] ++
          [(b₃, turnOn (branch 1 2) (some 0), b₄)], p e := by
    intro p h₀ h₁ h₂ h₃
    simp only [List.nil_append, List.cons_append, List.forall_mem_cons, List.not_mem_nil,
      false_imp_iff, implies_true, and_true]
    exact ⟨h₀, h₁, h₂, h₃⟩
  obtain ⟨-, hfind⟩ := checks_after_kills hrun₄ (hall _ hmeets₀ hmeets₁ hmeets₂ hmeets₃)
    (hall _ (hunkilled _) (hunkilled _) (hunkilled _) hpairs₃) rfl (callOn (branch 1 5)) (by decide)
    (by rw [hdone₄]; exact le_refl 2)
  obtain ⟨f, hchecks, -, hwindow⟩ := hfind (by rw [hdone₄]; exact hfork)
  obtain ⟨n, hone, hle, hagree, happlied, -, hhalted⟩ := hwindow 2 1
    (hall _ (hsweeps _ none nofun hnext₀) (hsweeps _ none nofun hnext₁)
      (hsweeps _ none nofun hlater₂)
      (hsweeps _ (some 0) (fun k hk => (Option.some.inj hk).symm) hlater₃))
    (le_refl 1) (by omega) (by decide) (htheirs.1.trans hours.1.symm)
  obtain rfl : n = 1 := by
    rcases Nat.lt_or_eq_of_le (hdone₄ ▸ hle) with hlt | rfl
    · omega
    · exact absurd hagree hfork
  exact ⟨_, b₄, _, f, hrun₄, ⟨_, List.mem_append_right _ (List.mem_singleton_self _), rfl⟩, hfork,
    hchecks, happlied, hhalted⟩

end

end Bridge
end Hazync
