import Hazync.Bridge.Files

/-!
# Killed and started again

What the bridge has on disk is, at each operation, what it needs to go on from its checkpoint
(`Service.Inv`). An operation on a height above, and one that takes a file away, changes nothing of
that (`Service.Inv.edit`), so it is the same wherever the process is killed
(`Service.Inv.killed_cases`).

## The argument

A process that is killed leaves a prefix of what it would have written. The operations are of two
kinds. Those before a checkpoint write above the height of the checkpoint on disk or take files away
(`FileOp.Above`), and neither matters to what is read from a start: a record above the height is
written again before it is read, and a record that is gone only makes the window shorter. The
checkpoint itself is one operation, and with it the state on disk is the one in memory. Its label is
one more, and a start without it has no hash to compare with.

So a process that is killed after `k` operations is, as far as its files go, one that was never
killed at a point of its run (`Service.Inv.killed_cases`), and `Service.Inv.restart` starts from
there. The invariant speaks of the files and the blocks together: the same blocks would be replayed
to the same state.
-/

namespace Hazync
namespace Bridge

open Accumulator (Forest)
open Guest (Core)

variable {H : Type} {hs : Hashing H} {core : Core} {ser : Serializer} {cfg : WriteSettings}

/-! ## Operations -/

section

variable {files : Files H} {ops : List (FileOp H)}

theorem Files.run_append (files : Files H) (ops ops' : List (FileOp H)) :
    files.run (ops ++ ops') = (files.run ops).run ops' := List.foldl_append ..

theorem Files.run_dropUndo (files : Files H) (heights : List ℕ) :
    files.run (heights.map .dropUndo) =
      { files with undo := files.undo.eraseAll heights } := by
  induction heights generalizing files with
  | nil => rfl
  | cons h heights ih => exact ih _

theorem Files.run_dropBundle (files : Files H) (heights : List ℕ) :
    files.run (heights.map .dropBundle) =
      { files with bundles := files.bundles.eraseAll heights } := by
  induction heights generalizing files with
  | nil => rfl
  | cons h heights ih => exact ih _

/-- An operation that leaves what is written at `n` and below, or takes some of it away. -/
def FileOp.Above (cfg : WriteSettings) (n : ℕ) : FileOp H → Prop
  | .putUndo u => n < u.height.toNat
  | .putBundle height _ => n < height ∧ cfg.emitFrom.toNat ≤ height
  | .putState _ _ => False
  | .putHead _ _ => False
  | _ => True

/-- Such operations leave a checkpoint and its label. -/
theorem Files.run_above {n : ℕ} (files : Files H) (hops : ∀ op ∈ ops, op.Above cfg n) :
    (files.run ops).state = files.state ∧ (files.run ops).head = files.head := by
  induction ops generalizing files with
  | nil => exact ⟨rfl, rfl⟩
  | cons op ops ih =>
    obtain ⟨hop, hrest⟩ := List.forall_mem_cons.mp hops
    cases op with
    | putState | putHead => exact hop.elim
    | putUndo | dropUndo | putBundle | dropBundle => exact ih _ hrest

/-- What a write puts beside a checkpoint. -/
def FileOp.Names : FileOp H → Prop
  | .putHead _ _ => True
  | _ => False

theorem Files.run_names (files : Files H) (hops : ∀ op ∈ ops, op.Names) :
    ∃ head, files.run ops = { files with head := head } := by
  induction ops generalizing files with
  | nil => exact ⟨files.head, rfl⟩
  | cons op ops ih =>
    obtain ⟨hop, hrest⟩ := List.forall_mem_cons.mp hops
    cases op with
    | putHead height hash => exact ih _ hrest
    | putUndo | dropUndo | putBundle | dropBundle | putState => exact hop.elim

end

/-! ## The loop, whatever its head -/

variable [DecidableEq H]

section

variable {f f' : Follower H} {call : Call} {tip : UInt32} {dir : UndoDir H}

/-- Records above do not matter, nor does one that is gone. -/
theorem Follower.Inv.redir (h : f.Inv hs core) (hdir : ∀ i ≤ f.done.toNat, ∀ u,
    dir.get? i = some u → f.process.dir.get? i = some u) :
    Follower.Inv hs core { f with process := { f.process with dir := dir } } := by
  have hlength : f.process.trail.length = f.done.toNat := h.process.done.symm
  have hprocess : Process.Inv hs core { f.process with dir := dir } := by
    refine { h.process with records := ?_ }
    intro n u hn hu
    exact h.process.records n u hn (hdir (n + 1) (by dsimp only at hn; omega) u hu)
  refine ⟨hprocess, h.exact, h.replays, h.head, ?_, h.search⟩
  intro n u hn hu
  exact h.hashes n u hn (hdir (n + 1) (by rw [← h.length]; exact hn) u hu)

/-- A checkpoint of what is held now. -/
theorem Follower.Inv.save (h : f.Inv hs core) :
    Follower.Inv hs core
      { f with process := { f.process with saved := some f.process.now } } := by
  have hstep : f.process.step hs core 0 .save =
      some { f.process with saved := some f.process.now } := rfl
  exact ⟨h.process.step (e := .save) trivial hstep, h.exact, h.replays, h.head, h.hashes, h.search⟩

/-- Another process starts on the files. Its forest is built from the leaves of the checkpoint, with
    a fresh index; the maps are the same since they are in their canonical form. -/
theorem Follower.Inv.restarted {now : Standing H} {head : Option String} (h : f.Inv hs core)
    (hnow : f.process.saved.elim (.genesis hs) (·.resumed hs) = now)
    (hroom : now.forest.leaves.length ≤ 2 ^ 32)
    (hhead : 0 < now.done.toNat → ∃ hash, hashAt hs f.applied now.done.toNat = some hash ∧
      head = some (displayHash hash)) :
    Follower.Inv hs core ⟨⟨now, f.process.dir, f.process.saved,
      f.process.trail.take now.done.toNat⟩, head, false, .top⟩ := by
  -- a restart that drops nothing more: the undo files are kept
  have hprocess : Process.Inv hs core ⟨now, f.process.dir, f.process.saved,
      f.process.trail.take now.done.toNat⟩ := by
    have hstep : f.process.step hs core 0 (.restart fun _ => false) = some ⟨now, f.process.dir,
        f.process.saved, f.process.trail.take now.done.toNat⟩ := by
      unfold Process.step
      dsimp only
      rw [hnow, List.filter_false]
      rfl
    exact h.process.step (e := .restart fun _ => false) trivial hstep
  -- what is read back is genesis, or the coins that were saved with their height
  obtain ⟨hforest, hheld⟩ : Indexed now.forest ∧
      heldAt f.process.trail f.process.now.held now.done.toNat = some now.held := by
    cases hsaved : f.process.saved with
    | none =>
      rw [hsaved] at hnow
      obtain rfl := hnow
      exact ⟨Standing.Exact.genesis.forest, h.process.start⟩
    | some s =>
      rw [hsaved] at hnow
      obtain rfl := hnow
      obtain ⟨hcached, -, hat⟩ := h.process.saved s hsaved
      refine ⟨⟨.fromLeaves hroom, rfl⟩, ?_⟩
      change heldAt f.process.trail f.process.now.held s.done.toNat = some (s.resumed hs).held
      rw [Standing.held_resumed hcached]
      exact hat
  -- the blocks above the saved height are forgotten, and the others are a prefix of what was
  -- applied
  have happlied : (f.process.trail.take now.done.toNat).map Prod.snd =
      f.applied.take now.done.toNat := List.map_take
  refine ⟨hprocess, ⟨hprocess.sound, hforest⟩, ?_, ?_, ?_, ?_⟩
  · intro n held hn
    unfold Follower.applied
    dsimp only at hn ⊢
    have hle : n ≤ now.done.toNat := by
      have hlt := le_of_heldAt hn
      rw [List.length_take] at hlt
      omega
    rw [heldAt_take hheld hle] at hn
    rw [happlied, List.take_take, Nat.min_eq_left hle]
    exact h.replays n held hn
  · intro hpos
    obtain ⟨hash, hhash, hname⟩ := hhead hpos
    refine ⟨hash, ?_, hname⟩
    unfold Follower.applied Follower.done
    dsimp only
    rw [happlied, hashAt_take (le_refl _), hhash]
  · intro n u hn hu
    unfold Follower.applied at hn ⊢
    dsimp only at hn hu ⊢
    rw [happlied] at hn ⊢
    rw [List.length_take] at hn
    rw [hashAt_take (by omega)]
    exact h.hashes n u (by omega) hu
  · intro tip floor n heq
    cases heq

/-- What a rewind removes is what it can remove of the records that it takes back. -/
theorem dir_of_unwind {s s' : Standing H} {dir dir' : UndoDir H} {stuck : ℕ → Bool} {l : List ℕ}
    (h : l.foldlM (unwind hs stuck) (s, dir) = some (s', dir')) :
    dir' = dir.eraseAll (l.filter fun i => stuck i = false) := by
  induction l generalizing s dir with
  | nil =>
    obtain ⟨-, rfl⟩ := Prod.mk.inj (Option.some.inj h)
    rfl
  | cons n l ih =>
    rw [List.foldlM_cons] at h
    obtain ⟨⟨mid, between⟩, hstep, hrest⟩ := Option.bind_eq_some_iff.mp h
    unfold unwind at hstep
    simp only [Option.bind_eq_bind, Option.bind_eq_some_iff, Option.some.injEq] at hstep
    obtain ⟨u, -, F, -, heq⟩ := hstep
    obtain ⟨-, rfl⟩ := Prod.mk.inj heq
    rw [ih hrest]
    cases hstuck : stuck n with
    | true => simp [hstuck]
    | false =>
      simp only [Bool.false_eq_true, if_false]
      rw [List.filter_cons_of_pos (by simpa using hstuck)]
      rfl

theorem dir_of_rewindTo {s s' : Standing H} {dir dir' : UndoDir H} {target : UInt32}
    {stuck : ℕ → Bool} (h : rewindTo hs dir target s stuck = some (.ok (), s', dir')) :
    target < s.done ∧ dir' =
      dir.eraseAll ((heightsAbove target s.done).reverse.filter fun i => stuck i = false) := by
  unfold rewindTo at h
  split at h
  · obtain ⟨hok, -⟩ := Prod.mk.inj (Option.some.inj h)
    cases hok
  · rename_i hbelow
    refine ⟨UInt32.not_le.mp hbelow, ?_⟩
    split at h
    · obtain ⟨hok, -⟩ := Prod.mk.inj (Option.some.inj h)
      cases hok
    · obtain ⟨⟨s₁, dir₁⟩, hfold, heq⟩ := Option.bind_eq_some_iff.mp h
      obtain ⟨-, hrest⟩ := Prod.mk.inj (Option.some.inj heq)
      obtain ⟨rfl, rfl⟩ := Prod.mk.inj hrest
      exact dir_of_unwind hfold

/-- Only a rewind that is done depends on more than the phase: else the bridge halts, and what it
    holds is as it was. -/
theorem Follower.rewound_cases_ok {n : ℕ} (head : Option String)
    (hstep : f.rewound hs cfg.toSettings tip n call = some f') :
    f' = f.halt.plan cfg.toSettings tip ∨
      ∃ now dir, rewindTo hs f.process.dir (UInt32.ofNat n) f.process.now call.stuck =
          some (.ok (), now, dir) ∧
        f'.process = ⟨now, dir, some now, f.process.trail.take (UInt32.ofNat n).toNat⟩ ∧
        Follower.rewound hs cfg.toSettings { f with head := head } tip n call = some f' := by
  unfold Follower.rewound at hstep
  obtain ⟨⟨r, now, dir⟩, hrewind, hrest⟩ := Option.bind_eq_some_iff.mp hstep
  cases r with
  | error e => exact .inl (Option.some.inj hrest).symm
  | ok _ =>
    refine .inr ⟨now, dir, hrewind, ?_, ?_⟩
    · rw [← Option.some.inj hrest]
      rfl
    unfold Follower.rewound
    dsimp only
    rw [hrewind]
    exact hrest

/-- With some head or other it is what a walk left. A start without a label has no head to compare,
    and this is all that it loses. -/
def Follower.Steady (hs : Hashing H) (core : Core) (f : Follower H) : Prop :=
  ∃ head, Follower.Inv hs core { f with head := head }

/-- What a call does, whatever the head: nothing to what is held, or a rewind, or a block. The three
    cases carry what the later lemmas need of each. -/
theorem Follower.Steady.step_cases (h : f.Steady hs core)
    (hstep : f.step hs core cfg.toSettings call = some f') :
    ((∀ target, f.phase ≠ .fetch target) ∧
      ∃ halted phase, f' = { f with halted := halted, phase := phase } ∧
        ∀ tip floor n, phase = .search tip floor n → 1 ≤ floor ∧ floor ≤ n ∧ n ≤ f.done.toNat) ∨
    (∃ tip floor n u now dir head, f.phase = .search tip floor n ∧
      f.process.dir.get? n = some u ∧ hashAt hs call.chain n = hashAt hs f.applied n ∧
      rewindTo hs f.process.dir (UInt32.ofNat n) f.process.now call.stuck =
        some (.ok (), now, dir) ∧
      f'.process = ⟨now, dir, some now, f.process.trail.take (UInt32.ofNat n).toNat⟩ ∧
      Follower.Inv hs core { f with head := head } ∧
      Follower.rewound hs cfg.toSettings { f with head := head } tip n call = some f') ∨
    ∃ target block now u, f.phase = .fetch target ∧ call.chain[f.done.toNat]? = some block ∧
      f.process.now.advance hs core (displayHash (block.hash hs)) block = some (now, u) ∧
      f' = { f with
        process := { f.process with
          now := now
          dir := pushUndo f.process.dir u cfg.undoKeep call.outcome
          trail := f.process.trail ++ [(f.process.now.held, block)] }
        head := some (displayHash (block.hash hs))
        phase := if now.done < target then .fetch target else .top } := by
  obtain ⟨head, hinv⟩ := h
  have hsearch : ∀ tip floor n, f.phase = .search tip floor n →
      1 ≤ floor ∧ floor ≤ n ∧ n ≤ f.done.toNat := hinv.search
  -- a check that finds nothing to do, or halts, ends with a plan
  have hplan : ∀ (halted : Bool) (tip : UInt32) (g : Follower H),
      g = Follower.plan cfg.toSettings { f with halted := halted } tip →
      (∀ target, f.phase ≠ .fetch target) →
      (∀ target, f.phase ≠ .fetch target) ∧
        ∃ halted phase, g = { f with halted := halted, phase := phase } ∧
          ∀ tip floor n, phase = .search tip floor n →
            1 ≤ floor ∧ floor ≤ n ∧ n ≤ f.done.toNat := by
    rintro halted tip g rfl hphase
    refine ⟨hphase, halted, _, rfl, ?_⟩
    intro tip' floor n heq
    rcases Follower.plan_phase cfg.toSettings { f with halted := halted } tip with
      htop | ⟨target, hfetch⟩
    · cases htop.symm.trans heq
    · cases hfetch.symm.trans heq
  unfold Follower.step at hstep
  -- the phases that only look come first, then the rewind and the fetch, which write
  cases hphase : f.phase with
  | top =>
    rw [hphase] at hstep hplan
    dsimp only at hstep
    split at hstep
    · split at hstep
      · obtain rfl := Option.some.inj hstep
        exact .inl ⟨fun _ => nofun, f.halted, .compare _, rfl, fun _ _ _ => nofun⟩
      · exact .inl (hplan f.halted _ _ (Option.some.inj hstep).symm fun _ => nofun)
    · cases hstep
  | compare tip =>
    rw [hphase] at hstep hplan
    simp only [Option.bind_eq_bind, Option.bind_eq_some_iff] at hstep
    obtain ⟨hash, -, hstep⟩ := hstep
    split at hstep
    · split at hstep
      · rename_i hfloor
        obtain rfl := Option.some.inj hstep
        refine .inl ⟨fun _ => nofun, f.halted, .search tip _ _, rfl, ?_⟩
        intro tip' floor n heq
        obtain ⟨rfl, rfl, rfl⟩ := Phase.search.injEq .. ▸ heq
        exact ⟨le_max_right _ _, hfloor, le_refl _⟩
      · exact .inl (hplan true tip _ (Option.some.inj hstep).symm fun _ => nofun)
    · exact .inl (hplan f.halted tip _ (Option.some.inj hstep).symm fun _ => nofun)
  | search tip floor n =>
    rw [hphase] at hstep hplan
    obtain ⟨hone, hfloor, hle⟩ := hsearch tip floor n hphase
    cases hu : f.process.dir.get? n with
    | none =>
      simp only [hu] at hstep
      exact .inl (hplan true tip _ (Option.some.inj hstep).symm fun _ => nofun)
    | some u =>
      simp only [hu, Option.bind_eq_bind, Option.bind_eq_some_iff] at hstep
      obtain ⟨hash, hhash, hstep⟩ := hstep
      split at hstep
      · rename_i hname
        have hagrees := (hinv.agrees hphase hu hhash).mp hname
        rcases f.rewound_cases_ok head hstep with hhalt | ⟨now, dir, hrewind, hprocess, hdid⟩
        · exact .inl (hplan true tip _ hhalt fun _ => nofun)
        · exact .inr (.inl
            ⟨tip, floor, n, u, now, dir, head, rfl, hu, hagrees, hrewind, hprocess,
              hphase ▸ hinv, hphase ▸ hdid⟩)
      · split at hstep
        · obtain rfl := Option.some.inj hstep
          refine .inl ⟨fun _ => nofun, f.halted, .search tip floor (n - 1), rfl, ?_⟩
          intro tip' floor' n' heq
          obtain ⟨rfl, rfl, rfl⟩ := Phase.search.injEq .. ▸ heq
          omega
        · exact .inl (hplan true tip _ (Option.some.inj hstep).symm fun _ => nofun)
  | fetch target =>
    rw [hphase] at hstep
    simp only [Option.bind_eq_bind, Option.bind_eq_some_iff, Option.some.injEq] at hstep
    obtain ⟨block, hblock, process, hprocess, rfl⟩ := hstep
    obtain ⟨⟨now, u⟩, hadvance, heq⟩ := Option.bind_eq_some_iff.mp hprocess
    obtain rfl := Option.some.inj heq
    exact .inr (.inr ⟨target, block, now, u, rfl, hblock, hadvance, rfl⟩)

end

/-! ## The bridge and its files -/

section

variable {b b' : Service H} {t : Turn} {f : Follower H} {op : FileOp H} {ops : List (FileOp H)}

/-- What is on disk up to the height that the bridge is at, and of its checkpoint. A kill can only
    leave more than that: files above the height, which the next walk over those blocks writes
    again. -/
structure Service.Inv (hs : Hashing H) (core : Core) (ser : Serializer) (cfg : WriteSettings)
    (b : Service H) : Prop where
  /-- The bridge in memory is the replay of the blocks it has applied. -/
  steady : b.follower.Steady hs core
  /-- The checkpoint is of some height on the same trail, where the forest fitted its index. -/
  state : ∀ s below, b.files.state = some (s, below) →
    below = b.trail.take s.done.toNat ∧ s.forest.leaves.length ≤ 2 ^ 32
  /-- A bundle up to the height is the one that the walk makes of its block, whichever process wrote
      it. -/
  bundles : ∀ n block x, b.applied[n]? = some block → b.files.bundles.get? (n + 1) = some x →
    ∃ s, Replayed hs core (b.applied.take n) s ∧ x = s.bundle hs core ser block
  /-- There are none below the height from which bundles are written. -/
  emitted : ∀ height x, b.files.bundles.get? height = some x → cfg.emitFrom.toNat ≤ height

/-- What is asked of a call: the loop's own conditions, and a forest that has an index. -/
structure Service.Meets (hs : Hashing H) (core : Core) (cfg : WriteSettings) (b : Service H)
    (t : Turn) : Prop where
  calls : b.follower.Meets hs core t.call
  room : ∀ f, b.follower.step hs core cfg.toSettings t.call = some f →
    f.process.now.forest.leaves.length ≤ 2 ^ 32

theorem Service.Inv.length (h : b.Inv hs core ser cfg) : b.applied.length = b.now.done.toNat := by
  obtain ⟨head, hinv⟩ := h.steady
  exact hinv.length

theorem Service.Inv.empty : (Service.start hs .empty).Inv hs core ser cfg where
  steady := ⟨none, .start⟩
  state s below hstate := by cases hstate
  bundles n block x hblock := by cases hblock
  emitted height x hx := by cases SortedMap.get?_empty.symm.trans hx

/-- **What is written above, or taken away**, changes nothing. Each clause of the invariant reads
    files at or below the height only. -/
theorem Service.Inv.edit (h : b.Inv hs core ser cfg) (hop : op.Above cfg b.now.done.toNat) :
    Service.Inv hs core ser cfg { b with files := op.run b.files } := by
  obtain ⟨head, hinv⟩ := h.steady
  cases op with
  | putUndo u =>
    refine ⟨⟨head, hinv.redir ?_⟩, h.state, h.bundles, h.emitted⟩
    intro i hi v hv
    change (b.files.undo.insert u.height.toNat u).get? i = some v at hv
    -- what is written is above the height of the bridge, and what is known is below
    have hne : i ≠ u.height.toNat := (lt_of_le_of_lt hi hop).ne
    rwa [SortedMap.get?_insert, Function.update_of_ne hne] at hv
  | dropUndo height =>
    refine ⟨⟨head, hinv.redir ?_⟩, h.state, h.bundles, h.emitted⟩
    intro i hi v hv
    change (b.files.undo.erase height).get? i = some v at hv
    rw [SortedMap.get?_erase, Function.update_apply] at hv
    exact (Option.ite_none_left_eq_some.mp hv).2
  | putBundle height x =>
    refine ⟨⟨head, hinv⟩, h.state, ?_, ?_⟩
    · intro n block y hblock hy
      change (b.files.bundles.insert height x).get? (n + 1) = some y at hy
      have hlt := (List.getElem?_eq_some_iff.mp hblock).1
      have hne : n + 1 ≠ height := by
        have hlength := h.length
        have habove : b.now.done.toNat < height := hop.1
        unfold Service.applied at hlt hlength
        dsimp only at hlt
        omega
      rw [SortedMap.get?_insert, Function.update_of_ne hne] at hy
      exact h.bundles n block y hblock hy
    · intro i y hy
      change (b.files.bundles.insert height x).get? i = some y at hy
      rw [SortedMap.get?_insert, Function.update_apply] at hy
      split at hy
      · rename_i heq
        exact heq ▸ hop.2
      · exact h.emitted i y hy
  | dropBundle height =>
    -- a bundle less is no other bundle
    have hold : ∀ i y, (b.files.bundles.erase height).get? i = some y →
        b.files.bundles.get? i = some y := by
      intro i y hy
      rw [SortedMap.get?_erase, Function.update_apply] at hy
      exact (Option.ite_none_left_eq_some.mp hy).2
    refine ⟨⟨head, hinv⟩, h.state, ?_, ?_⟩
    · exact fun n block y hblock hy => h.bundles n block y hblock (hold _ _ hy)
    · exact fun i y hy => h.emitted i y (hold _ _ hy)
  | putState | putHead => exact hop.elim

theorem Service.Inv.run (h : b.Inv hs core ser cfg)
    (hops : ∀ op ∈ ops, op.Above cfg b.now.done.toNat) :
    Service.Inv hs core ser cfg { b with files := b.files.run ops } := by
  induction ops generalizing b with
  | nil => exact h
  | cons op ops ih =>
    have hnext := h.edit (hops op List.mem_cons_self)
    exact ih hnext fun op' hop' => hops op' (List.mem_cons_of_mem _ hop')

/-- The bundles of the blocks up to a height are those of a walk over them. -/
theorem Service.Inv.bundles_take (h : b.Inv hs core ser cfg) {m n : ℕ} {block : Block}
    {x : Option (Guest.Boundary H × Guest.BlockWitness H)}
    (hblock : ((b.trail.take m).map Prod.snd)[n]? = some block)
    (hx : b.files.bundles.get? (n + 1) = some x) :
    ∃ s, Replayed hs core (((b.trail.take m).map Prod.snd).take n) s ∧
      x = s.bundle hs core ser block := by
  have happlied : (b.trail.take m).map Prod.snd = b.applied.take m := List.map_take
  rw [happlied] at hblock ⊢
  have hn : n < m := by
    have hlt := (List.getElem?_eq_some_iff.mp hblock).1
    rw [List.length_take] at hlt
    omega
  rw [List.getElem?_take_of_lt hn] at hblock
  rw [List.take_take, Nat.min_eq_left hn.le]
  exact h.bundles n block x hblock hx

/-- What is found in a checkpoint is a part of what the process went through. -/
theorem Service.Inv.start_spec (h : b.Inv hs core ser cfg) :
    (Service.start hs b.files).trail =
        b.trail.take (Service.start hs b.files).now.done.toNat ∧
      (Service.start hs b.files).now.forest.leaves.length ≤ 2 ^ 32 ∧
      (Service.start hs b.files).now.done.toNat ≤ b.now.done.toNat := by
  obtain ⟨head, hinv⟩ := h.steady
  unfold Service.start
  dsimp only
  cases hstate : b.files.state with
  | none => exact ⟨rfl, Nat.zero_le _, Nat.zero_le _⟩
  | some ckpt =>
    obtain ⟨hbelow, hlen⟩ := h.state ckpt.1 ckpt.2 hstate
    have hsaved : b.follower.process.saved = some ckpt.1 := by
      change b.files.state.map Prod.fst = _
      rw [hstate]
      rfl
    have hlower := (hinv.process.saved ckpt.1 hsaved).2.1
    have hdone : b.now.done.toNat = b.trail.length := hinv.process.done
    exact ⟨hbelow, hlen, hdone ▸ hlower⟩

/-- **Started again**, the bridge is at its checkpoint, and what is above it on disk is above. -/
theorem Service.Inv.restart (h : b.Inv hs core ser cfg) :
    (Service.start hs b.files).Inv hs core ser cfg := by
  obtain ⟨head, hinv⟩ := h.steady
  have hnow : (b.files.state.map Prod.fst).elim (.genesis hs) (·.resumed hs) =
      (Service.start hs b.files).now := by
    unfold Service.start
    dsimp only
    cases b.files.state <;> rfl
  obtain ⟨htrail, hroom, hle⟩ := h.start_spec
  generalize hstart : Service.start hs b.files = r at hnow htrail hroom hle ⊢
  have hfiles : r.files = b.files := hstart ▸ rfl
  have hphase : r.phase = .top ∧ r.halted = false := hstart ▸ ⟨rfl, rfl⟩
  obtain ⟨now, trail, head', halted, phase, last, files⟩ := r
  dsimp only at hnow htrail hroom hle hfiles hphase
  obtain ⟨rfl, rfl⟩ := hphase
  subst hfiles htrail
  obtain ⟨hash, hhash⟩ : ∃ hash, hashAt hs b.applied now.done.toNat = some hash :=
    exists_hashAt (by rw [h.length]; exact hle)
  have hloop : Follower.Inv hs core ⟨⟨now, b.files.undo, b.files.state.map Prod.fst,
      b.trail.take now.done.toNat⟩, some (displayHash hash), false, .top⟩ :=
    hinv.restarted hnow hroom fun _ => ⟨hash, hhash, rfl⟩
  refine ⟨⟨some (displayHash hash), hloop⟩, ?_, ?_, h.emitted⟩
  · intro s below hstate
    obtain ⟨hbelow, hlen⟩ := h.state s below hstate
    have hdone : now.done = s.done := by
      rw [← hnow, hstate]
      rfl
    refine ⟨?_, hlen⟩
    dsimp only
    rw [hdone, List.take_take, Nat.min_self]
    exact hbelow
  · exact fun n block x hblock hx => h.bundles_take hblock hx

/-! ## What is written at a call -/

/-- Where the height stays and no block is fetched, nothing is. -/
theorem Service.writes_idle (hphase : ∀ target, b.phase ≠ .fetch target)
    (hdone : f.done = b.now.done) :
    b.writes hs core ser cfg t f = [] ∧ b.saves cfg f = false := by
  unfold Service.writes Service.checkpoint Service.edits Service.saves
  cases hcase : b.phase with
  | fetch target => exact absurd hcase (hphase target)
  | top => exact ⟨rfl, rfl⟩
  | compare tip => exact ⟨rfl, rfl⟩
  | search tip floor n =>
    have hnot : ¬ f.done < b.now.done := by
      rw [hdone]
      exact UInt32.lt_irrefl _
    simp [hnot]

omit [DecidableEq H] in
/-- A checkpoint, with the hash beside it where that can be written. -/
theorem Service.checkpoint_cases (cfg : WriteSettings) (b : Service H) (t : Turn)
    (f : Follower H) :
    (b.saves cfg f = false ∧ b.checkpoint cfg t f = []) ∨
      ∃ names, (∀ op ∈ names, op.Names) ∧ b.saves cfg f = true ∧
        b.checkpoint cfg t f = .putState f.process.now f.process.trail :: names := by
  unfold Service.checkpoint
  cases hsaves : b.saves cfg f with
  | false => exact .inl ⟨rfl, rfl⟩
  | true =>
    refine .inr ⟨_, ?_, rfl, rfl⟩
    intro op hop
    cases hhead : f.head with
    | none =>
      rw [hhead] at hop
      exact absurd hop List.not_mem_nil
    | some hash =>
      rw [hhead, Option.elim_some] at hop
      split at hop
      · rw [List.mem_singleton.mp hop]
        trivial
      · exact absurd hop List.not_mem_nil

/-- The files after a block, but for a checkpoint: its record and its bundle are there, and the
    records that are too old are gone. -/
theorem Service.run_edits_fetch {target : UInt32} {block : Block} {now : Standing H}
    {u : BlockUndo H} (hphase : b.phase = .fetch target)
    (hblock : t.call.chain[b.now.done.toNat]? = some block)
    (hadvance : b.now.advance hs core (displayHash (block.hash hs)) block = some (now, u)) :
    b.files.run (b.edits hs core ser cfg t f) = { b.files with
      undo := pushUndo b.files.undo u cfg.undoKeep t.call.outcome
      bundles := if cfg.emitFrom ≤ u.height then
          b.files.bundles.insert u.height.toNat (b.now.bundle hs core ser block)
        else b.files.bundles } := by
  have hundo : pushUndo b.files.undo u cfg.undoKeep t.call.outcome =
      (if t.call.outcome.written then b.files.undo.insert u.height.toNat u
        else b.files.undo).eraseAll
        (Service.pruned b.files.undo u cfg.undoKeep t.call.outcome) := by
    unfold pushUndo Service.pruned
    dsimp only
    by_cases hold : u.height > cfg.undoKeep
    · rw [if_pos hold, if_pos hold]
    · rw [if_neg hold, if_neg hold]
      rfl
  unfold Service.edits
  rw [hphase, hundo]
  dsimp only
  rw [hblock]
  dsimp only
  rw [hadvance]
  dsimp only
  rw [Files.run_append, Files.run_append, Files.run_dropUndo]
  by_cases hemit : cfg.emitFrom ≤ u.height
  · rw [if_pos hemit, if_pos hemit]
    cases t.call.outcome.written <;> rfl
  · rw [if_neg hemit, if_neg hemit]
    cases t.call.outcome.written <;> rfl

/-- What is written before a checkpoint is above, or takes away. After a block it is of the block's
    height, one above the bridge's; a rewind only removes. -/
theorem Service.Inv.above (h : b.Inv hs core ser cfg)
    (hop : op ∈ b.edits hs core ser cfg t f) : op.Above cfg b.now.done.toNat := by
  obtain ⟨head, hinv⟩ := h.steady
  unfold Service.edits at hop
  cases hphase : b.phase with
  | top =>
    rw [hphase] at hop
    exact absurd hop List.not_mem_nil
  | compare tip =>
    rw [hphase] at hop
    exact absurd hop List.not_mem_nil
  | search tip floor n =>
    rw [hphase] at hop
    dsimp only at hop
    split at hop
    · rcases List.mem_append.mp hop with hop | hop
      · obtain ⟨i, -, rfl⟩ := List.mem_map.mp hop
        trivial
      · obtain ⟨i, -, rfl⟩ := List.mem_map.mp hop
        trivial
    · exact absurd hop List.not_mem_nil
  | fetch target =>
    rw [hphase] at hop
    dsimp only at hop
    split at hop
    · exact absurd hop List.not_mem_nil
    · rename_i block hblock
      split at hop
      · exact absurd hop List.not_mem_nil
      · rename_i now u hadvance
        obtain ⟨-, hdone, hheight, -⟩ := hinv.process.sound.advance hadvance
        -- the files of a new block are those of the height after the bridge's
        have hnext : b.now.done.toNat < u.height.toNat := by
          have hone : now.done.toNat = b.now.done.toNat + 1 := hdone
          rw [hheight, hone]
          exact Nat.lt_succ_self _
        rcases List.mem_append.mp hop with hop | hop
        · split at hop
          · rw [List.mem_singleton.mp hop]
            exact hnext
          · exact absurd hop List.not_mem_nil
        · rcases List.mem_append.mp hop with hop | hop
          · obtain ⟨i, -, rfl⟩ := List.mem_map.mp hop
            trivial
          · split at hop
            · rename_i hemit
              rw [List.mem_singleton.mp hop]
              exact ⟨hnext, UInt32.le_iff_toNat_le.mp hemit⟩
            · exact absurd hop List.not_mem_nil

/-- What a rewind writes before its checkpoint. -/
theorem Service.edits_rewind {tip : UInt32} {floor n : ℕ} (hphase : b.phase = .search tip floor n)
    (hlt : f.done < b.now.done) :
    b.saves cfg f = true ∧ b.files.run (b.edits hs core ser cfg t f) = { b.files with
      undo := b.files.undo.eraseAll ((heightsAbove f.done b.now.done).reverse.filter fun h =>
        t.call.stuck h = false)
      bundles := b.files.bundles.eraseAll ((heightsAbove f.done b.now.done).filter fun h =>
        t.stuckBundle h = false) } := by
  unfold Service.saves Service.edits
  rw [hphase]
  dsimp only
  refine ⟨decide_eq_true hlt, ?_⟩
  rw [if_pos hlt, Files.run_append, Files.run_dropUndo, Files.run_dropBundle]

/-! ## From one call to the next -/

/-- What a call leaves, by what it writes before a checkpoint. -/
theorem Service.went_cases {files : Files H}
    (hfiles : b.files.run (b.edits hs core ser cfg t f) = files) :
    (b.saves cfg f = false ∧ b.went hs core ser cfg t f =
        ⟨f.process.now, f.process.trail, f.head, f.halted, f.phase, b.lastCkpt, files⟩) ∨
      (b.saves cfg f = true ∧ ∃ named, b.went hs core ser cfg t f =
        ⟨f.process.now, f.process.trail, f.head, f.halted, f.phase, f.done,
          ⟨files.undo, files.bundles, some (f.process.now, f.process.trail), named⟩⟩) := by
  unfold Service.went Service.writes
  rw [Files.run_append, hfiles]
  rcases Service.checkpoint_cases cfg b t f with ⟨hsaves, hckpt⟩ | ⟨names, hnames, hsaves, hckpt⟩
  · rw [hckpt, hsaves]
    exact .inl ⟨rfl, rfl⟩
  · obtain ⟨named, hnamed⟩ := Files.run_names
      { files with state := some (f.process.now, f.process.trail) } hnames
    rw [hckpt, hsaves]
    refine .inr ⟨rfl, named, ?_⟩
    exact congrArg (Service.mk f.process.now f.process.trail f.head f.halted f.phase f.done) hnamed

/-- A call that leaves what is held writes nothing. -/
theorem Service.Inv.went_idle {halted : Bool} {phase : Phase} (h : b.Inv hs core ser cfg)
    (hfetch : ∀ target, b.phase ≠ .fetch target)
    (hsearch : ∀ tip floor n, phase = .search tip floor n →
      1 ≤ floor ∧ floor ≤ n ∧ n ≤ b.now.done.toNat) :
    (b.went hs core ser cfg t { b.follower with halted := halted, phase := phase }).Inv
      hs core ser cfg := by
  obtain ⟨head, hinv⟩ := h.steady
  obtain ⟨hwrites, hsaves⟩ :
      b.writes hs core ser cfg t { b.follower with halted := halted, phase := phase } = [] ∧
        b.saves cfg { b.follower with halted := halted, phase := phase } = false :=
    Service.writes_idle hfetch rfl
  have hwent : b.went hs core ser cfg t { b.follower with halted := halted, phase := phase } =
      { b with halted := halted, phase := phase } := by
    unfold Service.went
    rw [hwrites, hsaves]
    rfl
  rw [hwent]
  exact ⟨⟨head, hinv.rephase hsearch⟩, h.state, h.bundles, h.emitted⟩

/-- A rewind takes its bundles with it, and leaves a checkpoint. A bundle that could not be removed
    is of a height that is above again, so nothing is said of it. -/
theorem Service.Inv.went_rewind {tip target : UInt32} {floor n : ℕ} {now : Standing H}
    {dir : UndoDir H} (h : b.Inv hs core ser cfg) (hphase : b.phase = .search tip floor n)
    (hrewind : rewindTo hs b.files.undo target b.now t.call.stuck = some (.ok (), now, dir))
    (hprocess : f.process = ⟨now, dir, some now, b.trail.take target.toNat⟩)
    (hloop : f.Inv hs core) (hroom : now.forest.leaves.length ≤ 2 ^ 32) :
    (b.went hs core ser cfg t f).Inv hs core ser cfg := by
  obtain ⟨hbelow, hdir⟩ := dir_of_rewindTo hrewind
  -- the rewind has come to the height that it was for
  have hdone : now.done = target := by
    have hlength := hloop.process.done
    rw [hprocess] at hlength
    dsimp only at hlength
    rw [List.length_take] at hlength
    have hlast : b.trail.length = b.now.done.toNat := List.length_map .. ▸ h.length
    have hlower := UInt32.lt_iff_toNat_lt.mp hbelow
    exact UInt32.toNat_inj.mp (by omega)
  have hat : f.done = target := by
    unfold Follower.done
    rw [hprocess]
    exact hdone
  obtain ⟨hsaves, hfiles⟩ :
      b.saves cfg f = true ∧ b.files.run (b.edits hs core ser cfg t f) = _ :=
    Service.edits_rewind hphase (hat ▸ hbelow)
  have hundo : b.files.undo.eraseAll ((heightsAbove f.done b.now.done).reverse.filter fun h =>
      t.call.stuck h = false) = dir := by
    rw [hat]
    exact hdir.symm
  rw [hundo] at hfiles
  -- bundles above the height are deleted, as far as that succeeds, and none is written
  have hold : ∀ i x, (b.files.bundles.eraseAll ((heightsAbove f.done b.now.done).filter fun h =>
      t.stuckBundle h = false)).get? i = some x → b.files.bundles.get? i = some x := by
    intro i x hx
    rw [SortedMap.get?_eraseAll] at hx
    exact (Option.ite_none_left_eq_some.mp hx).2
  -- a rewind always saves
  rcases Service.went_cases hfiles with ⟨hno, -⟩ | ⟨-, named, hwent⟩
  · rw [hsaves] at hno
    cases hno
  rw [hwent, hprocess]
  refine ⟨⟨f.head, ?_⟩, ?_, ?_, ?_⟩
  · change Follower.Inv hs core
      ⟨⟨now, dir, some now, b.trail.take target.toNat⟩, f.head, f.halted, f.phase⟩
    rw [← hprocess]
    exact hloop
  · intro s below hstate
    obtain ⟨rfl, rfl⟩ : now = s ∧ b.trail.take target.toNat = below :=
      Prod.mk.inj (Option.some.inj hstate)
    refine ⟨?_, hroom⟩
    dsimp only
    rw [hdone, List.take_take, Nat.min_self]
  · exact fun i block x hblock hx => h.bundles_take hblock (hold _ _ hx)
  · exact fun i x hx => h.emitted i x (hold i x hx)

/-- The bundle of the next block is one of a walk too: of the walk that the bridge has made to
    here. -/
theorem Service.Inv.bundles_concat {block : Block} {height : UInt32}
    {bundles : SortedMap ℕ (Option (Guest.Boundary H × Guest.BlockWitness H))}
    (h : b.Inv hs core ser cfg) (hheight : height.toNat = b.applied.length + 1)
    (hbundles : (if cfg.emitFrom ≤ height then
        b.files.bundles.insert height.toNat (b.now.bundle hs core ser block)
      else b.files.bundles) = bundles) :
    (∀ n next x, (b.applied ++ [block])[n]? = some next → bundles.get? (n + 1) = some x →
      ∃ s, Replayed hs core ((b.applied ++ [block]).take n) s ∧
        x = s.bundle hs core ser next) ∧
      ∀ i x, bundles.get? i = some x → cfg.emitFrom.toNat ≤ i := by
  -- a bundle was there before, or is that of the new block
  have hwritten : ∀ i x, bundles.get? i = some x →
      (b.files.bundles.get? i = some x ∧ (cfg.emitFrom ≤ height → i ≠ height.toNat)) ∨
      (cfg.emitFrom ≤ height ∧ i = height.toNat ∧ x = b.now.bundle hs core ser block) := by
    intro i x hx
    rw [← hbundles] at hx
    split at hx
    · rename_i hemit
      rw [SortedMap.get?_insert, Function.update_apply] at hx
      split at hx
      · rename_i heq
        exact .inr ⟨hemit, heq, (Option.some.inj hx).symm⟩
      · rename_i hne
        exact .inl ⟨hx, fun _ => hne⟩
    · rename_i hemit
      exact .inl ⟨hx, fun h => absurd h hemit⟩
  refine ⟨?_, ?_⟩
  · intro n next x hnext hx
    have hn : n < b.applied.length + 1 := by
      have hlt := (List.getElem?_eq_some_iff.mp hnext).1
      rwa [List.length_append, List.length_singleton] at hlt
    rw [List.take_append_of_le_length (by omega)]
    rcases Nat.lt_succ_iff_lt_or_eq.mp hn with hlt | rfl
    · -- a block from before
      rw [List.getElem?_append_left hlt] at hnext
      rcases hwritten (n + 1) x hx with ⟨hold, -⟩ | ⟨-, heq, -⟩
      · exact h.bundles n next x hnext hold
      · omega
    -- the new block: a bundle that was there before would be of this height already
    · rw [List.getElem?_concat_length] at hnext
      obtain rfl := Option.some.inj hnext
      rcases hwritten _ x hx with ⟨hold, hne⟩ | ⟨-, -, heq⟩
      · refine absurd hheight.symm (hne (UInt32.le_iff_toNat_le.mpr ?_))
        rw [hheight]
        exact h.emitted _ x hold
      · obtain ⟨head, hinv⟩ := h.steady
        rw [List.take_length]
        exact ⟨b.now, hinv.replayed, heq⟩
  · intro i x hx
    rcases hwritten i x hx with ⟨hold, -⟩ | ⟨hemit, rfl, -⟩
    · exact h.emitted i x hold
    · exact UInt32.le_iff_toNat_le.mp hemit

/-- A block further, with a checkpoint or without. -/
theorem Service.Inv.went_fetch {target : UInt32} {block : Block} {now : Standing H}
    {u : BlockUndo H} (h : b.Inv hs core ser cfg) (hphase : b.phase = .fetch target)
    (hblock : t.call.chain[b.now.done.toNat]? = some block)
    (hadvance : b.now.advance hs core (displayHash (block.hash hs)) block = some (now, u))
    (hprocess : f.process = ⟨now, pushUndo b.files.undo u cfg.undoKeep t.call.outcome,
      b.files.state.map Prod.fst, b.trail ++ [(b.now.held, block)]⟩)
    (hloop : f.Inv hs core) (hroom : now.forest.leaves.length ≤ 2 ^ 32) :
    (b.went hs core ser cfg t f).Inv hs core ser cfg := by
  obtain ⟨head, hinv⟩ := h.steady
  obtain ⟨-, hdone, hheight, -⟩ := hinv.process.sound.advance hadvance
  have hdone : now.done.toNat = b.now.done.toNat + 1 := hdone
  have hone : u.height.toNat = b.applied.length + 1 := by
    rw [hheight, hdone, h.length]
  have hlength : b.trail.length = b.now.done.toNat := hinv.process.done.symm
  have happlied : (b.trail ++ [(b.now.held, block)]).map Prod.snd = b.applied ++ [block] :=
    List.map_append
  have hfiles : b.files.run (b.edits hs core ser cfg t f) = _ :=
    Service.run_edits_fetch hphase hblock hadvance
  generalize hbundles : (if cfg.emitFrom ≤ u.height then
      b.files.bundles.insert u.height.toNat (b.now.bundle hs core ser block)
    else b.files.bundles) = bundles at hfiles
  obtain ⟨hthere, hemitted⟩ := h.bundles_concat hone hbundles
  rw [← happlied] at hthere
  -- not every block is followed by a checkpoint: the state on disk may stay behind
  rcases Service.went_cases hfiles with ⟨-, hwent⟩ | ⟨-, named, hwent⟩
  · rw [hwent, hprocess]
    refine ⟨⟨f.head, ?_⟩, ?_, hthere, hemitted⟩
    · change Follower.Inv hs core ⟨⟨now, pushUndo b.files.undo u cfg.undoKeep t.call.outcome,
        b.files.state.map Prod.fst, b.trail ++ [(b.now.held, block)]⟩, f.head, f.halted, f.phase⟩
      rw [← hprocess]
      exact hloop
    · intro s below hstate
      obtain ⟨hbelow, hlen⟩ := h.state s below hstate
      have hsaved : b.follower.process.saved = some s := congrArg (Option.map Prod.fst) hstate
      have hle : s.done.toNat ≤ b.trail.length := (hinv.process.saved s hsaved).2.1
      refine ⟨?_, hlen⟩
      dsimp only
      rw [hbelow, List.take_append_of_le_length hle]
  · rw [hwent, hprocess]
    refine ⟨⟨f.head, ?_⟩, ?_, hthere, hemitted⟩
    · have hsaved := hloop.save
      rw [hprocess] at hsaved
      exact hsaved
    · intro s below hstate
      obtain ⟨rfl, rfl⟩ : now = s ∧ b.trail ++ [(b.now.held, block)] = below :=
        Prod.mk.inj (Option.some.inj hstate)
      refine ⟨?_, hroom⟩
      refine (List.take_of_length_le ?_).symm
      rw [List.length_append, List.length_singleton, hlength, hdone]

/-- **A call that is answered.** -/
theorem Service.Inv.went (h : b.Inv hs core ser cfg) (hmeets : b.Meets hs core cfg t)
    (hstep : b.follower.step hs core cfg.toSettings t.call = some f) :
    (b.went hs core ser cfg t f).Inv hs core ser cfg := by
  have hroom := hmeets.room f hstep
  obtain ⟨hfetch, halted, phase, rfl, hsearch⟩ | ⟨tip, floor, n, u, now, dir, head, hphase, hu,
    hagrees, hrewind, hprocess, hinv, hdid⟩ |
    ⟨target, block, now, u, hphase, hblock, hadvance, hf⟩ := h.steady.step_cases hstep
  · exact h.went_idle hfetch hsearch
  · rw [hprocess] at hroom
    exact h.went_rewind hphase hrewind hprocess
      (hinv.rewound hphase hu (hmeets.calls.rewind tip floor n hphase hagrees) hdid) hroom
  · obtain ⟨head, hinv⟩ := h.steady
    have hadvanced : b.follower.process.step hs core cfg.undoKeep
        (.advance (displayHash (block.hash hs)) block t.call.outcome) = some f.process := by
      change (Standing.advance hs core b.now _ block).bind _ = _
      have hnow : b.now.advance hs core (displayHash (block.hash hs)) block = some (now, u) :=
        hadvance
      rw [hnow, hf]
      rfl
    have hnosearch : ∀ tip floor n, f.phase ≠ .search tip floor n := by
      intro tip floor n hsearch
      rw [hf] at hsearch
      dsimp only at hsearch
      split at hsearch <;> cases hsearch
    have hloop : f.Inv hs core := by
      have hfetched := hinv.fetch (hmeets.calls.fetch target hphase) hadvanced hnosearch
      rw [hf] at hfetched ⊢
      exact hfetched
    have hprocess : f.process = ⟨now, pushUndo b.files.undo u cfg.undoKeep t.call.outcome,
        b.files.state.map Prod.fst, b.trail ++ [(b.now.held, block)]⟩ := by
      rw [hf]
      rfl
    rw [hprocess] at hroom
    exact h.went_fetch hphase hblock hadvance hprocess hloop hroom

/-- What is there after a call: the loop gone on, or a process that is started on the files. -/
theorem Service.step_cases (hstep : b.step hs core ser cfg t = some b') :
    (∃ f, b.follower.step hs core cfg.toSettings t.call = some f ∧
      b' = b.went hs core ser cfg t f) ∨
      b' = .start hs b.files ∨
      ∃ k f, t.killed = some k ∧ b.follower.step hs core cfg.toSettings t.call = some f ∧
        b' = .start hs (b.files.run ((b.writes hs core ser cfg t f).take k)) := by
  unfold Service.step at hstep
  cases hkilled : t.killed with
  | none =>
    rw [hkilled] at hstep
    obtain ⟨f, hf, rfl⟩ := Option.map_eq_some_iff.mp hstep
    exact .inl ⟨f, hf, rfl⟩
  | some k =>
    rw [hkilled] at hstep
    obtain rfl := Option.some.inj hstep
    cases hnext : b.follower.step hs core cfg.toSettings t.call with
    | none =>
      rw [Option.elim_none, List.take_nil]
      exact .inr (.inl rfl)
    | some f => exact .inr (.inr ⟨k, f, rfl, rfl, rfl⟩)

/-- Wherever a process is killed, its files are those of one that is not. Either the checkpoint was
    not reached, and there are only edits on top of the files before; or it was, and the process is
    one that has taken the step and perhaps lacks its label. -/
theorem Service.Inv.killed_cases (h : b.Inv hs core ser cfg) (hmeets : b.Meets hs core cfg t)
    (hstep : b.follower.step hs core cfg.toSettings t.call = some f) (k : ℕ) :
    ∃ g : Service H, g.Inv hs core ser cfg ∧
      ((g.trail = b.trail ∧ (b.saves cfg f = true → k ≤ (b.edits hs core ser cfg t f).length) ∧
          g.files = b.files.run ((b.edits hs core ser cfg t f).take k)) ∨
        (g.trail = f.process.trail ∧
          g.files.undo = (b.went hs core ser cfg t f).files.undo)) ∧
      g.files = b.files.run ((b.writes hs core ser cfg t f).take k) := by
  have hbefore := h.run fun op (hop : op ∈ (b.edits hs core ser cfg t f).take k) =>
    h.above (List.mem_of_mem_take hop)
  unfold Service.writes
  rw [List.take_append]
  rcases Service.checkpoint_cases cfg b t f with ⟨hsaves, hckpt⟩ | ⟨names, hnames, -, hckpt⟩
  · rw [hckpt, List.take_nil, List.append_nil, hsaves]
    exact ⟨_, hbefore, .inl ⟨rfl, nofun, rfl⟩, rfl⟩
  · cases hk : k - (b.edits hs core ser cfg t f).length with
    | zero =>
      rw [List.take_zero, List.append_nil]
      exact ⟨_, hbefore, .inl ⟨rfl, fun _ => Nat.sub_eq_zero_iff_le.mp hk, rfl⟩, rfl⟩
    | succ j =>
      -- the checkpoint is there, and what it is of is there with it
      have hall : (b.edits hs core ser cfg t f).take k = b.edits hs core ser cfg t f :=
        List.take_of_length_le (by omega)
      have hwent := h.went hmeets hstep
      rw [hall, hckpt, List.take_succ_cons]
      have hsome : ∀ op ∈ names.take j, op.Names :=
        fun op hop => hnames op (List.mem_of_mem_take hop)
      generalize hfiles : b.files.run (b.edits hs core ser cfg t f ++
        [.putState f.process.now f.process.trail]) = files
      obtain ⟨last, hlast⟩ := files.run_names hnames
      obtain ⟨named, hnamed⟩ := files.run_names hsome
      have hfull : (b.went hs core ser cfg t f).files = { files with head := last } := by
        unfold Service.went Service.writes
        dsimp only
        rw [hckpt, List.append_cons, Files.run_append, hfiles, hlast]
      refine ⟨{ b.went hs core ser cfg t f with
          files := { (b.went hs core ser cfg t f).files with head := named } },
        ⟨hwent.steady, hwent.state, hwent.bundles, hwent.emitted⟩, .inr ⟨rfl, rfl⟩, ?_⟩
      rw [List.append_cons, Files.run_append, hfiles, hnamed, hfull]

/-- **From one call to the next**, whatever kills it. -/
theorem Service.Inv.step (h : b.Inv hs core ser cfg) (hmeets : b.Meets hs core cfg t)
    (hstep : b.step hs core ser cfg t = some b') : b'.Inv hs core ser cfg := by
  obtain ⟨f, hf, rfl⟩ | rfl | ⟨k, f, -, hf, rfl⟩ := Service.step_cases hstep
  · exact h.went hmeets hf
  · exact h.restart
  · obtain ⟨g, hg, -, hfiles⟩ := h.killed_cases hmeets hf k
    rw [← hfiles]
    exact hg.restart

/-! ## The chain -/

theorem Service.Inv.linked_start (h : b.Inv hs core ser cfg) (hlinked : Linked hs b.applied) :
    Linked hs (Service.start hs b.files).applied := by
  unfold Service.applied
  rw [h.start_spec.1, List.map_take]
  exact hlinked.take _

/-- The blocks that are applied after a call are one chain, where the node still had the last
    one. -/
theorem Service.Inv.linked_next (h : b.Inv hs core ser cfg) (hlinked : Linked hs b.applied)
    (hchain : Linked hs t.call.chain) (hstays : b.follower.Stays hs t.call)
    (hstep : b.follower.step hs core cfg.toSettings t.call = some f) : Linked hs f.applied := by
  obtain ⟨-, halted, phase, rfl, -⟩ | ⟨tip, floor, n, u, now, dir, head, -, -, -, -, hprocess, -⟩ |
    ⟨target, block, now, u, hphase, hblock, -, rfl⟩ := h.steady.step_cases hstep
  · exact hlinked
  · unfold Follower.applied
    rw [hprocess]
    change Linked hs ((b.trail.take _).map Prod.snd)
    rw [List.map_take]
    exact hlinked.take _
  · have happlied : (b.trail ++ [(b.now.held, block)]).map Prod.snd = b.applied ++ [block] :=
      List.map_append
    change Linked hs ((b.trail ++ [(b.now.held, block)]).map Prod.snd)
    rw [happlied, linked_concat, h.length]
    refine ⟨hlinked, ?_⟩
    have hat : hashAt hs t.call.chain b.now.done.toNat = hashAt hs b.applied b.now.done.toNat :=
      hstays target hphase
    exact hat.symm.trans (hchain _ block hblock)

/-- The blocks stay one chain where each fetch meets a chain with the last one. -/
theorem Service.Inv.linked_step (h : b.Inv hs core ser cfg) (hmeets : b.Meets hs core cfg t)
    (hlinked : Linked hs b.applied) (hchain : Linked hs t.call.chain)
    (hstays : b.follower.Stays hs t.call) (hstep : b.step hs core ser cfg t = some b') :
    Linked hs b'.applied := by
  obtain ⟨f, hf, rfl⟩ | rfl | ⟨k, f, -, hf, rfl⟩ := Service.step_cases hstep
  · exact h.linked_next hlinked hchain hstays hf
  · exact h.linked_start hlinked
  · obtain ⟨g, hg, htrail, hfiles⟩ := h.killed_cases hmeets hf k
    rw [← hfiles]
    apply hg.linked_start
    unfold Service.applied
    rcases htrail with ⟨hsame, -⟩ | ⟨hmoved, -⟩
    · rw [hsame]
      exact hlinked
    · rw [hmoved]
      exact h.linked_next hlinked hchain hstays hf

end

end Bridge
end Hazync
