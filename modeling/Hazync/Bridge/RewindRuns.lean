import Hazync.Bridge.Rewind

/-!
# A rewind restores what was held

The bridge's process keeps its files the records of its own walk (`Process.Inv`), through rewinds
and restarts, as long as a record that could not be written leaves none of an earlier walk in its
place. Then a rewind that is done comes to what was held at its target, if and only if it goes back
over no coin that was put in over another (`rewind_restores`). On a chain that consensus accepts
only the two heights that may overwrite a coinbase put one in so (`uncovered_of_validChain`).

## The two defects

A rewind goes wrong in two ways, and both are excluded by a condition on the step before. One is the
overwritten coin (`Uncovered`). The other is a record that could not be written while one of an
earlier walk over that height is still there: the source logs the failure and goes on, and a later
rewind would read the old record for the new block. `Process.Meets` asks that the record was written
or that there was none.

A restart is an event of these runs, so the records of a run are by several processes. What ties
them together is `saved`: the checkpoint is of a height on the same trail.
-/

namespace Hazync
namespace Bridge

open Accumulator (Forest)
open Guest (Core)

variable {H : Type} [DecidableEq H] {hs : Hashing H} {core : Core} {block : Block}
  {held after : Held H} {s : Standing H} {u : BlockUndo H} {dir : UndoDir H}

/-! ## The process -/

theorem Standing.sound_resumed (s : Standing H) : (s.resumed hs).Sound hs :=
  ⟨.fromLeaves _, Smt.cached_fromEntries _⟩

/-- A restart has all that was held: the leaves, the map, the tree and the windows are in the file,
    and the rest is made of them. -/
theorem Standing.held_resumed (h : s.smt.Cached hs) : (s.resumed hs).held = s.held := by
  have hsmt : (s.resumed hs).smt = s.smt := by
    refine (Smt.cached_fromEntries _).eq_of_get h ?_
    have hleaves : (Smt.fromEntries hs s.smt.leaves.entries).leaves = s.smt.leaves :=
      Smt.leaves_fromEntries h.nonzero
    exact congrArg SortedMap.get? hleaves
  unfold Standing.held
  rw [hsmt]
  rfl

omit [DecidableEq H] in
/-- A record that is there after a block is its own, or was there before. -/
theorem get?_pushUndo {keep : UInt32} {o : Outcome} {i : ℕ} {v : BlockUndo H}
    (h : (pushUndo dir u keep o).get? i = some v) :
    (o.written = true ∧ i = u.height.toNat ∧ v = u) ∨
      (dir.get? i = some v ∧ (o.written = true → i ≠ u.height.toNat)) := by
  have hwrite : (if o.written then dir.insert u.height.toNat u else dir).get? i = some v := by
    unfold pushUndo at h
    dsimp only at h
    split at h
    · rw [SortedMap.get?_eraseAll] at h
      exact (Option.ite_none_left_eq_some.mp h).2
    · exact h
  cases hw : o.written with
  | false =>
    rw [hw] at hwrite
    exact .inr ⟨hwrite, fun h => absurd h (by decide)⟩
  | true =>
    rw [hw, if_pos rfl, SortedMap.get?_insert] at hwrite
    by_cases hi : i = u.height.toNat
    · rw [hi, Function.update_self] at hwrite
      exact .inl ⟨rfl, hi, (Option.some.inj hwrite).symm⟩
    · rw [Function.update_of_ne hi] at hwrite
      exact .inr ⟨hwrite, fun _ => hi⟩

/-- What holds from one block to the next. The trail is what was held before each block, for
    statements only; the process itself has the records, the checkpoint and what is in memory. -/
structure Process.Inv (hs : Hashing H) (core : Core) (p : Process H) : Prop where
  sound : p.now.Sound hs
  done : p.now.done.toNat = p.trail.length
  /-- A record that is there takes back the block of its height. -/
  records : ∀ n u, n < p.trail.length → p.dir.get? (n + 1) = some u →
    RecordOk hs core p.trail p.now.held n u
  /-- Along the trail the map was changed by the blocks and by nothing else. -/
  utxo : ∀ n before block after, p.trail[n]? = some (before, block) →
    heldAt p.trail p.now.held (n + 1) = some after →
    after.utxo = (updateUtxo core before.utxo block (UInt32.ofNat (n + 1))).1
  /-- The trail begins at genesis. -/
  start : heldAt p.trail p.now.held 0 = some (Standing.genesis hs).held
  /-- The checkpoint is what was held at its height, with the whole tree beside it. -/
  saved : ∀ s, p.saved = some s → s.smt.Cached hs ∧ s.done.toNat ≤ p.trail.length ∧
    heldAt p.trail p.now.held s.done.toNat = some s.held

/-- No block that a rewind to `target` takes back put a coin in over one that was unspent at the
    target and that none of those blocks had spent. -/
def Process.Uncovered (core : Core) (target : UInt32) (p : Process H) : Prop :=
  ∀ held, heldAt p.trail p.now.held target.toNat = some held →
    ∀ k, Covers core (target.toNat + 1) ((p.trail.drop target.toNat).map Prod.snd) k →
      held.utxo.get? k = none

/-- The target is inside the window: below, with every record down to it there. -/
def Process.Reaches (target : UInt32) (p : Process H) : Prop :=
  target < p.now.done ∧ ∀ i, target.toNat < i → i ≤ p.now.done.toNat → (p.dir.get? i).isSome

/-- The record of a block takes the place of one that is there, and a rewind inside the window goes
    back over no coin that was put in over another. -/
def Process.Meets (core : Core) (p : Process H) : Event → Prop
  | .advance _ _ o => o.written = true ∨ p.dir.get? (p.now.done.toNat + 1) = none
  | .rewind target _ => p.Reaches target → p.Uncovered core target
  | _ => True

theorem Process.Inv.genesis : (Process.start hs).Inv hs core := by
  refine ⟨.genesis, rfl, ?_, ?_, rfl, ?_⟩
  · intro n u hn
    exact absurd hn (Nat.not_lt_zero n)
  · intro n before block after hentry
    cases hentry
  · intro s hs
    cases hs

/-- What a rewind does to a process whose records are those of its walk: it is refused and changes
    nothing, or it is done and leaves what was held at the target, but for what is covered. -/
theorem Process.Inv.rewindTo {p : Process H} (h : p.Inv hs core) (target : UInt32)
    (stuck : ℕ → Bool) :
    (∃ e, rewindTo hs p.dir target p.now stuck = some (.error e, p.now, p.dir) ∧
      ¬ p.Reaches target) ∨
    (∃ s' dir' held, Bridge.rewindTo hs p.dir target p.now stuck = some (.ok (), s', dir') ∧
      p.Reaches target ∧
      heldAt p.trail p.now.held target.toNat = some held ∧
      s'.Back hs core held target.toNat ((p.trail.drop target.toNat).map Prod.snd) ∧
      ∀ i ≤ target.toNat, dir'.get? i = p.dir.get? i) := by
  unfold Bridge.rewindTo
  -- a target that is not below the height is refused
  by_cases hbelow : target ≥ p.now.done
  · rw [if_pos hbelow]
    exact .inl ⟨_, rfl, fun hall => absurd hall.1 (UInt32.not_lt.mpr hbelow)⟩
  · rw [if_neg hbelow]
    have hlt : target.toNat < p.now.done.toNat := UInt32.lt_iff_toNat_lt.mp (UInt32.not_le.mp hbelow)
    have hheights : ∀ i, i ∈ heightsAbove target p.now.done ↔
        target.toNat < i ∧ i ≤ p.now.done.toNat := by
      intro i
      unfold heightsAbove
      rw [List.mem_range'_1]
      omega
    -- so is a rewind past a height whose undo file is gone, before anything is undone
    cases hfind : (heightsAbove target p.now.done).find? fun i => (p.dir.get? i).isNone with
    | some i =>
      refine .inl ⟨_, rfl, ?_⟩
      intro hall
      obtain ⟨hfrom, hto⟩ := (hheights i).mp (List.mem_of_find?_eq_some hfind)
      have hnone := List.find?_some hfind
      rw [Option.isNone_iff_eq_none] at hnone
      have hsome := hall.2 i hfrom hto
      rw [hnone] at hsome
      cases hsome
    | none =>
      have hthere : ∀ i, target.toNat < i → i ≤ p.now.done.toNat → (p.dir.get? i).isSome := by
        intro i hfrom hto
        have hnot := List.find?_eq_none.mp hfind i ((hheights i).mpr ⟨hfrom, hto⟩)
        rwa [Option.isNone_iff_eq_none, ← ne_eq, ← Option.isSome_iff_ne_none] at hnot
      -- every undo file above the target is that of the block applied there
      have hrecords : ∀ i, target.toNat ≤ i → i < p.trail.length → ∃ u,
          p.dir.get? (i + 1) = some u ∧ RecordOk hs core p.trail p.now.held i u := by
        intro i hfrom hto
        obtain ⟨u, hu⟩ := Option.isSome_iff_exists.mp
          (hthere (i + 1) (by omega) (by rw [h.done]; omega))
        exact ⟨u, hu, h.records i u hto hu⟩
      obtain ⟨s', dir', held, hfold, hheld, hback, hdir⟩ :=
        h.sound.rewind stuck h.done hrecords (j := p.now.done.toNat - target.toNat)
          (by rw [← h.done]; omega)
      refine .inr ⟨s', dir', held, ?_, ⟨UInt32.not_le.mp hbelow, hthere⟩, hheld, hback, hdir⟩
      dsimp only
      unfold heightsAbove
      rw [hfold]
      rfl

/-- A block keeps the records those of the walk; the trail gets one longer. -/
theorem Process.Inv.advance {p : Process H} {keep : UInt32} {hash : String} {o : Outcome}
    {now : Standing H} (h : p.Inv hs core)
    (ho : o.written = true ∨ p.dir.get? (p.now.done.toNat + 1) = none)
    (hadvance : p.now.advance hs core hash block = some (now, u)) :
    Process.Inv hs core { p with
      now := now
      dir := pushUndo p.dir u keep o
      trail := p.trail ++ [(p.now.held, block)] } := by
  obtain ⟨hsound, hdone, hheight, hundo⟩ := h.sound.advance hadvance
  have hlength : u.height.toNat = p.trail.length + 1 := by rw [hheight, hdone, h.done]
  -- the entry that is new
  have hnew : ∀ before b after, (p.trail ++ [(p.now.held, block)])[p.trail.length]? =
        some (before, b) →
      heldAt (p.trail ++ [(p.now.held, block)]) now.held (p.trail.length + 1) = some after →
      Undoes hs core before b after (UInt32.ofNat (p.trail.length + 1)) u := by
    intro before b after hentry hafter
    rw [List.getElem?_concat_length] at hentry
    obtain ⟨rfl, rfl⟩ := Prod.mk.inj (Option.some.inj hentry)
    have hlast : heldAt (p.trail ++ [(p.now.held, block)]) now.held (p.trail.length + 1) =
        some now.held := by
      have hend : heldAt (p.trail ++ [(p.now.held, block)]) now.held
          (p.trail ++ [(p.now.held, block)]).length = some now.held := heldAt_length
      rwa [List.length_append, List.length_singleton] at hend
    obtain rfl := Option.some.inj (hlast.symm.trans hafter)
    have hat : UInt32.ofNat (p.trail.length + 1) = now.done := by
      rw [← hlength, hheight, UInt32.ofNat_toNat]
    rw [hat]
    exact hundo
  refine ⟨hsound, ?_, ?_, ?_, ?_, ?_⟩
  · rw [hdone, h.done, List.length_append, List.length_singleton]
  · intro n v hn hv
    rw [List.length_append, List.length_singleton] at hn
    rcases get?_pushUndo hv with ⟨-, hi, rfl⟩ | ⟨hold, hne⟩
    · obtain rfl : n = p.trail.length := by omega
      exact hnew
    · -- one from before, which is at a height from before
      have hlt : n < p.trail.length := by
        refine Nat.lt_of_le_of_ne (by omega) ?_
        intro heq
        rcases ho with hwritten | hnone
        · exact hne hwritten (by omega)
        · rw [h.done, ← heq, hold] at hnone
          cases hnone
      intro before b after hentry hafter
      rw [List.getElem?_append_left hlt] at hentry
      rw [heldAt_concat (by omega)] at hafter
      exact h.records n v hlt hold before b after hentry hafter
  · intro n before b after hentry hafter
    have hle : n < p.trail.length + 1 := by
      have hlt := (List.getElem?_eq_some_iff.mp hentry).1
      rwa [List.length_append, List.length_singleton] at hlt
    rcases Nat.lt_succ_iff_lt_or_eq.mp hle with hlt | rfl
    · rw [List.getElem?_append_left hlt] at hentry
      rw [heldAt_concat (by omega)] at hafter
      exact h.utxo n before b after hentry hafter
    · rw [(hnew before b after hentry hafter).utxo]
  · rw [heldAt_concat (Nat.zero_le _)]
    exact h.start
  · intro s hs
    obtain ⟨hcached, hle, hat⟩ := h.saved s hs
    refine ⟨hcached, ?_, ?_⟩
    · rw [List.length_append]
      omega
    · rw [heldAt_concat hle]
      exact hat

/-- Back at a height of the walk, with the records up to it. -/
theorem Process.Inv.back {p : Process H} {now : Standing H} {dir : UndoDir H} {m : ℕ}
    (h : p.Inv hs core) (hsound : now.Sound hs) (hdone : now.done.toNat = m)
    (hheld : heldAt p.trail p.now.held m = some now.held)
    (hdir : ∀ i ≤ m, ∀ u, dir.get? i = some u → p.dir.get? i = some u)
    {saved : Option (Standing H)} (hsaved : ∀ s, saved = some s → s.smt.Cached hs ∧
      s.done.toNat ≤ m ∧ heldAt p.trail p.now.held s.done.toNat = some s.held) :
    Process.Inv hs core ⟨now, dir, saved, p.trail.take m⟩ := by
  have hle : m ≤ p.trail.length := by
    have hlt := (List.getElem?_eq_some_iff.mp hheld).1
    rw [List.length_append, List.length_map, List.length_singleton] at hlt
    omega
  have hlength : (p.trail.take m).length = m := by rw [List.length_take, Nat.min_eq_left hle]
  refine ⟨hsound, ?_, ?_, ?_, ?_, ?_⟩
  · dsimp only
    rw [hlength, hdone]
  · intro n u hn hu before b after hentry hafter
    dsimp only at hn hu hentry hafter
    rw [hlength] at hn
    rw [List.getElem?_take_of_lt hn] at hentry
    rw [heldAt_take hheld (by omega)] at hafter
    exact h.records n u (by omega) (hdir (n + 1) (by omega) u hu) before b after hentry hafter
  · intro n before b after hentry hafter
    dsimp only at hentry hafter
    have hn := (List.getElem?_eq_some_iff.mp hentry).1
    rw [hlength] at hn
    rw [List.getElem?_take_of_lt hn] at hentry
    rw [heldAt_take hheld (by omega)] at hafter
    exact h.utxo n before b after hentry hafter
  · dsimp only
    rw [heldAt_take hheld (Nat.zero_le _)]
    exact h.start
  · intro s hs
    obtain ⟨hcached, hsle, hat⟩ := hsaved s hs
    dsimp only
    rw [hlength, heldAt_take hheld hsle]
    exact ⟨hcached, hsle, hat⟩

/-- **From one block to the next** the records stay those of the walk. After a rewind the trail is
    cut at the target; after a restart, at the checkpoint. -/
theorem Process.Inv.step {p p' : Process H} {keep : UInt32} {e : Event} (h : p.Inv hs core)
    (hmeets : p.Meets core e) (hstep : p.step hs core keep e = some p') : p'.Inv hs core := by
  cases e with
  | advance hash block o =>
    obtain ⟨⟨now, u⟩, hadvance, heq⟩ := Option.bind_eq_some_iff.mp hstep
    obtain rfl := Option.some.inj heq
    exact h.advance hmeets hadvance
  | save =>
    obtain rfl := Option.some.inj hstep
    refine ⟨h.sound, h.done, h.records, h.utxo, h.start, ?_⟩
    intro s hs
    obtain rfl := Option.some.inj hs
    refine ⟨h.sound.smt, h.done.le, ?_⟩
    rw [h.done]
    exact heldAt_length
  -- a refused rewind leaves everything as it was
  | rewind target stuck =>
    obtain ⟨⟨r, now, dir⟩, hrewind, heq⟩ := Option.bind_eq_some_iff.mp hstep
    rcases h.rewindTo target stuck with ⟨err, hrefused, -⟩ | ⟨s', dir', held, hdid, hreach,
      hheld, hback, hdir⟩
    · rw [hrefused] at hrewind
      cases hrewind
      obtain rfl := Option.some.inj heq
      exact h
    · rw [hdid] at hrewind
      cases hrewind
      obtain rfl := Option.some.inj heq
      -- one that goes through has what was held at the target
      obtain rfl : now.held = held := hback.held_iff.mpr (hmeets hreach held hheld)
      have hdone : now.done.toNat = target.toNat := by rw [hback.done, UInt32.ofNat_toNat]
      refine h.back hback.sound hdone hheld ?_ ?_
      · intro i hi u hu
        rwa [hdir i hi] at hu
      · intro s hs
        obtain rfl := Option.some.inj hs
        refine ⟨hback.sound.smt, hdone.le, ?_⟩
        rw [hdone]
        exact hheld
  -- undo files can only be lost, and the height falls to the one that was saved
  | restart lost =>
    obtain rfl := Option.some.inj hstep
    have hdir : ∀ ks : List ℕ, ∀ i u, (p.dir.eraseAll ks).get? i = some u →
        p.dir.get? i = some u := by
      intro ks i u hu
      rw [SortedMap.get?_eraseAll] at hu
      exact (Option.ite_none_left_eq_some.mp hu).2
    cases hsaved : p.saved with
    | none =>
      refine h.back .genesis rfl h.start (fun i _ => hdir _ i) ?_
      intro s hs
      cases hs
    | some s =>
      obtain ⟨hcached, hle, hat⟩ := h.saved s hsaved
      refine h.back (Standing.sound_resumed s) rfl ?_ (fun i _ => hdir _ i) ?_
      · rw [Standing.held_resumed hcached]
        exact hat
      · intro s₁ hs₁
        obtain rfl := Option.some.inj hs₁
        exact ⟨hcached, le_refl _, hat⟩

/-- The runs of the bridge's process. -/
def Process.Follows (hs : Hashing H) (core : Core) (keep : UInt32) :
    List (Process H × Event × Process H) → Process H → Prop :=
  Runs.Run (fun p => p = .start hs) fun p e p' => p.step hs core keep e = some p'

theorem Process.Follows.inv {keep : UInt32} {trace : List (Process H × Event × Process H)}
    {p : Process H} (h : Process.Follows hs core keep trace p)
    (hmeets : ∀ t ∈ trace, t.1.Meets core t.2.1) : p.Inv hs core := by
  refine (Runs.Run.restrict (q := fun p e _ => p.Meets core e) h hmeets).invariant ?_ ?_
  · rintro p rfl
    exact .genesis
  · intro p e p' hp hstep
    exact hp.step hstep.2 hstep.1

/-- **A rewind puts back what was held**, in every run so far without the two defects. It does not
panic; it is done just where the target is below and every record down to it is there; where it is
refused nothing has changed. Where it is done all is as it was held at the target, if and only if
no block that it took back put a coin in over one of the target's that was unspent. -/
theorem rewind_restores {keep : UInt32} {trace : List (Process H × Event × Process H)}
    {p : Process H} (h : Process.Follows hs core keep trace p)
    (hmeets : ∀ t ∈ trace, t.1.Meets core t.2.1) (target : UInt32) (stuck : ℕ → Bool) :
    ∃ r now dir, rewindTo hs p.dir target p.now stuck = some (r, now, dir) ∧
      (r = .ok () ↔ p.Reaches target) ∧
      (r ≠ .ok () → now = p.now ∧ dir = p.dir) ∧
      (r = .ok () → now.done = target ∧ ∃ held,
        heldAt p.trail p.now.held target.toNat = some held ∧
        (now.held = held ↔ p.Uncovered core target)) := by
  rcases (h.inv hmeets).rewindTo target stuck with ⟨e, hrefused, hwindow⟩ | ⟨s', dir', held, hdid,
    hwindow, hheld, hback, -⟩
  · refine ⟨_, _, _, hrefused, ?_, ?_, ?_⟩
    · constructor
      · intro hok
        cases hok
      · intro hin
        exact absurd hin hwindow
    · exact fun _ => ⟨rfl, rfl⟩
    · intro hok
      cases hok
  · refine ⟨_, _, _, hdid, ?_, ?_, ?_⟩
    · exact ⟨fun _ => hwindow, fun _ => rfl⟩
    · intro hok
      exact absurd rfl hok
    · intro _
      refine ⟨?_, held, hheld, ?_⟩
      · rw [hback.done, UInt32.ofNat_toNat]
      · rw [hback.held_iff]
        constructor
        · intro hnone held' hheld' k hk
          obtain rfl := Option.some.inj (hheld.symm.trans hheld')
          exact hnone k hk
        · exact fun hunc => hunc held hheld

/-! ## On a chain that consensus accepts -/

omit [DecidableEq H] in
theorem blocks_take_succ {trail : List (Held H × Block)} {n : ℕ}
    (h : trail[n]? = some (held, block)) :
    (trail.take (n + 1)).map Prod.snd = (trail.take n).map Prod.snd ++ [block] := by
  rw [List.take_add_one, h, List.map_append]
  rfl

omit [DecidableEq H] in
theorem length_blocks_take {trail : List (Held H × Block)} {n : ℕ} (h : n ≤ trail.length) :
    ((trail.take n).map Prod.snd).length = n := by
  rw [List.length_map, List.length_take, Nat.min_eq_left h]

omit [DecidableEq H] in
theorem le_of_heldAt {trail : List (Held H × Block)} {last : Held H} {n : ℕ}
    (h : heldAt trail last n = some held) : n ≤ trail.length := by
  have hlen := (List.getElem?_eq_some_iff.mp h).1
  rw [List.length_append, List.length_map, List.length_singleton] at hlen
  omega

/-- What was held at a height has the coins of the chain up to it, when no coin was lost on the way:
    each map of the trail is made from the one before by the block. -/
theorem Process.Inv.validChain {p : Process H} {coins : Utxo} (h : p.Inv hs core)
    (hchain : ValidChain core (p.trail.map Prod.snd) coins) {n : ℕ}
    (hheld : heldAt p.trail p.now.held n = some held) :
    ValidChain core ((p.trail.take n).map Prod.snd) held.utxo := by
  induction n generalizing held with
  | zero =>
    obtain rfl := Option.some.inj (h.start.symm.trans hheld)
    exact .genesis
  | succ n ih =>
    have hlt : n < p.trail.length := le_of_heldAt hheld
    obtain ⟨before, block, hentry⟩ : ∃ before block, p.trail[n]? = some (before, block) :=
      ⟨_, _, List.getElem?_eq_getElem hlt⟩
    -- The chain's own coins after this block are the map's.
    obtain ⟨mid, hmid⟩ := hchain.of_prefix ((List.take_prefix (n + 1) p.trail).map _)
    rw [blocks_take_succ hentry] at hmid ⊢
    obtain ⟨coins', hcoins', hblock⟩ := hmid.last
    obtain rfl := hcoins'.unique (ih (heldAt_of_getElem? hentry))
    rw [length_blocks_take hlt.le] at hblock
    rwa [h.utxo n before block held hentry hheld, hblock.updateUtxo_eq]

/-- A block of the walk is accepted on the coins that were held before it. -/
theorem Process.Inv.connectBlock {p : Process H} {coins : Utxo} {n : ℕ} (h : p.Inv hs core)
    (hchain : ValidChain core (p.trail.map Prod.snd) coins)
    (hentry : p.trail[n]? = some (held, block))
    (hafter : heldAt p.trail p.now.held (n + 1) = some after) :
    ConnectBlock core held.utxo (UInt32.ofNat (n + 1)) block after.utxo := by
  have hnext := h.validChain hchain hafter
  rw [blocks_take_succ hentry] at hnext
  obtain ⟨coins', hcoins', hblock⟩ := hnext.last
  obtain rfl := hcoins'.unique (h.validChain hchain (heldAt_of_getElem? hentry))
  rwa [length_blocks_take (Nat.le_of_succ_le (le_of_heldAt hafter))] at hblock

/-- **Only the coinbases that consensus lets overwrite cover a coin.** Any other output of a valid
    block is at an outpoint where nothing is unspent, so a rewind over other heights is exact. -/
theorem uncovered_of_validChain {p : Process H} {coins : Utxo} (h : p.Inv hs core)
    (hchain : ValidChain core (p.trail.map Prod.snd) coins) {target : UInt32}
    (hheights : ∀ n, target.toNat ≤ n → n < p.trail.length →
      overwrittenHeight (UInt32.ofNat (n + 1)) = none) : p.Uncovered core target := by
  suffices hall : ∀ j n, n + j = p.trail.length → target.toNat ≤ n →
      ∀ held, heldAt p.trail p.now.held n = some held → ∀ k v, held.utxo.get? k = some v →
        ¬ Covers core (n + 1) ((p.trail.drop n).map Prod.snd) k by
    intro held hheld k hk
    have hle := le_of_heldAt hheld
    by_contra hsome
    obtain ⟨v, hv⟩ := Option.ne_none_iff_exists'.mp hsome
    exact hall (p.trail.length - target.toNat) target.toNat (by omega) (le_refl _) held hheld k v hv
      hk
  intro j
  induction j with
  | zero =>
    intro n hn _ held _ k v _ hk
    rw [List.drop_of_length_le (by omega)] at hk
    exact hk
  | succ j ih =>
    intro n hn hle held hheld k v hv hk
    obtain ⟨before, block, hentry⟩ : ∃ before block, p.trail[n]? = some (before, block) :=
      ⟨_, _, List.getElem?_eq_getElem (by omega)⟩
    obtain rfl := Option.some.inj (hheld.symm.trans (heldAt_of_getElem? hentry))
    obtain ⟨after, hafter⟩ : ∃ after, heldAt p.trail p.now.held (n + 1) = some after := by
      refine ⟨_, List.getElem?_eq_getElem ?_⟩
      rw [List.length_append, List.length_map, List.length_singleton]
      omega
    rw [List.drop_eq_getElem_cons (by omega), List.map_cons,
      (List.getElem?_eq_some_iff.mp hentry).2] at hk
    have hblock := h.connectBlock hchain hentry hafter
    have hnot : k ∉ (block.kept core (UInt32.ofNat (n + 1))).map Prod.fst := by
      intro hmem
      obtain ⟨e, he, rfl⟩ := List.mem_map.mp hmem
      rcases hblock.spec.1.fresh e (List.mem_filter.mp he).1 with hnone | ⟨hover, -⟩
      · rw [hv] at hnone
        cases hnone
      · rw [hheights n hle (by omega)] at hover
        cases hover
    rcases hk with hkept | ⟨hspent, hrest⟩
    · exact hnot hkept
    · refine ih (n + 1) (by omega) (by omega) after hafter k v ?_ hrest
      rw [h.utxo n held block after hentry hafter, get?_updateUtxo_of_notMem hnot, if_neg hspent,
        hv]

end Bridge
end Hazync
