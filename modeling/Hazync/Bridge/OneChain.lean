import Hazync.Bridge.ChainHashes
import Hazync.Bridge.Replay

/-!
# From call to call

At every call the bridge stands on the replay of the blocks that it has applied, and its head and
its records name them (`Follower.Inv`). What a call can do is said once (`Follower.Inv.step_cases`).

## The invariant

`Follower.Inv` is about three lists of the same length: the blocks applied, what was held before
each of them, and the records. The first two are ghosts, in the trail; the bridge has the records,
the state in memory and the checkpoint. Each record takes back the block of its height
(`Process.Inv`) and names it (`hashes`), and that is what the search relies on when it compares a
record's hash with the node's.

`Stays` is no part of the invariant. A run in which a fetch meets another chain still has it, since
it is about the blocks that were applied and not about links between them.
-/

namespace Hazync
namespace Bridge

open ByteStrings
open Guest (Core)

variable {H : Type} {hs : Hashing H} [DecidableEq H] {core : Core} {cfg : Settings}
  {f f' : Follower H} {call : Call} {tip : UInt32}

/-- At a fetch the node still has the block that was applied last. -/
def Follower.Stays (hs : Hashing H) (f : Follower H) (call : Call) : Prop :=
  ∀ target, f.phase = .fetch target →
    hashAt hs call.chain f.done.toNat = hashAt hs f.applied f.done.toNat

/-- A record takes the place of one that is there, and a rewind goes back over no coin that was put
    in over another (`Process.Meets`). -/
structure Follower.Meets (hs : Hashing H) (core : Core) (f : Follower H) (call : Call) : Prop where
  fetch : ∀ target, f.phase = .fetch target →
    call.outcome.written = true ∨ f.process.dir.get? (f.done.toNat + 1) = none
  rewind : ∀ tip floor h, f.phase = .search tip floor h →
    hashAt hs call.chain h = hashAt hs f.applied h →
    f.process.Reaches (UInt32.ofNat h) → f.process.Uncovered core (UInt32.ofNat h)

/-- What holds from one call to the next, in whatever phase the bridge is: it stands on the blocks
    that it has applied, and every hash that it will compare with the node's is of one of them. -/
structure Follower.Inv (hs : Hashing H) (core : Core) (f : Follower H) : Prop where
  process : f.process.Inv hs core
  /-- What is in memory is what its leaves and its map make it, and nothing else. -/
  exact : f.process.now.Exact hs
  /-- At each height of the trail, what was held there is the replay of the blocks up to it. -/
  replays : ∀ n held, heldAt f.process.trail f.process.now.held n = some held →
    ∃ s, Replayed hs core (f.applied.take n) s ∧ s.held = held
  /-- The hash that the bridge compares with the node's is that of its own last block. -/
  head : 0 < f.done.toNat → ∃ hash, hashAt hs f.applied f.done.toNat = some hash ∧
    f.head = some (displayHash hash)
  /-- So is the hash in each undo record. -/
  hashes : ∀ n u, n < f.applied.length → f.process.dir.get? (n + 1) = some u →
    ∃ hash, hashAt hs f.applied (n + 1) = some hash ∧ u.blockHash = displayHash hash
  /-- While a fork is looked for, the height is between the floor and the bridge's own. -/
  search : ∀ tip floor h, f.phase = .search tip floor h →
    1 ≤ floor ∧ floor ≤ h ∧ h ≤ f.done.toNat

theorem Follower.Inv.length (h : f.Inv hs core) : f.applied.length = f.done.toNat := by
  unfold Follower.applied
  rw [List.length_map]
  exact h.process.done.symm

/-- The accumulator, the map and the tree are the replay of the blocks that were applied. -/
theorem Follower.Inv.replayed (h : f.Inv hs core) : Replayed hs core f.applied f.process.now := by
  obtain ⟨s, hs, hheld⟩ := h.replays f.process.trail.length f.process.now.held heldAt_length
  have hall : f.applied.take f.process.trail.length = f.applied := by
    refine List.take_of_length_le ?_
    unfold Follower.applied
    rw [List.length_map]
  rw [hall] at hs
  exact hs.of_held h.exact h.length.symm hheld

theorem Follower.Inv.start : (Follower.start hs).Inv hs core where
  process := .genesis
  exact := .genesis
  replays n held hheld := by
    obtain ⟨rfl, rfl⟩ : n = 0 ∧ (Standing.genesis hs).held = held := by
      cases n with
      | zero => exact ⟨rfl, Option.some.inj hheld⟩
      | succ n => cases hheld
    exact ⟨_, .genesis, rfl⟩
  head hpos := absurd hpos (Nat.lt_irrefl 0)
  hashes n u hn := absurd hn (Nat.not_lt_zero n)
  search tip floor h hphase := by cases hphase

/-- Which call is next matters only in a search. -/
theorem Follower.Inv.rephase (h : f.Inv hs core) {halted : Bool} {phase : Phase}
    (hphase : ∀ tip floor n, phase = .search tip floor n →
      1 ≤ floor ∧ floor ≤ n ∧ n ≤ f.done.toNat) :
    Follower.Inv hs core { f with halted := halted, phase := phase } :=
  ⟨h.process, h.exact, h.replays, h.head, h.hashes, hphase⟩

omit [DecidableEq H] in
theorem Follower.plan_phase (cfg : Settings) (f : Follower H) (tip : UInt32) :
    (f.plan cfg tip).phase = .top ∨ ∃ target, (f.plan cfg tip).phase = .fetch target := by
  unfold Follower.plan
  dsimp only
  generalize cfg.cap.elim (if tip ≤ cfg.finality then 0 else tip - cfg.finality)
    (min (if tip ≤ cfg.finality then 0 else tip - cfg.finality)) = target
  by_cases hpass : f.halted = true ∨ target ≤ f.done
  · exact .inl (if_pos hpass)
  · exact .inr ⟨target, if_neg hpass⟩

theorem Follower.Inv.plan (h : f.Inv hs core) : (f.plan cfg tip).Inv hs core := by
  have hphase : ∀ tip' floor n, (f.plan cfg tip).phase = .search tip' floor n →
      1 ≤ floor ∧ floor ≤ n ∧ n ≤ f.done.toNat := by
    intro tip' floor n hphase
    rcases f.plan_phase cfg tip with htop | ⟨target, hfetch⟩
    · rw [htop] at hphase
      cases hphase
    · rw [hfetch] at hphase
      cases hphase
  exact h.rephase hphase

theorem Follower.Inv.halt (h : f.Inv hs core) : f.halt.Inv hs core := h.rephase h.search

theorem Standing.advance_blockHash {s s' : Standing H} {hash : String} {block : Block}
    {u : BlockUndo H} (h : s.advance hs core hash block = some (s', u)) : u.blockHash = hash := by
  unfold Standing.advance at h
  rw [Option.ite_none_left_eq_some] at h
  obtain ⟨-, h⟩ := h
  simp only [Option.bind_eq_bind, Option.bind_eq_some_iff, Option.some.injEq] at h
  obtain ⟨⟨win, blockMtp⟩, hpush, w, hw, coinbase, -, ⟨wit, prior, smt⟩, -, heq⟩ := h
  obtain ⟨-, rfl⟩ := Prod.mk.inj heq
  rfl

/-- A block that is fetched. The record of its height is written or there is none, so no record of
    an earlier walk is taken for it. -/
theorem Follower.Inv.fetch {block : Block} {process : Process H} {phase : Phase}
    (h : f.Inv hs core) (ho : call.outcome.written = true ∨
      f.process.dir.get? (f.done.toNat + 1) = none)
    (hstep : f.process.step hs core cfg.undoKeep
      (.advance (displayHash (block.hash hs)) block call.outcome) = some process)
    (hphase : ∀ tip floor n, phase ≠ .search tip floor n) :
    Follower.Inv hs core { f with
      process := process, head := some (displayHash (block.hash hs)), phase := phase } := by
  have hprocess :=
    h.process.step (e := .advance (displayHash (block.hash hs)) block call.outcome) ho hstep
  obtain ⟨⟨now, u⟩, hadvance, heq⟩ := Option.bind_eq_some_iff.mp hstep
  obtain rfl := Option.some.inj heq
  obtain ⟨-, hdone, hheight, -⟩ := h.process.sound.advance hadvance
  have hlast : f.done.toNat = f.applied.length := h.length.symm
  have hend : now.done.toNat = f.applied.length + 1 := by rw [hdone, ← hlast]; rfl
  have happlied : (f.process.trail ++ [(f.process.now.held, block)]).map Prod.snd =
      f.applied ++ [block] := List.map_append
  have htrail : f.process.trail.length = f.applied.length := (List.length_map _).symm
  -- what was held at each height, the head, the names in the undo files, and the phase
  refine ⟨hprocess, h.exact.advance hadvance, ?_, ?_, ?_, ?_⟩
  · intro n held hheld
    unfold Follower.applied
    dsimp only at hheld ⊢
    rw [happlied]
    have hle : n ≤ f.process.trail.length + 1 := by
      have hlt := le_of_heldAt hheld
      rwa [List.length_append, List.length_singleton] at hlt
    -- an earlier height keeps what was held there; the last one is that of the new block
    rcases Nat.le_succ_iff.mp hle with hold | rfl
    · rw [heldAt_concat hold] at hheld
      rw [List.take_append_of_le_length (by omega)]
      exact h.replays n held hheld
    · have hnow : heldAt (f.process.trail ++ [(f.process.now.held, block)]) now.held
          (f.process.trail ++ [(f.process.now.held, block)]).length = some now.held := heldAt_length
      rw [List.length_append, List.length_singleton] at hnow
      obtain rfl := Option.some.inj (hnow.symm.trans hheld)
      refine ⟨now, ?_, rfl⟩
      rw [List.take_of_length_le]
      · exact h.replayed.block hadvance
      · rw [List.length_append, List.length_singleton, htrail]
  · intro _
    refine ⟨block.hash hs, ?_, rfl⟩
    unfold Follower.applied Follower.done
    dsimp only
    rw [happlied, hend]
    exact hashAt_concat
  · intro n v hn hv
    unfold Follower.applied at hn ⊢
    dsimp only at hn hv ⊢
    rw [happlied] at hn ⊢
    rw [List.length_append, List.length_singleton] at hn
    have hat : u.height.toNat = f.applied.length + 1 := by rw [hheight, hend]
    -- an undo file is the new one, or one that was there
    rcases get?_pushUndo hv with ⟨-, hi, rfl⟩ | ⟨hold, hne⟩
    · obtain rfl : n = f.applied.length := by omega
      exact ⟨_, hashAt_concat, Standing.advance_blockHash hadvance⟩
    · have hlt : n < f.applied.length := by
        refine Nat.lt_of_le_of_ne (by omega) ?_
        intro heq
        -- the new height has no undo file that is not the one just written
        rcases ho with hwritten | hnone
        · exact hne hwritten (by omega)
        · rw [hlast, ← heq, hold] at hnone
          cases hnone
      rw [hashAt_append (by omega)]
      exact h.hashes n v hlt hold
  · intro tip floor n heq
    exact absurd heq (hphase tip floor n)

/-- Where the chains agree at a height below, with all records down to it there, the process goes
    back to it; elsewhere it halts. Nothing else can come of a rewind, whatever the file system
    does. -/
theorem Follower.Inv.rewound_cases (h : f.Inv hs core) {n : ℕ} (hn : n ≤ f.done.toNat)
    (cfg : Settings) (tip : UInt32) (call : Call) :
    (¬ f.process.Reaches (UInt32.ofNat n) ∧
      f.rewound hs cfg tip n call = some (f.halt.plan cfg tip)) ∨
    ∃ now dir head held, f.process.Reaches (UInt32.ofNat n) ∧
      f.process.step hs core 0 (.rewind (UInt32.ofNat n) call.stuck) =
        some ⟨now, dir, some now, f.process.trail.take n⟩ ∧
      f.rewound hs cfg tip n call =
        some (Follower.plan cfg { f with
          process := ⟨now, dir, some now, f.process.trail.take n⟩, head := head } tip) ∧
      heldAt f.process.trail f.process.now.held n = some held ∧
      now.Back hs core held n ((f.process.trail.drop n).map Prod.snd) ∧
      Indexed now.forest ∧ (∀ i ≤ n, dir.get? i = f.process.dir.get? i) ∧
      ∀ u, dir.get? n = some u → head = some u.blockHash := by
  have hnat : (UInt32.ofNat n).toNat = n := by
    rw [UInt32.toNat_ofNat', Nat.mod_eq_of_lt (lt_of_le_of_lt hn f.done.toNat_lt)]
  rcases h.process.rewindTo (UInt32.ofNat n) call.stuck with ⟨e, hrefused, hreach⟩ | ⟨now, dir,
    held, hdid, hreach, hheld, hback, hdir⟩
  · left
    refine ⟨hreach, ?_⟩
    unfold Follower.rewound
    dsimp only
    rw [hrefused]
    rfl
  · right
    rw [hnat] at hheld hback hdir
    have hdone : now.done.toNat = n := by rw [hback.done, hnat]
    refine ⟨now, dir, ((dir.get? now.done.toNat).map (·.blockHash)).or
      ((hashAt hs call.chain now.done.toNat).map displayHash), held, hreach, ?_, ?_, hheld, hback,
      h.exact.forest.rewindTo hdid, hdir, ?_⟩
    · change (rewindTo hs f.process.dir (UInt32.ofNat n) f.process.now call.stuck).bind _ = _
      rw [hdid]
      change some _ = _
      rw [hnat]
    · unfold Follower.rewound
      dsimp only
      rw [hdid, hnat]
      rfl
    · intro u hu
      rw [hdone, hu]
      rfl

/-- The block that the search has come to is one that both have, and going back to it leaves what
    was held there: the condition on overwritten coinbases is asked here only. -/
theorem Follower.Inv.rewound (h : f.Inv hs core) {n : ℕ} {u : BlockUndo H} {floor : ℕ}
    (hphase : f.phase = .search tip floor n) (hu : f.process.dir.get? n = some u)
    (hmeets : f.process.Reaches (UInt32.ofNat n) → f.process.Uncovered core (UInt32.ofNat n))
    (hstep : f.rewound hs cfg tip n call = some f') : f'.Inv hs core := by
  obtain ⟨hone, hfloor, hle⟩ := h.search tip floor n hphase
  rcases h.rewound_cases hle cfg tip call with ⟨-, hhalt⟩ | ⟨now, dir, head,
    held, hreach, hprocess, hdid, hheld, hback, hindexed, hdir, hhead⟩
  -- the rewind failed before it changed anything, and the bridge halts
  · rw [hhalt] at hstep
    obtain rfl := Option.some.inj hstep
    exact h.halt.plan
  · rw [hdid] at hstep
    obtain rfl := Option.some.inj hstep
    have hnat : (UInt32.ofNat n).toNat = n := by
      rw [UInt32.toNat_ofNat', Nat.mod_eq_of_lt (lt_of_le_of_lt hle f.done.toNat_lt)]
    have hdone : now.done.toNat = n := by rw [hback.done, hnat]
    -- undoing the blocks above gives what was held at that height
    have hrestored : now.held = held := by
      rw [hback.held_iff]
      have hunc := hmeets hreach held
      rw [hnat] at hunc
      exact hunc hheld
    rw [← hrestored] at hheld
    have hprocess' : Process.Inv hs core ⟨now, dir, some now, f.process.trail.take n⟩ :=
      h.process.step (e := .rewind (UInt32.ofNat n) call.stuck) hmeets hprocess
    have happlied : (f.process.trail.take n).map Prod.snd = f.applied.take n := List.map_take
    refine Follower.Inv.plan ⟨hprocess', ⟨hback.sound, hindexed⟩, ?_, ?_, ?_, ?_⟩
    · intro m held' hheld'
      unfold Follower.applied
      dsimp only at hheld' ⊢
      have hm : m ≤ n := by
        have hlt := le_of_heldAt hheld'
        rw [List.length_take] at hlt
        omega
      rw [heldAt_take hheld hm] at hheld'
      rw [happlied, List.take_take, Nat.min_eq_left hm]
      exact h.replays m held' hheld'
    · intro _
      have hpos : n - 1 + 1 = n := Nat.sub_add_cancel (hone.trans hfloor)
      -- the head is read off the undo file of the height, which names the block applied there
      obtain ⟨hash, hhash, hname⟩ := h.hashes (n - 1) u (by rw [h.length]; omega)
        (by rw [hpos]; exact hu)
      rw [hpos] at hhash
      refine ⟨hash, ?_, ?_⟩
      · unfold Follower.applied Follower.done
        dsimp only
        rw [hdone, happlied, hashAt_take (le_refl n), hhash]
      · dsimp only
        rw [← hname]
        exact hhead u ((hdir n (le_refl n)).trans hu)
    · intro m v hm hv
      unfold Follower.applied at hm ⊢
      dsimp only at hm hv ⊢
      rw [happlied] at hm ⊢
      rw [List.length_take] at hm
      rw [hashAt_take (by omega)]
      rw [hdir (m + 1) (by omega)] at hv
      exact h.hashes m v (by omega) hv
    · intro tip' floor' m hsearch
      dsimp only at hsearch
      rw [hphase] at hsearch
      obtain ⟨rfl, rfl, rfl⟩ : tip = tip' ∧ floor = floor' ∧ n = m := by
        rwa [Phase.search.injEq] at hsearch
      exact ⟨hone, hfloor, hdone.ge⟩

/-- In a search, a record that names the node's block names one that both have. -/
theorem Follower.Inv.agrees (h : f.Inv hs core) {n floor : ℕ} {u : BlockUndo H} {hash : Bytes32}
    (hphase : f.phase = .search tip floor n) (hu : f.process.dir.get? n = some u)
    (hhash : hashAt hs call.chain n = some hash) :
    u.blockHash = displayHash hash ↔ hashAt hs call.chain n = hashAt hs f.applied n := by
  obtain ⟨hone, hfloor, hle⟩ := h.search tip floor n hphase
  have hpos : n - 1 + 1 = n := Nat.sub_add_cancel (hone.trans hfloor)
  obtain ⟨ours, hours, hname⟩ := h.hashes (n - 1) u (by rw [h.length]; omega)
    (by rw [hpos]; exact hu)
  rw [hpos] at hours
  rw [hname, displayHash_injective.eq_iff, hhash, hours, Option.some.injEq]
  exact eq_comm

/-- What a call does: nothing to what is held, or the search comes to its end, or a block is taken.
    Every later proof about a call is by these cases and unfolds nothing. -/
theorem Follower.Inv.step_cases (h : f.Inv hs core) (hstep : f.step hs core cfg call = some f') :
    ((∀ target, f.phase ≠ .fetch target) ∧
      ∃ halted phase, f' = { f with halted := halted, phase := phase } ∧
        ∀ tip floor n, phase = .search tip floor n → 1 ≤ floor ∧ floor ≤ n ∧ n ≤ f.done.toNat) ∨
    (∃ tip floor n u, f.phase = .search tip floor n ∧ f.process.dir.get? n = some u ∧
      hashAt hs call.chain n = hashAt hs f.applied n ∧
      f.rewound hs cfg tip n call = some f') ∨
    ∃ target block process phase, f.phase = .fetch target ∧
      call.chain[f.done.toNat]? = some block ∧
      f.process.step hs core cfg.undoKeep
        (.advance (displayHash (block.hash hs)) block call.outcome) = some process ∧
      f' = { f with
        process := process, head := some (displayHash (block.hash hs)), phase := phase } ∧
      ∀ tip floor n, phase ≠ .search tip floor n := by
  -- a plan leads to the top or to a fetch, never into a search
  have hplan : ∀ (halted : Bool) (tip : UInt32) (g : Follower H),
      g = Follower.plan cfg { f with halted := halted } tip → (∀ target, f.phase ≠ .fetch target) →
      (∀ target, f.phase ≠ .fetch target) ∧
        ∃ halted phase, g = { f with halted := halted, phase := phase } ∧
          ∀ tip floor n, phase = .search tip floor n →
            1 ≤ floor ∧ floor ≤ n ∧ n ≤ f.done.toNat := by
    rintro halted tip g rfl hphase
    refine ⟨hphase, halted, _, rfl, ?_⟩
    intro tip' floor n heq
    rcases Follower.plan_phase cfg { f with halted := halted } tip with htop | ⟨target, hfetch⟩
    · cases htop.symm.trans heq
    · cases hfetch.symm.trans heq
  unfold Follower.step at hstep
  cases hphase : f.phase with
  | top =>
    rw [hphase] at hstep hplan
    dsimp only at hstep
    split at hstep
    · split at hstep
      · obtain rfl := Option.some.inj hstep
        exact .inl ⟨fun _ => nofun, f.halted, .compare _, rfl, fun _ _ _ => nofun⟩
      · exact .inl (hplan f.halted _ _ (Option.some.inj hstep).symm fun _ => nofun)
    · cases hstep
  | compare tip =>
    rw [hphase] at hstep hplan
    simp only [Option.bind_eq_bind, Option.bind_eq_some_iff] at hstep
    obtain ⟨hash, -, hstep⟩ := hstep
    split at hstep
    · split at hstep
      · rename_i hfloor
        obtain rfl := Option.some.inj hstep
        refine .inl ⟨fun _ => nofun, f.halted, .search tip _ _, rfl, ?_⟩
        intro tip' floor n heq
        obtain ⟨rfl, rfl, rfl⟩ := Phase.search.injEq .. ▸ heq
        exact ⟨le_max_right _ _, hfloor, le_refl _⟩
      · exact .inl (hplan true tip _ (Option.some.inj hstep).symm fun _ => nofun)
    · exact .inl (hplan f.halted tip _ (Option.some.inj hstep).symm fun _ => nofun)
  | search tip floor n =>
    rw [hphase] at hstep hplan
    obtain ⟨hone, hfloor, hle⟩ := h.search tip floor n hphase
    cases hu : f.process.dir.get? n with
    | none =>
      simp only [hu] at hstep
      exact .inl (hplan true tip _ (Option.some.inj hstep).symm fun _ => nofun)
    | some u =>
      simp only [hu, Option.bind_eq_bind, Option.bind_eq_some_iff] at hstep
      obtain ⟨hash, hhash, hstep⟩ := hstep
      split at hstep
      · rename_i hname
        -- the undo file names the block of the node: this is the fork point
        exact .inr (.inl ⟨tip, floor, n, u, rfl, hu, (h.agrees hphase hu hhash).mp hname, hstep⟩)
      · split at hstep
        · obtain rfl := Option.some.inj hstep
          refine .inl ⟨fun _ => nofun, f.halted, .search tip floor (n - 1), rfl, ?_⟩
          intro tip' floor' n' heq
          obtain ⟨rfl, rfl, rfl⟩ := Phase.search.injEq .. ▸ heq
          omega
        · exact .inl (hplan true tip _ (Option.some.inj hstep).symm fun _ => nofun)
  | fetch target =>
    rw [hphase] at hstep
    simp only [Option.bind_eq_bind, Option.bind_eq_some_iff, Option.some.injEq] at hstep
    obtain ⟨block, hblock, process, hprocess, rfl⟩ := hstep
    refine .inr (.inr ⟨target, block, process, _, rfl, hblock, hprocess, rfl, ?_⟩)
    intro tip floor n heq
    split at heq <;> cases heq

/-- **From one call to the next.** -/
theorem Follower.Inv.step (h : f.Inv hs core) (hmeets : f.Meets hs core call)
    (hstep : f.step hs core cfg call = some f') : f'.Inv hs core := by
  obtain ⟨-, halted, phase, rfl, hsearch⟩ | ⟨tip, floor, n, u, hphase, hu, hagrees, hrewound⟩ |
    ⟨target, block, process, phase, hphase, -, hprocess, rfl, hsearch⟩ := h.step_cases hstep
  · exact h.rephase hsearch
  · exact h.rewound hphase hu (hmeets.rewind tip floor n hphase hagrees) hrewound
  · exact h.fetch (hmeets.fetch target hphase) hprocess hsearch

end Bridge
end Hazync
