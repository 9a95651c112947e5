import Hazync.Bridge.OneChain

/-!
# The check at the top of a pass

Where the node has another block at the height of the bridge's last one, the search goes down the
records. It ends at the highest block that both have, or where the window ends.

`Common` and `Parted` say where two chains agree and where they do not, at the heights for which
there is a record. The search keeps `Parted` above the height it has come to and stops at the first
`Common` one. It goes down one height at a time, so what it stops at is the highest block in common
within the window.

The window is the records themselves: old ones are pruned, so the search cannot go below the lowest
that is left. Where the chains parted below that, the bridge halts.
-/

namespace Hazync
namespace Bridge

open Guest (Core)

variable {H : Type} {hs : Hashing H} [DecidableEq H] {core : Core} {cfg : Settings}
  {f f' : Follower H} {call : Call} {tip : UInt32}

omit [DecidableEq H] in
/-- The floor of the search is not above any height that has a record. -/
theorem undoFloor_le {dir : UndoDir H} {i : ℕ} {u : BlockUndo H} (h : dir.get? i = some u) :
    ∃ floor, undoFloor dir = some floor ∧ floor ≤ i := by
  have hmem := SortedMap.get?_eq_some.mp h
  have hsorted := dir.sorted
  unfold undoFloor
  cases hentries : dir.entries with
  | nil =>
    rw [hentries] at hmem
    exact absurd hmem List.not_mem_nil
  | cons e rest =>
    rw [hentries] at hmem hsorted
    refine ⟨e.1, rfl, ?_⟩
    rcases List.mem_cons.mp hmem with heq | hrest
    · rw [← heq]
    · exact ((List.pairwise_cons.mp hsorted).1 _ hrest).le

/-- The chains agree at `m`, and the window reaches down to it. -/
structure Process.Common (hs : Hashing H) (p : Process H) (chain : List Block) (m : ℕ) : Prop where
  pos : 1 ≤ m
  le : m ≤ p.now.done.toNat
  /-- No undo record from there up to the bridge's height has been pruned. -/
  records : ∀ i, m ≤ i → i ≤ p.now.done.toNat → (p.dir.get? i).isSome
  agrees : hashAt hs chain m = hashAt hs (p.trail.map Prod.snd) m

/-- Above `n` the chains part, and all records are there: this is what the search knows when it has
    come down to `n`. -/
structure Process.Parted (hs : Hashing H) (p : Process H) (chain : List Block) (n : ℕ) : Prop where
  records : ∀ i, n < i → i ≤ p.now.done.toNat → (p.dir.get? i).isSome
  parts : ∀ i, n < i → i ≤ p.now.done.toNat →
    hashAt hs chain i ≠ hashAt hs (p.trail.map Prod.snd) i

omit [DecidableEq H] in
/-- A block in common is not above the one that the search has come to. -/
theorem Process.Parted.le {p : Process H} {chain : List Block} {n m : ℕ} (h : p.Parted hs chain n)
    (hcommon : p.Common hs chain m) : m ≤ n := by
  by_contra hlt
  exact h.parts m (by omega) hcommon.le hcommon.agrees

/-- Where the check leaves a bridge that is not on the node's chain: back at the highest block that
    both have and that is in the window, or halted where it was. -/
def Follower.Settles (hs : Hashing H) (f : Follower H) (chain : List Block) (f' : Follower H) :
    Prop :=
  (∃ m, f.process.Common hs chain m ∧ f.process.Parted hs chain m ∧
      f'.applied = f.applied.take m ∧ f'.done.toNat = m ∧ f'.halted = f.halted) ∨
    ((∀ m, ¬ f.process.Common hs chain m) ∧ f'.process = f.process ∧ f'.halted = true)

/-- Calls that the node answers from one chain, and the last of them leads to `f'`. -/
def Follower.Checks (hs : Hashing H) (core : Core) (cfg : Settings) (f : Follower H) (call : Call)
    (f' : Follower H) : Prop :=
  ∃ n, (List.replicate (n + 1) call).foldlM (Follower.step hs core cfg) f = some f'

theorem Follower.Checks.one (hstep : f.step hs core cfg call = some f') :
    f.Checks hs core cfg call f' := by
  refine ⟨0, ?_⟩
  rw [zero_add, List.replicate_one, List.foldlM_cons, hstep]
  rfl

theorem Follower.Checks.cons {mid : Follower H} (hstep : f.step hs core cfg call = some mid)
    (h : mid.Checks hs core cfg call f') : f.Checks hs core cfg call f' := by
  obtain ⟨n, hn⟩ := h
  refine ⟨n + 1, ?_⟩
  rw [List.replicate_succ, List.foldlM_cons, hstep]
  exact hn

/-- **The search** goes down to the highest block in common. The induction is on the height that it
    has come to; at the floor it ends, and the bridge halts where it was. -/
theorem Follower.Inv.search_settles (h : f.Inv hs core) (cfg : Settings) {n floor : ℕ}
    (hphase : f.phase = .search tip floor n) (hchain : f.done.toNat ≤ call.chain.length)
    (hparted : f.process.Parted hs call.chain n)
    (htop : hashAt hs call.chain f.done.toNat ≠ hashAt hs f.applied f.done.toNat)
    (hfloor : ∀ i u, 1 ≤ i → f.process.dir.get? i = some u → floor ≤ i) :
    ∃ f', f.Checks hs core cfg call f' ∧ f.Settles hs call.chain f' := by
  -- from the height of the search downwards
  induction n generalizing f with
  | zero =>
    have hsearch := h.search tip floor 0 hphase
    omega
  | succ n ih =>
    obtain ⟨hone, hle, hdone⟩ := h.search tip floor (n + 1) hphase
    obtain ⟨hash, hhash⟩ : ∃ hash, hashAt hs call.chain (n + 1) = some hash :=
      exists_hashAt (hdone.trans hchain)
    have hhalted : (∀ m, ¬ f.process.Common hs call.chain m) →
        f.step hs core cfg call = some (f.halt.plan cfg tip) →
        ∃ f', f.Checks hs core cfg call f' ∧ f.Settles hs call.chain f' :=
      fun hnone hstep => ⟨_, .one hstep, .inr ⟨hnone, rfl, rfl⟩⟩
    -- without its own record of the height the follower does not know what it had there
    cases hu : f.process.dir.get? (n + 1) with
    | none =>
      refine hhalted ?_ ?_
      · intro m hcommon
        have hsome := hcommon.records (n + 1) (hparted.le hcommon) hdone
        rw [hu] at hsome
        cases hsome
      · unfold Follower.step
        simp only [hphase, hu]
    | some u =>
      have hagrees := h.agrees hphase hu hhash
      have hrecords : ∀ i, n < i → i ≤ f.done.toNat → (f.process.dir.get? i).isSome := by
        intro i hi hto
        rcases Nat.lt_or_eq_of_le hi with habove | rfl
        · exact hparted.records i habove hto
        · rw [hu]
          rfl
      by_cases hname : u.blockHash = displayHash hash
      · -- the block that both have
        have hstep : f.step hs core cfg call = f.rewound hs cfg tip (n + 1) call := by
          unfold Follower.step
          simp only [hphase, hu, hhash, Option.bind_eq_bind, Option.bind_some, if_pos hname]
        have hbelow : n + 1 < f.done.toNat := by
          refine Nat.lt_of_le_of_ne hdone ?_
          intro heq
          rw [← heq] at htop
          exact htop (hagrees.mp hname)
        have hnat : (UInt32.ofNat (n + 1)).toNat = n + 1 := by
          rw [UInt32.toNat_ofNat', Nat.mod_eq_of_lt (hbelow.trans f.done.toNat_lt)]
        have hreach : f.process.Reaches (UInt32.ofNat (n + 1)) := by
          refine ⟨?_, ?_⟩
          · rw [UInt32.lt_iff_toNat_lt, hnat]
            exact hbelow
          · rw [hnat]
            exact hparted.records
        rcases h.rewound_cases hdone cfg tip call with
          ⟨hnot, -⟩ | ⟨now, dir, head, held, -, -, hdid, -, hback, -⟩
        · exact absurd hreach hnot
        · refine ⟨_, .one (hstep.trans hdid), .inl ⟨n + 1, ?_, hparted, ?_, ?_, rfl⟩⟩
          · exact ⟨Nat.le_add_left 1 n, hdone, hrecords, hagrees.mp hname⟩
          · exact List.map_take
          · change now.done.toNat = n + 1
            rw [hback.done, hnat]
      · have hdiffer : f.process.Parted hs call.chain n := by
          refine ⟨hrecords, ?_⟩
          intro i hi hto
          rcases Nat.lt_or_eq_of_le hi with habove | rfl
          · exact hparted.parts i habove hto
          · exact fun heq => hname (hagrees.mpr heq)
        by_cases hend : floor < n + 1
        · -- one block down
          have hstep : f.step hs core cfg call = some { f with phase := .search tip floor n } := by
            unfold Follower.step
            simp only [hphase, hu, hhash, Option.bind_eq_bind, Option.bind_some, if_neg hname,
              if_pos hend, Nat.add_sub_cancel]
          have hnext : Follower.Inv hs core { f with phase := .search tip floor n } := by
            refine h.rephase ?_
            intro tip' floor' n' heq
            obtain ⟨rfl, rfl, rfl⟩ := Phase.search.injEq .. ▸ heq
            omega
          obtain ⟨f', hchecks, hsettles⟩ := ih hnext rfl hchain hdiffer htop hfloor
          exact ⟨f', hchecks.cons hstep, hsettles⟩
        · refine hhalted ?_ ?_
          · intro m hcommon
            obtain ⟨v, hv⟩ := Option.isSome_iff_exists.mp (hcommon.records m (le_refl m) hcommon.le)
            have hm := hfloor m v hcommon.pos hv
            have hmn := hdiffer.le hcommon
            omega
          · unfold Follower.step
            simp only [hphase, hu, hhash, Option.bind_eq_bind, Option.bind_some, if_neg hname,
              if_neg hend]

/-- A pass starts with the comparison where the bridge stands on the node's heights. -/
theorem Follower.Inv.step_top (h : f.Inv hs core) (cfg : Settings) (hphase : f.phase = .top)
    (hsmall : call.chain.length < 2 ^ 32) (hpos : 0 < f.done.toNat)
    (hchain : f.done.toNat ≤ call.chain.length) :
    f.step hs core cfg call =
      some { f with phase := .compare (UInt32.ofNat call.chain.length) } := by
  obtain ⟨ours, -, hhead⟩ := h.head hpos
  have hsome : f.head.isSome := by
    rw [hhead]
    rfl
  have hle : f.done ≤ UInt32.ofNat call.chain.length := by
    rw [UInt32.le_iff_toNat_le, UInt32.toNat_ofNat', Nat.mod_eq_of_lt hsmall]
    exact hchain
  unfold Follower.step
  rw [hphase]
  dsimp only
  rw [if_pos hsmall, if_pos ⟨hsome, UInt32.lt_iff_toNat_lt.mpr hpos, hle⟩]

/-- Where the chains agree at the last block the pass goes on. -/
theorem Follower.Inv.check_passes (h : f.Inv hs core) (cfg : Settings) (call : Call)
    (hphase : f.phase = .top)
    (hsmall : call.chain.length < 2 ^ 32) (hpos : 0 < f.done.toNat)
    (hchain : f.done.toNat ≤ call.chain.length)
    (hagree : hashAt hs call.chain f.done.toNat = hashAt hs f.applied f.done.toNat) :
    f.Checks hs core cfg call (f.plan cfg (UInt32.ofNat call.chain.length)) := by
  obtain ⟨ours, hours, hhead⟩ := h.head hpos
  have hseen : ¬ reorgSeen f.head (displayHash ours) = some true := by
    rw [hhead, reorgSeen_displayHash, Option.some.injEq, decide_eq_true_eq]
    exact fun hne => hne rfl
  refine .cons (h.step_top cfg hphase hsmall hpos hchain) (.one ?_)
  unfold Follower.step
  dsimp only
  change (hashAt hs call.chain f.done.toNat).bind _ = _
  rw [hagree, hours, Option.bind_some, if_neg hseen]
  rfl

/-- **The check at the top of a pass** finds that the chains have parted. Whatever the node's chain
    is, the pass leaves the bridge on a block of it or halted, before anything is fetched. -/
theorem Follower.Inv.check_settles (h : f.Inv hs core) (hphase : f.phase = .top)
    (hsmall : call.chain.length < 2 ^ 32) (hchain : f.done.toNat ≤ call.chain.length)
    (hparted : hashAt hs call.chain f.done.toNat ≠ hashAt hs f.applied f.done.toNat) :
    ∃ f', f.Checks hs core cfg call f' ∧ f.Settles hs call.chain f' := by
  have hpos : 0 < f.done.toNat := by
    rw [Nat.pos_iff_ne_zero]
    intro hzero
    rw [hzero] at hparted
    exact hparted rfl
  obtain ⟨ours, hours, hhead⟩ := h.head hpos
  obtain ⟨theirs, htheirs⟩ : ∃ hash, hashAt hs call.chain f.done.toNat = some hash :=
    exists_hashAt hchain
  have hseen : reorgSeen f.head (displayHash theirs) = some true := by
    rw [hhead, reorgSeen_displayHash, Option.some.injEq, decide_eq_true_eq]
    rintro rfl
    exact hparted (htheirs.trans hours.symm)
  have hcompare := h.step_top cfg hphase hsmall hpos hchain
  generalize UInt32.ofNat call.chain.length = tip at hcompare
  generalize hfloor : max ((undoFloor f.process.dir).getD f.done.toNat) 1 = floor
  have hstep : ∀ next, (if floor ≤ f.done.toNat then
        some { f with phase := .search tip floor f.done.toNat }
      else some (f.halt.plan cfg tip)) = some next →
      Follower.step hs core cfg { f with phase := .compare tip } call = some next := by
    intro next hnext
    unfold Follower.step
    dsimp only
    change (hashAt hs call.chain f.done.toNat).bind _ = _
    rw [htheirs, Option.bind_some, if_pos hseen]
    rw [← hfloor] at hnext
    exact hnext
  -- there are records to go back by, and the search begins; or there are none, and it halts
  by_cases hle : floor ≤ f.done.toNat
  · have hsearch : Follower.Inv hs core
        { f with phase := .search tip floor f.done.toNat } := by
      refine h.rephase ?_
      intro tip' floor' n heq
      obtain ⟨rfl, rfl, rfl⟩ := Phase.search.injEq .. ▸ heq
      exact ⟨hfloor ▸ le_max_right _ _, hle, le_refl _⟩
    have htop : f.process.Parted hs call.chain f.done.toNat :=
      ⟨fun i hi hto => absurd hto (by unfold Follower.done at hi; omega),
        fun i hi hto => absurd hto (by unfold Follower.done at hi; omega)⟩
    have hlowest : ∀ i u, 1 ≤ i → f.process.dir.get? i = some u → floor ≤ i := by
      intro i u hi hu
      obtain ⟨lowest, hlowest, hmin⟩ := undoFloor_le hu
      rw [← hfloor, hlowest]
      exact max_le hmin hi
    obtain ⟨f', hchecks, hsettles⟩ := hsearch.search_settles cfg rfl hchain htop hparted
      hlowest
    exact ⟨f', .cons hcompare (.cons (hstep _ (if_pos hle)) hchecks), hsettles⟩
  · refine ⟨_, .cons hcompare (.one (hstep _ (if_neg hle))), .inr ⟨?_, rfl, rfl⟩⟩
    intro m hcommon
    obtain ⟨u, hu⟩ := Option.isSome_iff_exists.mp (hcommon.records m (le_refl m) hcommon.le)
    obtain ⟨lowest, hlowest, hmin⟩ := undoFloor_le hu
    have hm := hcommon.le
    rw [← hfloor, hlowest] at hle
    exact hle (max_le (hmin.trans hm) hpos)

omit [DecidableEq H] in
/-- A pass does not go beyond the tip: where the bridge is at it or above it, there is nothing to
    fetch and the next pass begins. -/
theorem Follower.plan_phase_of_le (f : Follower H) (cfg : Settings) (hle : tip ≤ f.done) :
    (f.plan cfg tip).phase = .top := by
  have hfinality : (if tip ≤ cfg.finality then 0 else tip - cfg.finality) ≤ tip := by
    split
    · exact UInt32.le_iff_toNat_le.mpr (Nat.zero_le _)
    · rename_i hlt
      rw [UInt32.le_iff_toNat_le,
        UInt32.toNat_sub_of_le _ _ (UInt32.le_of_lt (UInt32.not_le.mp hlt))]
      exact Nat.sub_le _ _
  generalize htarget : (if tip ≤ cfg.finality then 0 else tip - cfg.finality) = target at hfinality
  have hcap : cfg.cap.elim target (min target) ≤ target := by
    cases cfg.cap with
    | none => exact UInt32.le_refl target
    | some cap =>
      change (if target ≤ cap then target else cap) ≤ target
      split
      · exact UInt32.le_refl target
      · rename_i hcap
        exact UInt32.le_of_lt (UInt32.not_le.mp hcap)
  have hpass : f.halted = true ∨ cfg.cap.elim target (min target) ≤ f.done :=
    .inr (UInt32.le_trans hcap (UInt32.le_trans hfinality hle))
  unfold Follower.plan
  dsimp only
  rw [htarget]
  exact if_pos hpass

omit [DecidableEq H] in
theorem Follower.plan_eq_self (cfg : Settings) (hphase : f.phase = .top) (hle : tip ≤ f.done) :
    f.plan cfg tip = f := by
  have htop := f.plan_phase_of_le cfg hle
  calc f.plan cfg tip
      = { f with phase := (f.plan cfg tip).phase } := rfl
    _ = { f with phase := .top } := by rw [htop]
    _ = f := by rw [← hphase]

/-- While the node's chain is shorter than the bridge's the passes are empty. -/
theorem Follower.step_of_lt (hphase : f.phase = .top) (hshort : call.chain.length < f.done.toNat) :
    f.step hs core cfg call = some f := by
  have hsmall : call.chain.length < 2 ^ 32 := hshort.trans f.done.toNat_lt
  have htip : UInt32.ofNat call.chain.length < f.done := by
    rw [UInt32.lt_iff_toNat_lt, UInt32.toNat_ofNat', Nat.mod_eq_of_lt hsmall]
    exact hshort
  unfold Follower.step
  rw [hphase]
  dsimp only
  rw [if_pos hsmall, if_neg, f.plan_eq_self cfg hphase (UInt32.le_of_lt htip)]
  exact fun hall => UInt32.not_le.mpr htip hall.2.2

end Bridge
end Hazync
