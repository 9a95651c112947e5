import Hazync.Bridge.Undo

/-!
# Back over the blocks of a walk

The record of a block takes back all that the block did (`Undoes`), but for one thing: where the
block put a coin in over another, the map is left with neither. So the loop of a rewind comes to
what was held at its target, except at the outpoints that the blocks it takes back cover
(`Standing.Sound.rewind`).

## What a record has, and what it has not

The record of a block has the operations of the forest, the coins that the map lost and those it
gained, the entries of the tree before their change, the window and the header fields. What it
gained includes a coin that was put in over another; the other is not in what it lost, since the
insert in the source does not look. So the undo removes the new coin and does not bring back the old
one. At all other outpoints the undo is exact.

`Covers` says at which outpoints that happens over a run of blocks, from the blocks alone. A coin
that is covered but was spent by one of the blocks before is in the record of that block, and comes
back.
-/

namespace Hazync
namespace Bridge

open ByteStrings
open Accumulator (Forest ForestOp)
open Guest (Core Transaction)

variable {H : Type}

/-! ## What a block leaves in the forest and in the tree -/

section

variable [DecidableEq H] {hs : Hashing H} {core : Core} {utxo : Utxo} {block : Block}
  {blockMtp : List UInt32} {height : UInt32} {L : List H} {F G : Forest H}

/-- What adds and deletes keep, a block keeps: it touches the forest by these two operations
    only. -/
theorem forest_of_buildBlockCarried {p : Forest H → Prop} {w : Carried H}
    (hadd : ∀ F leaf, p F → p (F.add hs.parent leaf))
    (hdelete : ∀ F pos G, p F → F.delete hs.parent pos = some G → p G) (h : p F)
    (hbuild : buildBlockCarried hs core utxo blockMtp height block F = some w) : p w.forest := by
  unfold buildBlockCarried at hbuild
  simp only [Option.bind_eq_bind, Option.bind_eq_some_iff, Option.some.injEq] at hbuild
  obtain ⟨coinbase, -, spends, -, rootPrev, -, acc, hacc, ⟨G, bip30⟩, hover, rootNext, -, rfl⟩ :=
    hbuild
  -- the inputs
  have hinputs : p acc.forest := by
    refine Runs.foldlM_invariant (p := fun acc : Spending H => p acc.forest) ?_ h hacc
    intro s _ acc acc' hp hstep
    unfold spendInput at hstep
    dsimp only at hstep
    split at hstep
    · obtain rfl := Option.some.inj hstep
      exact hp
    · simp only [Option.bind_eq_bind, Option.bind_eq_some_iff, Option.some.injEq] at hstep
      obtain ⟨pos, -, proofI, -, proofLast, -, G, hdel, rfl⟩ := hstep
      exact hdelete _ pos G hp hdel
  -- the coinbase that is overwritten
  have hoverwritten : p G := by
    unfold overwrite at hover
    split at hover
    · obtain ⟨rfl, -⟩ := Prod.mk.inj (Option.some.inj hover)
      exact hinputs
    · simp only [Option.bind_eq_bind, Option.bind_eq_some_iff] at hover
      obtain ⟨⟨G', dels⟩, hfold, heq⟩ := hover
      obtain ⟨rfl, -⟩ := Prod.mk.inj (Option.some.inj heq)
      refine Runs.foldlM_invariant (p := fun acc : Forest H × _ => p acc.1) ?_ hinputs hfold
      intro leaf _ acc acc' hp hstep
      obtain ⟨pos, -, hdel⟩ := deleteSuperseded_eq_some hstep
      exact hdelete _ pos _ hp hdel
  -- the outputs
  dsimp only
  generalize (block.outLeaves hs core height (blockMtp.getD height.toNat block.time)).filter
    (· ∉ acc.spentInBlock) = leaves
  clear hover
  induction leaves generalizing G with
  | nil => exact hoverwritten
  | cons leaf leaves ih => exact ih _ (hadd G leaf hoverwritten)

/-- A well kept forest that has recorded the way back to `L`. -/
structure Journalled (hs : Hashing H) (L : List H) (F : Forest H) : Prop where
  kept : Forest.Kept hs.parent F F.leaves
  recorded : F.Recorded L

omit [DecidableEq H] in
theorem Journalled.begin (h : Forest.Kept hs.parent F F.leaves) :
    Journalled hs F.leaves F.beginJournal :=
  ⟨⟨rfl, h.cache⟩, [], rfl, rfl⟩

theorem Journalled.add (h : Journalled hs L F) (leaf : H) :
    Journalled hs L (F.add hs.parent leaf) := by
  have hop : (Forest.Op.add leaf).Mutation := trivial
  exact ⟨⟨rfl, (h.kept.add leaf).cache⟩, h.recorded.step hop rfl⟩

theorem Journalled.delete {pos : ℕ} (h : Journalled hs L F)
    (hdelete : F.delete hs.parent pos = some G) : Journalled hs L G := by
  have hop : (Forest.Op.delete pos : Forest.Op H).Mutation := trivial
  have hrel := h.kept.delete pos
  rw [hdelete] at hrel
  generalize Accumulator.ListModel.delete F.leaves pos = o at hrel
  cases hrel with
  | some hkept => exact ⟨⟨rfl, hkept.cache⟩, h.recorded.step hop hdelete⟩

/-- A block records all that it does to the forest. -/
theorem Journalled.buildBlockCarried {w : Carried H} (h : Journalled hs L F)
    (hbuild : buildBlockCarried hs core utxo blockMtp height block F = some w) :
    Journalled hs L w.forest :=
  forest_of_buildBlockCarried (fun _ leaf hp => hp.add leaf) (fun _ _ _ hp hdel => hp.delete hdel) h
    hbuild

/-- What `smt_advance` writes it records, whether or not the coinbase was there before. -/
theorem records_smtAdvance {smt smt' : Smt H} {coinbase : Bytes32} {outputs : UInt32}
    {spends : List Bytes32} {grandfathered : Bool} {wit : Guest.SmtWitness H}
    {prior : List (Bytes32 × Option UInt32)} (hcached : smt.Cached hs)
    (h : smtAdvance hs smt coinbase outputs spends grandfathered = some (wit, prior, smt')) :
    smt'.Cached hs ∧ Records smt.get prior smt'.get := by
  obtain ⟨overwrite, -, h⟩ := Option.bind_eq_some_iff.mp h
  obtain ⟨acc, hacc, h⟩ := Option.bind_eq_some_iff.mp h
  cases h
  -- The coinbase is recorded first, so only the other keys matter.
  have henter : (enterCoinbase hs smt coinbase outputs grandfathered).Cached hs ∧
      ∀ k ≠ coinbase, (enterCoinbase hs smt coinbase outputs grandfathered).get k = smt.get k := by
    unfold enterCoinbase
    split
    · refine ⟨(hcached.insert _ _).2, ?_⟩
      intro k hk
      rw [hcached.get_insert, Function.update_of_ne hk]
    · split
      · refine ⟨(hcached.remove _).2, ?_⟩
        intro k hk
        rw [(hcached.remove _).1, Function.update_of_ne hk]
      · exact ⟨hcached, fun _ _ => rfl⟩
  have hrec : Records smt.get [(coinbase, smt.get coinbase)]
      (enterCoinbase hs smt coinbase outputs grandfathered).get := by
    refine ⟨?_, ?_⟩
    · intro p hp
      rw [List.mem_singleton.mp hp]
    · intro k hk
      rw [List.map_singleton, List.mem_singleton] at hk
      exact henter.2 k hk
  obtain ⟨new, -, -, -, -, hcached', -, hrec'⟩ := advanceSpends_ok hacc henter.1 hrec
  exact ⟨hcached', hrec'⟩

/-! ## One block -/

/-- The record `u` takes the block at `height` back: from what was held after it to what was held
    before. The map is the one piece that a record may not restore. -/
structure Undoes (hs : Hashing H) (core : Core) (before : Held H) (block : Block) (after : Held H)
    (height : UInt32) (u : BlockUndo H) : Prop where
  /-- The operations, undone in the opposite order, take the leaves back. -/
  leaves : u.forestOps.reverse.foldlM Accumulator.ListModel.undoOp after.leaves = some before.leaves
  /-- The record has what the map lost and gained. It is not told of what was overwritten. -/
  utxo : updateUtxo core before.utxo block height = (after.utxo, ⟨u.utxoSpent, u.utxoCreated⟩)
  /-- Before each change of the tree its earlier entry was noted. -/
  smt : Records before.smt.get u.smtPrior after.smt.get
  cached : before.smt.Cached hs
  win : u.prevWin = before.win
  /-- One median was added for the block. -/
  blockMtp : after.blockMtp.dropLast = before.blockMtp
  nbits : u.prevNbits = before.nbits
  time : u.prevTime = before.time
  epochStart : u.prevEpochStart = before.epochStart

/-- Forest and tree are well kept. -/
structure Standing.Sound (hs : Hashing H) (s : Standing H) : Prop where
  forest : Forest.Kept hs.parent s.forest s.forest.leaves
  smt : s.smt.Cached hs

theorem Standing.Sound.genesis : (Standing.genesis hs).Sound hs := ⟨.new, Smt.cached_new⟩

/-- A block, and its record: what is held after it is sound, one higher, and the record takes it
    back. -/
theorem Standing.Sound.advance {s s' : Standing H} {hash : String} {u : BlockUndo H}
    (h : s.Sound hs) (hadvance : s.advance hs core hash block = some (s', u)) :
    s'.Sound hs ∧ s'.done.toNat = s.done.toNat + 1 ∧ u.height = s'.done ∧
      Undoes hs core s.held block s'.held s'.done u := by
  unfold Standing.advance at hadvance
  rw [Option.ite_none_left_eq_some] at hadvance
  obtain ⟨hdone, hadvance⟩ := hadvance
  simp only [Option.bind_eq_bind, Option.bind_eq_some_iff, Option.some.injEq] at hadvance
  obtain ⟨⟨win, blockMtp⟩, hpush, w, hw, coinbase, -, ⟨wit, prior, smt⟩, hsmt, heq⟩ := hadvance
  obtain ⟨mtp, -, hmtp⟩ := Option.bind_eq_some_iff.mp hpush
  obtain ⟨-, rfl⟩ := Prod.mk.inj (Option.some.inj hmtp)
  obtain ⟨rfl, rfl⟩ := Prod.mk.inj heq
  obtain ⟨hcached, hrecords⟩ := records_smtAdvance h.smt hsmt
  obtain ⟨hkept, ops, hops, hback⟩ := (Journalled.begin h.forest).buildBlockCarried hw
  refine ⟨⟨⟨rfl, hkept.cache⟩, hcached⟩, ?_, rfl, ?_⟩
  · have hbound := s.done.toNat_lt
    have hne : s.done.toNat ≠ 2 ^ 32 - 1 := fun heq => hdone (UInt32.toNat_inj.mp heq)
    show (s.done + 1).toNat = _
    rw [UInt32.toNat_add, UInt32.toNat_one]
    exact Nat.mod_eq_of_lt (by omega)
  · refine ⟨?_, rfl, hrecords, h.smt, rfl, List.dropLast_concat, rfl, rfl, rfl⟩
    show (w.forest.journalOps).reverse.foldlM _ w.forest.leaves = _
    unfold Forest.journalOps
    rw [hops]
    exact hback

/-- Without the record it is the round of the walk. -/
theorem Standing.advance_toResident {s s' : Standing H} {hash : String} {u : BlockUndo H}
    (h : s.advance hs core hash block = some (s', u)) :
    s.toResident.advance hs core block = some s'.toResident := by
  unfold Standing.advance at h
  rw [Option.ite_none_left_eq_some] at h
  obtain ⟨hdone, h⟩ := h
  simp only [Option.bind_eq_bind, Option.bind_eq_some_iff, Option.some.injEq] at h
  obtain ⟨⟨win, blockMtp⟩, hpush, w, hw, coinbase, hcoinbase, ⟨wit, prior, smt⟩, hsmt, heq⟩ := h
  obtain ⟨rfl, rfl⟩ := Prod.mk.inj heq
  unfold Resident.advance
  rw [if_neg hdone, hpush]
  simp only [Option.bind_eq_bind, Option.bind_some, hw, hcoinbase, hsmt]

/-! ## Block by block -/

/-- The outpoints that one of the blocks from a height on puts a coin in at, before any of them has
    spent one there. -/
def Covers (core : Core) : ℕ → List Block → Outpoint → Prop
  | _, [], _ => False
  | height, block :: rest, k =>
    k ∈ (block.kept core (UInt32.ofNat height)).map Prod.fst ∨
      k ∉ block.spent ∧ Covers core (height + 1) rest k

/-- Back at a height, over the blocks from there on: all is as it was held, but the map has nothing
    at the outpoints that the blocks cover. -/
structure Standing.Back (hs : Hashing H) (core : Core) (held : Held H) (height : ℕ)
    (blocks : List Block) (s : Standing H) : Prop where
  sound : s.Sound hs
  done : s.done = UInt32.ofNat height
  /-- All but the map is as it was held. -/
  rest : s.held = { held with utxo := s.utxo }
  /-- Where a block above has put a coin there is none now, also where there was one before. -/
  lost : ∀ k, Covers core (height + 1) blocks k → s.utxo.get? k = none
  /-- Elsewhere the map is as it was. -/
  found : ∀ k, ¬ Covers core (height + 1) blocks k → s.utxo.get? k = held.utxo.get? k

variable {before after held : Held H} {blocks : List Block} {s : Standing H} {u : BlockUndo H}
  {dir : UndoDir H} {n : ℕ}

/-- The map is the one piece in doubt, and it is the right one where nothing was covered. -/
theorem Standing.Back.held_iff (h : s.Back hs core held n blocks) :
    s.held = held ↔ ∀ k, Covers core (n + 1) blocks k → held.utxo.get? k = none := by
  constructor
  · intro heq k hk
    rw [← heq]
    exact h.lost k hk
  · intro hnone
    have hutxo : s.utxo = held.utxo := by
      refine SortedMap.ext_get? fun k => ?_
      by_cases hk : Covers core (n + 1) blocks k
      · rw [h.lost k hk, hnone k hk]
      · exact h.found k hk
    rw [h.rest, hutxo]

/-- **One block back.** Each part of the record is applied: the forest's operations newest first,
    the coins created out and the coins spent in, the tree's entries back, the window and the fields
    as they were. -/
theorem Standing.Back.unwind (stuck : ℕ → Bool) (h : s.Back hs core after (n + 1) blocks)
    (hundo : Undoes hs core before block after (UInt32.ofNat (n + 1)) u)
    (hget : dir.get? (n + 1) = some u) :
    ∃ s', unwind hs stuck (s, dir) (n + 1) =
        some (s', if stuck (n + 1) then dir else dir.erase (n + 1)) ∧
      s'.Back hs core before n (block :: blocks) := by
  have hleaves : s.forest.leaves = after.leaves := congrArg Held.leaves h.rest
  have hsmt : s.smt = after.smt := congrArg Held.smt h.rest
  have hmtp : s.blockMtp = after.blockMtp := congrArg Held.blockMtp h.rest
  -- The forest goes back with its list, so it does not panic.
  obtain ⟨F, hforest, hkept⟩ : ∃ F, s.forest.undoOps hs.parent u.forestOps = some F ∧
      Forest.Kept hs.parent F before.leaves := by
    have hrel := h.sound.forest.undoOps u.forestOps
    rw [hleaves, hundo.leaves] at hrel
    cases hops : s.forest.undoOps hs.parent u.forestOps with
    | none =>
      rw [hops] at hrel
      cases hrel
    | some F =>
      rw [hops] at hrel
      cases hrel with
      | some hkept => exact ⟨F, rfl, hkept⟩
  have hback : undoPrior hs s.smt u.smtPrior = before.smt := by
    refine undoPrior_ok hundo.cached h.sound.smt ?_
    rw [hsmt]
    exact hundo.smt
  have hstep : Bridge.unwind hs stuck (s, dir) (n + 1) =
      some
        ({ s with
            forest := F
            utxo := undoUtxo s.utxo ⟨u.utxoSpent, u.utxoCreated⟩
            smt := undoPrior hs s.smt u.smtPrior
            win := u.prevWin
            blockMtp := s.blockMtp.dropLast
            done := UInt32.ofNat n
            nbits := u.prevNbits
            time := u.prevTime
            epochStart := u.prevEpochStart }, if stuck (n + 1) then dir else dir.erase (n + 1)) := by
    unfold Bridge.unwind
    simp only [hget, hforest, Option.bind_eq_bind, Option.bind_some, Nat.add_sub_cancel]
  have hdelta : (updateUtxo core before.utxo block (UInt32.ofNat (n + 1))).2 =
      ⟨u.utxoSpent, u.utxoCreated⟩ := congrArg Prod.snd hundo.utxo
  have hafter : (updateUtxo core before.utxo block (UInt32.ofNat (n + 1))).1 = after.utxo :=
    congrArg Prod.fst hundo.utxo
  refine ⟨_, hstep, ⟨⟨rfl, ?_⟩, ?_⟩, rfl, ?_, ?_, ?_⟩
  · exact hkept.cache
  · rw [hback]
    exact hundo.cached
  · unfold Standing.held
    dsimp only
    rw [hkept.leaves, hback, hmtp, hundo.blockMtp, hundo.win, hundo.nbits, hundo.time,
      hundo.epochStart]
  · intro k hk
    dsimp only
    rw [← hdelta, get?_undoUtxo_record]
    rcases hk with hkept' | ⟨hspent, hrest⟩
    · rw [if_pos hkept']
    · have hout : ¬ (k ∈ block.spent ∧ (before.utxo.get? k).isSome) := fun hin => hspent hin.1
      rw [if_neg hout, h.lost k hrest, ite_self]
  · intro k hk
    dsimp only
    obtain ⟨hnot, hrest⟩ := not_or.mp hk
    rw [← hdelta, get?_undoUtxo_record, if_neg hnot]
    by_cases hspent : k ∈ block.spent
    · -- what the block spent is put back, and where it had nothing to spend there is nothing now
      cases hold : before.utxo.get? k with
      | some v => simp [hspent]
      | none =>
        have hgone : after.utxo.get? k = none := by
          rw [← hafter, get?_updateUtxo_of_notMem hnot, if_pos hspent]
        rw [if_neg (by simp)]
        by_cases hcover : Covers core (n + 1 + 1) blocks k
        · exact h.lost k hcover
        · rw [h.found k hcover, hgone]
    · have hcover : ¬ Covers core (n + 1 + 1) blocks k := fun hcover => hrest ⟨hspent, hcover⟩
      have hout : ¬ (k ∈ block.spent ∧ (before.utxo.get? k).isSome) := fun hin => hspent hin.1
      rw [if_neg hout, h.found k hcover, ← hafter,
        get?_updateUtxo_of_notMem hnot, if_neg hspent]

/-! ## The rewind -/

/-- What was held at each height of a walk, the last one being where it stands. -/
def heldAt (trail : List (Held H × Block)) (last : Held H) (n : ℕ) : Option (Held H) :=
  (trail.map Prod.fst ++ [last])[n]?

variable {trail : List (Held H × Block)} {last : Held H}

omit [DecidableEq H] in
theorem heldAt_of_getElem? (h : trail[n]? = some (before, block)) :
    heldAt trail last n = some before := by
  have hlt := (List.getElem?_eq_some_iff.mp h).1
  unfold heldAt
  rw [List.getElem?_append_left (by rwa [List.length_map]), List.getElem?_map, h]
  rfl

omit [DecidableEq H] in
theorem heldAt_length : heldAt trail last trail.length = some last := by
  unfold heldAt
  rw [← List.length_map Prod.fst, List.getElem?_concat_length]

omit [DecidableEq H] in
theorem heldAt_concat (h : n ≤ trail.length) :
    heldAt (trail ++ [(last, block)]) after n = heldAt trail last n := by
  unfold heldAt
  rw [List.map_append, List.map_singleton, List.getElem?_append_left]
  rw [List.length_append, List.length_map, List.length_singleton]
  omega

omit [DecidableEq H] in
/-- What was held at a height is the same in a trail that is cut off above it. -/
theorem heldAt_take {m : ℕ} (hm : heldAt trail last m = some held) (h : n ≤ m) :
    heldAt (trail.take m) held n = heldAt trail last n := by
  unfold heldAt at hm ⊢
  have hlt : m < (trail.map Prod.fst ++ [last]).length := (List.getElem?_eq_some_iff.mp hm).1
  have htake : (trail.take m).map Prod.fst ++ [held] =
      (trail.map Prod.fst ++ [last]).take (m + 1) := by
    rw [List.length_append, List.length_map, List.length_singleton] at hlt
    rw [List.take_add_one, hm, List.map_take, List.take_append_of_le_length]
    · rfl
    · rw [List.length_map]
      omega
  rw [htake, List.getElem?_take_of_lt (by omega)]

/-- The record at height `n + 1` is that of the walk. -/
def RecordOk (hs : Hashing H) (core : Core) (trail : List (Held H × Block)) (last : Held H) (n : ℕ)
    (u : BlockUndo H) : Prop :=
  ∀ before block after, trail[n]? = some (before, block) →
    heldAt trail last (n + 1) = some after →
    Undoes hs core before block after (UInt32.ofNat (n + 1)) u

/-- **The loop of a rewind**, newest block first. By induction on the number of blocks; what is
    covered is gathered from the top down. -/
theorem Standing.Sound.rewind (stuck : ℕ → Bool) (h : s.Sound hs) (hdone : s.done.toNat = trail.length)
    (hrecords : ∀ i, n ≤ i → i < trail.length → ∃ u, dir.get? (i + 1) = some u ∧
      RecordOk hs core trail s.held i u) {j : ℕ} (hn : n + j = trail.length) :
    ∃ s' dir' held, (List.range' (n + 1) j).reverse.foldlM (unwind hs stuck) (s, dir) =
        some (s', dir') ∧ heldAt trail s.held n = some held ∧
      s'.Back hs core held n ((trail.drop n).map Prod.snd) ∧
      ∀ i ≤ n, dir'.get? i = dir.get? i := by
  induction j generalizing n with
  | zero =>
    rw [Nat.add_zero] at hn
    subst hn
    refine ⟨s, dir, s.held, rfl, heldAt_length, ⟨h, ?_, rfl, ?_, ?_⟩, fun _ _ => rfl⟩
    · rw [← hdone, UInt32.ofNat_toNat]
    · intro k hk
      rw [List.drop_length] at hk
      exact hk.elim
    · exact fun k _ => rfl
  | succ j ih =>
    obtain ⟨s₁, dir₁, after, hfold, hafter, hback, hdir⟩ :=
      @ih (n + 1) (fun i hi hlt => hrecords i (by omega) hlt) (by omega)
    obtain ⟨u, hu, hrecord⟩ := hrecords n (le_refl n) (by omega)
    obtain ⟨before, block, hentry⟩ : ∃ before block, trail[n]? = some (before, block) :=
      ⟨_, _, List.getElem?_eq_getElem (by omega)⟩
    have hundo := hrecord before block after hentry hafter
    have hget : dir₁.get? (n + 1) = some u := by rw [hdir (n + 1) (le_refl _), hu]
    obtain ⟨s₂, hunwind, hback₂⟩ := hback.unwind stuck hundo hget
    refine ⟨s₂, if stuck (n + 1) then dir₁ else dir₁.erase (n + 1), before, ?_,
      heldAt_of_getElem? hentry, ?_, ?_⟩
    · rw [List.range'_succ, List.reverse_cons, List.foldlM_append, hfold]
      change List.foldlM _ _ _ = _
      rw [List.foldlM_cons, hunwind]
      rfl
    · rw [List.drop_eq_getElem_cons (by omega), List.map_cons,
        (List.getElem?_eq_some_iff.mp hentry).2]
      exact hback₂
    · intro i hi
      rw [← hdir i (by omega)]
      split
      · rfl
      · rw [SortedMap.get?_erase, Function.update_of_ne (by omega)]

end

end Bridge
end Hazync
