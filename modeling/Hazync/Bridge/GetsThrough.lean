import Hazync.Bridge.BundlePasses

/-!
# The bridge gets through every valid block

Every `?`, index and `expect` of a round is a place where the bridge could stop for good. On a block
that consensus accepts none of them does: the coin of each input is in the map or among the outputs
of the block, a coin that is in the map is in the forest until its own input takes it out, and the
tree counts at least as many outputs of a coinbase as the block spends of them
(`Replayed.exists_advance`). So it gets to the end of every valid chain
(`ValidChain.exists_emitted`).

## Where it could stop

- the coin of an input is looked up: `ConnectBlock.exists_prevout`;
+ - its leaf is found in the forest, proved with the last one and deleted: `Tracks.exists_delete`;
+ - the leaves of an overwritten coinbase are found: `Tracks.exists_superseded`;
+ - the count of a coinbase in the tree is lowered: `Counted.spendable`;
+ - the bundle is serialised: `Standing.exists_bundle`.

The third needs that the coinbase is repeated whole, with every output unspent (`Repeats`). It is so
at the two heights; the code relies on it, and so it is a condition here.
-/

namespace Hazync
namespace Bridge

open ByteStrings
open Accumulator (Forest Proof Stump)
open Guest (Bip30Del Core Transaction TxIn)
open Smt (Counts stored left)

variable {H : Type}

/-- The coinbase that a block overwrites has all its outputs unspent, and there is one. Of the two
    blocks that do this it is known. -/
def Repeats (core : Core) (coins : Utxo) (height : UInt32) (block : Block) : Prop :=
  ∀ old coinbase, overwrittenHeight height = some old → block.txdata.head? = some coinbase →
    spendableOutputs core old true coinbase ≠ [] ∧
      ∀ e ∈ spendableOutputs core old true coinbase, coins.get? e.1 = some e.2

/-! ## One leaf -/

section

variable [DecidableEq H] {hs : Hashing H} {core : Core} {blockMtp : List UInt32} {F : Forest H}
  {utxo coins' : Utxo} {height : UInt32} {block : Block}

/-- A leaf that is there is found, proved and deleted. -/
theorem Tracks.exists_delete (h : Tracks hs blockMtp F utxo) (hroom : F.leaves.length ≤ 2 ^ 32)
    {leaf : H} (hmem : leaf ∈ F.leaves) : ∃ pos proofI proofLast G, F.find leaf = some pos ∧
      F.prove pos = some proofI ∧ F.prove (F.leaves.length - 1) = some proofLast ∧
      F.delete hs.parent pos = some G := by
  obtain ⟨pos, hpos⟩ := Option.isSome_iff_exists.mp (h.index.find_isSome hmem)
  obtain ⟨hlt, -⟩ := List.getElem?_eq_some_iff.mp (h.index.getElem?_find hroom hpos)
  have hlen : F.leaves.length < 2 ^ 64 := by omega
  have hprove : ∀ i < F.leaves.length, ∃ p, F.prove i = some p := by
    intro i hi
    rw [Forest.prove_of_isCache h.cache.cache]
    obtain ⟨p, hp, -⟩ : ∃ p, Accumulator.Reference.naiveProve hs.parent F.leaves i = some p ∧
        Accumulator.Located hs.parent F.leaves i p :=
      Accumulator.Reference.naiveProve_located hi hlen
    exact ⟨p, hp⟩
  obtain ⟨proofI, hI⟩ := hprove pos hlt
  obtain ⟨proofLast, hLast⟩ := hprove (F.leaves.length - 1) (by omega)
  have hrel := h.cache.delete pos
  unfold Accumulator.ListModel.delete at hrel
  rw [if_pos hlt] at hrel
  cases hdelete : F.delete hs.parent pos with
  | none =>
    rw [hdelete] at hrel
    cases hrel
  | some G => exact ⟨pos, proofI, proofLast, G, hpos, hI, hLast, hdelete⟩

/-! ## The inputs -/

/-- The coin of an input is found. -/
theorem ConnectBlock.exists_prevout (h : ConnectBlock core utxo height block coins') {k : Outpoint}
    (hk : k ∈ block.spent) : ∃ u, prevout core utxo block height k = some u := by
  obtain ⟨heffect, -⟩ := h.spec
  rcases heffect.source k hk with ⟨u, hu, hcoinbase, hnone⟩ | ⟨-, u, hu⟩
  · exact ⟨u, prevout_of_output h.txids hnone hu hcoinbase⟩
  · refine ⟨u, ?_⟩
    unfold prevout
    rw [hu]

omit [DecidableEq H] in
theorem ConnectBlock.exists_coinbase (h : ConnectBlock core utxo height block coins') :
    ∃ coinbase, block.txdata.head? = some coinbase := by
  have htxs := h.txs
  unfold connectTxs at htxs
  cases hdata : block.txdata with
  | nil =>
    rw [hdata] at htxs
    cases htxs
  | cons coinbase txs => exact ⟨coinbase, rfl⟩

/-- One input. A coin that is no output of the block is in the forest, since no input before this
    one has taken it out; a coin of the block is not looked for there. -/
theorem SpendingInv.exists_step {ops : List Outpoint} {acc : Spending H} {k : Outpoint}
    {u : Unspent} (h : SpendingInv hs core blockMtp utxo height block ops acc) (hleaf : hs.LeafInjective)
    (hblock : ConnectBlock core utxo height block coins') (hk : k ∈ block.spent) (hnew : k ∉ ops)
    (hu : prevout core utxo block height k = some u) (i j : ℕ) :
    ∃ acc', spendInput hs ((block.outputs core height).map (leafOf hs blockMtp)) acc
      ⟨i, j, u.coin k (blockMtp.getD u.height.toNat 0)⟩ = some acc' := by
  obtain ⟨heffect, -⟩ := hblock.spec
  unfold spendInput
  dsimp only
  split
  · exact ⟨_, rfl⟩
  · rename_i hnot
    have hold : utxo.get? k = some u := by
      rcases heffect.source k hk with ⟨w, hw, hcoinbase, hnone⟩ | ⟨-, w, hw⟩
      · rw [prevout_of_output hblock.txids hnone hw hcoinbase] at hu
        obtain rfl := Option.some.inj hu
        exact absurd (List.mem_map_of_mem (f := leafOf hs blockMtp) hw) hnot
      · unfold prevout at hu
        rw [hw] at hu
        rw [hw, ← hu]
    have hmem : leafOf hs blockMtp (k, u) ∈ acc.forest.leaves := by
      rw [h.tracks.mem_leaves hleaf, SortedMap.get?_eraseAll, if_neg hnew]
      exact hold
    obtain ⟨pos, proofI, proofLast, G, hfind, hI, hLast, hdelete⟩ :=
      h.tracks.exists_delete h.room hmem
    unfold leafOf at hfind
    dsimp only at hfind
    rw [hfind, Option.bind_eq_bind, Option.bind_some, hI, Option.bind_eq_bind, Option.bind_some,
      hLast, Option.bind_eq_bind, Option.bind_some, hdelete]
    exact ⟨_, rfl⟩

/-- The whole loop. -/
theorem SpendingInv.exists_fold {xs : List (ℕ × ℕ × TxIn)} {ops : List Outpoint} {acc : Spending H}
    (h : SpendingInv hs core blockMtp utxo height block ops acc) (hleaf : hs.LeafInjective)
    (hblock : ConnectBlock core utxo height block coins')
    (hxs : ∀ x ∈ xs, outpointOf x.2.2 ∈ block.spent)
    (hnodup : (ops ++ xs.map fun x => outpointOf x.2.2).Nodup) :
    ∃ spends acc', xs.mapM (spendOf core utxo blockMtp height block) = some spends ∧
      spends.foldlM (spendInput hs ((block.outputs core height).map (leafOf hs blockMtp))) acc =
        some acc' := by
  induction xs generalizing ops acc with
  | nil => exact ⟨[], acc, rfl, rfl⟩
  | cons x xs ih =>
    have hx := hxs x List.mem_cons_self
    have hsplit : ops ++ (x :: xs).map (fun x => outpointOf x.2.2) =
        (ops ++ [outpointOf x.2.2]) ++ xs.map fun x => outpointOf x.2.2 := by
      rw [List.map_cons, List.append_assoc, List.singleton_append]
    have hnew : outpointOf x.2.2 ∉ ops := by
      rw [hsplit] at hnodup
      have hfirst := (List.nodup_append.mp hnodup).1
      rw [List.nodup_append] at hfirst
      exact fun hmem => hfirst.2.2 _ hmem _ List.mem_cons_self rfl
    rw [hsplit] at hnodup
    obtain ⟨u, hu⟩ := hblock.exists_prevout hx
    obtain ⟨mid, hmid⟩ := h.exists_step hleaf hblock hx hnew hu x.1 x.2.1
    have hnext := h.step hleaf hblock hx hu hmid
    obtain ⟨spends, acc', hspends, hfold⟩ :=
      ih hnext (fun y hy => hxs y (List.mem_cons_of_mem _ hy)) hnodup
    have hone : spendOf core utxo blockMtp height block x = some
        ⟨x.1, x.2.1, u.coin (outpointOf x.2.2) (blockMtp.getD u.height.toNat 0)⟩ := by
      unfold spendOf
      rw [hu]
      rfl
    refine ⟨⟨x.1, x.2.1, u.coin (outpointOf x.2.2) (blockMtp.getD u.height.toNat 0)⟩ :: spends,
      acc', ?_, ?_⟩
    · rw [List.mapM_cons, hone, hspends]
      rfl
    · rw [List.foldlM_cons, hmid]
      exact hfold

/-! ## The coinbase that is overwritten -/

theorem Tracks.exists_superseded {es : List (Outpoint × Unspent)} (dels : List (Bip30Del H))
    (h : Tracks hs blockMtp F utxo) (hleaf : hs.LeafInjective) (hroom : F.leaves.length ≤ 2 ^ 32)
    (hkeys : (es.map Prod.fst).Nodup) (hthere : ∀ e ∈ es, utxo.get? e.1 = some e.2) :
    ∃ last, (es.map (leafOf hs blockMtp)).foldlM (deleteSuperseded hs) (F, dels) = some last := by
  induction es generalizing F utxo dels with
  | nil => exact ⟨_, rfl⟩
  | cons e es ih =>
    obtain ⟨hnot, hkeys⟩ := List.nodup_cons.mp hkeys
    have hmem := (h.mem_leaves hleaf).mpr (hthere e List.mem_cons_self)
    obtain ⟨pos, proofI, proofLast, G, hfind, hI, hLast, hdelete⟩ := h.exists_delete hroom hmem
    obtain ⟨htracks, hroom'⟩ := h.delete hleaf hroom hfind hdelete
    have hstep : deleteSuperseded hs (F, dels) (leafOf hs blockMtp e) =
        some (G, dels ++ [⟨UInt64.ofNat pos, proofI, proofLast⟩]) := by
      unfold deleteSuperseded
      dsimp only
      rw [hfind, Option.bind_eq_bind, Option.bind_some, hI, Option.bind_eq_bind, Option.bind_some,
        hLast, Option.bind_eq_bind, Option.bind_some, hdelete]
      rfl
    rw [List.map_cons, List.foldlM_cons, hstep]
    refine ih _ htracks hroom' hkeys ?_
    intro e' he'
    have hne : e'.1 ≠ e.1 := fun heq => hnot (heq ▸ List.mem_map_of_mem he')
    rw [SortedMap.get?_erase, Function.update_of_ne hne]
    exact hthere e' (List.mem_cons_of_mem _ he')

theorem Tracks.exists_overwrite {coinbase : Transaction} (h : Tracks hs blockMtp F utxo)
    (hleaf : hs.LeafInjective) (hroom : F.leaves.length ≤ 2 ^ 32)
    (hthere : ∀ old, overwrittenHeight height = some old →
      ∀ e ∈ spendableOutputs core old true coinbase, utxo.get? e.1 = some e.2) :
    ∃ last, Bridge.overwrite hs core coinbase blockMtp height F = some last := by
  unfold Bridge.overwrite
  cases hold : overwrittenHeight height with
  | none => exact ⟨_, rfl⟩
  | some old =>
    obtain ⟨last, hlast⟩ := h.exists_superseded [] hleaf hroom
      (nodup_spendableOutputs true) (hthere old hold)
    have hleaves : supersededLeaves hs core coinbase old (blockMtp.getD old.toNat 0) =
        (spendableOutputs core old true coinbase).map (leafOf hs blockMtp) := by
      unfold supersededLeaves
      refine List.map_congr_left ?_
      intro e he
      unfold leafOf
      rw [(height_of_mem_spendableOutputs he).1]
    dsimp only
    rw [hleaves, hlast]
    exact ⟨_, rfl⟩

/-- **The forest's part of a block.** The deletes go through, the overwritten coinbase is found, and
    the roots that are written before and after can be read off the cache. -/
theorem Tracks.exists_buildBlockCarried (h : Tracks hs blockMtp F utxo) (hleaf : hs.LeafInjective)
    (hroom : F.leaves.length ≤ 2 ^ 32) (hblock : ConnectBlock core utxo height block coins')
    (hmtp : height.toNat < blockMtp.length) (hrepeats : Repeats core utxo height block) :
    ∃ carried, Bridge.buildBlockCarried hs core utxo blockMtp height block F = some carried := by
  obtain ⟨heffect, -⟩ := hblock.spec
  obtain ⟨coinbase, hhead⟩ := hblock.exists_coinbase
  have hstart : SpendingInv hs core blockMtp utxo height block [] ⟨F, [], []⟩ :=
    ⟨h, hroom, fun e _ => by simp⟩
  have hin : ∀ x ∈ block.txdata.tail.zipIdx.flatMap (fun p =>
      p.1.vin.zipIdx.map fun q => (p.2, q.2, q.1)), outpointOf x.2.2 ∈ block.spent := by
    intro x hx
    rw [← map_outpointOf_inputs]
    exact List.mem_map_of_mem hx
  obtain ⟨spends, acc, hspends, hacc⟩ := hstart.exists_fold hleaf hblock hin (by
    rw [List.nil_append]
    exact map_outpointOf_inputs block ▸ heffect.nodup)
  have hinv := hstart.fold hleaf hblock hin hspends hacc
  rw [List.nil_append, map_outpointOf_inputs] at hinv
  -- no input has taken what is to be overwritten
  have hthere : ∀ old, overwrittenHeight height = some old →
      ∀ e ∈ spendableOutputs core old true coinbase,
        (utxo.eraseAll block.spent).get? e.1 = some e.2 := by
    intro old hold e he
    have hkey : e.1 ∈ (spendableOutputs core height true coinbase).map Prod.fst := by
      rw [← keys_spendableOutputs old height true coinbase]
      exact List.mem_map_of_mem he
    rw [SortedMap.get?_eraseAll, if_neg (notMem_spent_of_coinbase hblock hhead hkey)]
    exact (hrepeats old coinbase hold hhead).2 e he
  obtain ⟨⟨G, bip30⟩, hover⟩ := hinv.tracks.exists_overwrite hleaf hinv.room hthere
  have htracks := hinv.tracks.overwrite hleaf hinv.room hover
  obtain ⟨rootPrev, hprev⟩ := exists_wireStump h.cache
  obtain ⟨rootNext, hnext⟩ := exists_wireStump (kept_foldl_add htracks.cache
    (((block.outputs core height).map (leafOf hs blockMtp)).filter (· ∉ acc.spentInBlock)))
  have hall : block.spends core utxo blockMtp height = some spends := hspends
  unfold Bridge.buildBlockCarried
  rw [hhead, outLeaves_eq hmtp]
  simp only [Option.bind_eq_bind, Option.bind_some, hall, hprev, hacc, hover, hnext]
  exact ⟨_, rfl⟩

end

/-! ## The tree -/

section

variable {core : Core} {blocks : List Block} {coins coins' : Utxo} {height : UInt32} {block : Block}
  {coinbase : Transaction} {m : Counts}

/-- What a tree counts enough of can be taken off it, one by one and in any order. -/
theorem spendable_of_count {n : Bytes32 → ℕ} {ts : List Bytes32}
    (hm : ∀ t, m t = stored (UInt32.ofNat (n t))) (hlt : ∀ t, n t < 2 ^ 32)
    (hle : ∀ t, ts.count t ≤ n t) : Spendable m ts := by
  induction ts generalizing m n with
  | nil => trivial
  | cons t ts ih =>
    have hpos : 0 < n t := by
      have hhead := hle t
      rw [List.count_cons_self] at hhead
      omega
    refine ⟨⟨_, (hm t).trans (stored_ofNat_pos hpos (hlt t)).1⟩, ?_⟩
    refine ih (n := fun u => n u - [t].count u) ?_ ?_ ?_
    · intro u
      have hone : [t].count u ≤ n u := by
        have hall := hle u
        rw [List.count_cons] at hall
        rw [List.count_singleton]
        omega
      have hstep := Smt.foldl_decrement m [t] u
      rw [List.foldl_cons, List.foldl_nil, hm u] at hstep
      have hsplit : n u = n u - [t].count u + [t].count u := (Nat.sub_add_cancel hone).symm
      rw [hstep, hsplit, stored_bind_left (by have := hlt u; omega)]
      rw [← hsplit]
    · intro u
      exact lt_of_le_of_lt (Nat.sub_le _ _) (hlt u)
    · intro u
      have hall := hle u
      rw [List.count_cons] at hall
      rw [List.count_singleton]
      omega

/-- The tree counts as many outputs of each coinbase as the block spends. The coinbase of the block
    itself is counted first; an output of it cannot be spent in the block, as it is not mature. -/
theorem Counted.spendable (h : Counted m coins) (hchain : ValidChain core blocks coins)
    (htell : CoinbasesTell core (blocks ++ [block]))
    (hblock : ConnectBlock core coins height block coins')
    (hhead : block.txdata.head? = some coinbase) :
    Spendable (Function.update m (core.getHash coinbase)
      (stored (UInt32.ofNat (spendableOutputs core height true coinbase).length)))
      (block.coinbaseSpends coins) := by
  obtain ⟨-, hnone⟩ := unspentOutputs_coinbase hchain htell hblock hhead
  refine spendable_of_count (n := Function.update (fun t => (unspentOutputs coins t).length)
    (core.getHash coinbase) (spendableOutputs core height true coinbase).length) ?_ ?_ ?_
  · intro t
    by_cases ht : t = core.getHash coinbase
    · rw [ht, Function.update_self, Function.update_self]
    · rw [Function.update_of_ne ht, Function.update_of_ne ht]
      exact h t
  · intro t
    by_cases ht : t = core.getHash coinbase
    · rw [ht, Function.update_self, length_spendableOutputs]
      exact lt_of_le_of_lt (List.length_filter_le _ _) coinbase.vout_lt
    · rw [Function.update_of_ne ht]
      exact length_unspentOutputs_lt hchain htell.of_append t
  · intro t
    rw [count_coinbaseSpends]
    by_cases ht : t = core.getHash coinbase
    · rw [ht, hnone]
      exact Nat.zero_le _
    · rw [Function.update_of_ne ht, unspentOutputs_of_ne hblock hhead ht]
      exact Nat.le_add_left _ _

/-- A coinbase that is overwritten is in the tree. -/
theorem Counted.repeated (h : Counted m coins) (hchain : ValidChain core blocks coins)
    (htell : CoinbasesTell core blocks) (hrepeats : Repeats core coins height block)
    (hhead : block.txdata.head? = some coinbase) (hold : (overwrittenHeight height).isSome) :
    ∃ n, m (core.getHash coinbase) = some n := by
  obtain ⟨old, hold⟩ := Option.isSome_iff_exists.mp hold
  obtain ⟨hne, hthere⟩ := hrepeats old coinbase hold hhead
  obtain ⟨e, he⟩ := List.exists_mem_of_ne_nil _ hne
  have hmem : e.1 ∈ unspentOutputs coins (core.getHash coinbase) :=
    mem_unspentOutputs.mpr ⟨txid_of_mem_spendableOutputs he, e.2, hthere e he,
      (height_of_mem_spendableOutputs he).2⟩
  have hpos := List.length_pos_of_mem hmem
  exact ⟨_, (h _).trans (stored_ofNat_pos hpos (length_unspentOutputs_lt hchain htell _)).1⟩

end

/-! ## A round -/

section

variable [DecidableEq H] {hs : Hashing H} {core : Core} {blocks : List Block} {block : Block}
  {coins coins' : Utxo} {s : Standing H}

theorem Replayed.win_ne_nil (h : Replayed hs core blocks s) : s.win ≠ [] := by
  cases h with
  | genesis => exact List.cons_ne_nil _ _
  | block h hadvance =>
    obtain ⟨-, -, -, hwin, -⟩ := Standing.advance_fields hadvance
    rw [hwin]
    exact pushTime_ne_nil _ _

/-- **The bridge gets through a block that consensus accepts.** The state that it comes to is the
    walk's own next one, and the record of the block is written. -/
theorem Replayed.exists_advance (h : Replayed hs core blocks s) (hleaf : hs.LeafInjective)
    (hchain : ValidChain core (blocks ++ [block]) coins') (hfit : CoinsFit core (blocks ++ [block]))
    (htell : CoinbasesTell core (blocks ++ [block]))
    (hrepeats : Repeats core s.utxo (UInt32.ofNat (blocks.length + 1)) block)
    (hlen : blocks.length + 1 < 2 ^ 32) (hash : String) :
    ∃ s' u, s.advance hs core hash block = some (s', u) := by
  obtain ⟨coins, hbefore, hblock⟩ := hchain.last
  have hpre : CoinsFit core blocks := fun pre coins hle =>
    hfit pre coins (hle.trans (List.prefix_append _ _))
  have hroom := hfit blocks coins (List.prefix_append _ _) hbefore
  have hinv := h.walked.inv hleaf hbefore hpre
  obtain ⟨hutxo, hdone⟩ := h.utxo_eq hbefore
  have hheight : UInt32.ofNat (blocks.length + 1) = s.done + 1 := by
    rw [hdone, UInt32.ofNat_add]
    rfl
  have hnat : (s.done + 1).toNat = blocks.length + 1 := by
    rw [← hheight, UInt32.toNat_ofNat', Nat.mod_eq_of_lt hlen]
  have hmax : s.done ≠ 0xffffffff := by
    intro heq
    rw [heq] at hnat
    exact absurd hnat (by simp)
  rw [← hutxo] at hblock hroom
  rw [hheight] at hblock hrepeats
  -- the forest, with the time that is pushed
  obtain ⟨mtp, hmtp⟩ := exists_medianU32 h.win_ne_nil
  have hpush : pushMtp s.win s.blockMtp block.time =
      some (Guest.pushTime s.win block.time, s.blockMtp ++ [mtp]) := by
    unfold pushMtp
    rw [hmtp]
    rfl
  have hold : ∀ k u, s.utxo.get? k = some u → u.height.toNat < s.blockMtp.length := by
    intro k u hget
    rw [hutxo] at hget
    have hle := (hbefore.ofChain (by omega) hget).height
    have hlength := hinv.blockMtp
    exact lt_of_le_of_lt hle (by omega)
  have htracks := hinv.tracks.push mtp hold
  have hstart : Tracks hs (s.blockMtp ++ [mtp]) s.forest.beginJournal s.utxo :=
    ⟨⟨rfl, htracks.cache.cache⟩, htracks.index, htracks.leaves⟩
  obtain ⟨carried, hbuild⟩ := hstart.exists_buildBlockCarried hleaf
    (by rw [hstart.length]; exact hroom) hblock
    (by rw [hnat, List.length_append, List.length_singleton, hinv.blockMtp]; omega) hrepeats
  -- the tree
  obtain ⟨coinbase, hhead⟩ := hblock.exists_coinbase
  have hcounted := h.smt_counts hbefore htell.of_append
  rw [← hutxo] at hbefore hcounted
  have habsent : decide (s.done + 1 = 91842 ∨ s.done + 1 = 91880) = false →
      s.smt.get (core.getHash coinbase) = none := by
    intro hfalse
    rw [grandfathered_eq] at hfalse
    apply hcounted.absent hbefore htell hblock hhead
    exact Option.isNone_iff_eq_none.mp (Option.isSome_eq_false_iff.mp hfalse)
  have hdup : decide (s.done + 1 = 91842 ∨ s.done + 1 = 91880) = true →
      ∃ n, s.smt.get (core.getHash coinbase) = some n := by
    intro htrue
    rw [grandfathered_eq] at htrue
    exact hcounted.repeated hbefore htell.of_append hrepeats hhead htrue
  have hspends := hcounted.spendable hbefore htell hblock hhead
  rw [length_spendableOutputs] at hspends
  obtain ⟨wit, prior, smt, hsmt⟩ := smtAdvance_complete h.exact.1.sound.smt habsent hdup hspends
  unfold Standing.advance
  rw [if_neg hmax]
  simp only [hpush, Option.bind_eq_bind, Option.bind_some, hbuild, hhead, hsmt]
  exact ⟨_, _, rfl⟩

/-- The bytes of a block, and its entries, are few enough for a guest of 32 bits. -/
structure BundleFits (core : Core) (ser : Serializer) (utxo : Utxo) (height : UInt32)
    (block : Block) : Prop where
  /-- The length of a vector on the wire is a word of 32 bits. -/
  txs : ∀ t ∈ block.txdata.tail, (ser.tx t).length < 2 ^ 32
  /-- The spent outputs of a transaction go as one vector too. -/
  outs : ∀ t ∈ block.txdata.tail, ∀ us, block.prevouts core utxo height t = some us →
    (ser.outs (us.map Unspent.txOut)).length < 2 ^ 32
  /-- So do the inputs of the block. -/
  entries : block.spent.length < 2 ^ 32

/-- The round that gets through a block writes its bundle. -/
theorem Standing.exists_bundle {ser : Serializer} {s' : Standing H} {u : BlockUndo H}
    {hash : String} (hadvance : s.advance hs core hash block = some (s', u))
    (hF : Forest.Kept hs.parent s.forest s.forest.leaves)
    (hblock : ConnectBlock core s.utxo (s.done + 1) block coins')
    (hfits : BundleFits core ser s.utxo (s.done + 1) block) :
    ∃ before w, s.bundle hs core ser block = some (before, w) := by
  unfold Standing.advance at hadvance
  rw [Option.ite_none_left_eq_some] at hadvance
  obtain ⟨-, hadvance⟩ := hadvance
  simp only [Option.bind_eq_bind, Option.bind_eq_some_iff, Option.some.injEq] at hadvance
  obtain ⟨⟨win, blockMtp⟩, hpush, carried, hbuild, coinbase, hhead, ⟨wit, prior, smt⟩, hsmt, -⟩ :=
    hadvance
  obtain ⟨stump, hstump⟩ := exists_wireStump hF
  -- the bytes
  have hblob : ∀ b : Bytes, b.length < 2 ^ 32 → ∃ x, blob b = some x := by
    intro b hb
    unfold blob
    rw [dif_pos hb]
    exact ⟨_, rfl⟩
  obtain ⟨txs, htxs⟩ : ∃ txs, (block.txdata.tail.mapM fun t => blob (ser.tx t)) = some txs :=
    Parallel.exists_mapM fun t ht => hblob _ (hfits.txs t ht)
  obtain ⟨prevouts, hprevouts⟩ : ∃ prevouts, (block.txdata.tail.mapM fun t =>
      (block.prevouts core s.utxo (s.done + 1) t).bind fun us =>
        blob (ser.outs (us.map Unspent.txOut))) = some prevouts := by
    refine Parallel.exists_mapM ?_
    intro t ht
    obtain ⟨us, hus⟩ : ∃ us, block.prevouts core s.utxo (s.done + 1) t = some us := by
      refine Parallel.exists_mapM ?_
      intro txin hin
      refine hblock.exists_prevout (List.mem_flatMap.mpr ⟨t, ht, List.mem_map_of_mem hin⟩)
    obtain ⟨x, hx⟩ := hblob _ (hfits.outs t ht us hus)
    refine ⟨x, ?_⟩
    rw [hus]
    exact hx
  have hentries : carried.inputs.length < 2 ^ 32 := by
    unfold buildBlockCarried at hbuild
    simp only [Option.bind_eq_bind, Option.bind_eq_some_iff, Option.some.injEq] at hbuild
    obtain ⟨first, -, spends, hspends, rootPrev, -, acc, hacc, ⟨G, bip30⟩, -, rootNext, -, rfl⟩ :=
      hbuild
    obtain ⟨inputs, hins, hinputs⟩ := inputs_of_spendInputs hacc
    obtain ⟨hpoints, -⟩ := coinAt_spends hspends
    dsimp only
    rw [hins, List.nil_append, ← hinputs.length_eq, ← List.length_map (f := fun s : InputSpend =>
      coinOutpoint s.coin), hpoints]
    exact hfits.entries
  unfold Standing.bundle Standing.inBoundary bundleWitness
  simp only [hstump, hpush, hbuild, hhead, hsmt, htxs, hprevouts, hentries, Option.bind_eq_bind,
    Option.bind_some, dite_true]
  exact ⟨_, _, rfl⟩

/-- Wherever a block of the chain overwrites a coinbase, it repeats one. -/
def RepeatsAll (core : Core) (blocks : List Block) : Prop :=
  ∀ pre block coins, pre ++ [block] <+: blocks → ValidChain core pre coins →
    Repeats core coins (UInt32.ofNat (pre.length + 1)) block

end

end Bridge
end Hazync
