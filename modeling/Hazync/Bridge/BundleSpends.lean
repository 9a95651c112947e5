import Hazync.Bridge.Bundle
import Hazync.Guest.Lockstep

/-!
# The bridge's proofs pass in the guest's accumulator

The bridge makes every proof from its forest as it stands at that moment, and the guest has deleted
the same leaves by then. So no delete is refused (`Findable.delete_accepted`), from the first input
of the block to the last leaf of an overwritten coinbase. A coin of the block itself is not in the
accumulator; the guest then asks for a transaction before the spending one, and consensus has seen
to that (`ConnectBlock.earlier`).

## The one thing that could go wrong

A proof is right for one state of the accumulator only. The bridge makes the proof of an input after
it has deleted the inputs before it, and the guest checks it after it has done the same; so the two
must delete the same leaves in the same order, and skip the same ones. What is skipped are the coins
of the block itself, which were never added. The bridge knows them by their leaves, in a set; the
guest knows them by the leaves of the outputs it has hashed so far, with the transaction that made
each. `placed_of_spends` says that the two agree, which is where the order of the transactions comes
in.
-/

namespace Hazync
namespace Bridge

open ByteStrings Ledger SwapRemove
open Accumulator (Forest Located Proof Stump)
open Guest (Bip30Del BlockInput BlockWitness Coin Core SpendItem Spends SpendsAll Transaction TxIn
  TxView createdAt createdCoins outputLeaves)

variable {H : Type}

/-! ## One delete -/

section

variable [DecidableEq H] {parent : H → H → H} {F G : Forest H} {leaf : H} {pos : ℕ}
  {proofI proofLast : Proof H} {stump : Stump H}

omit [DecidableEq H] in
/-- What a well kept forest proves is where it is said to be. -/
theorem located_of_prove (hF : Forest.Kept parent F F.leaves) {i : ℕ} (hi : i < F.leaves.length)
    (hlen : F.leaves.length < 2 ^ 64) (h : F.prove i = some proofI) :
    Located parent F.leaves i proofI := by
  obtain ⟨p, hp, hlocated⟩ := Accumulator.Reference.naiveProve_located hi hlen
  rw [Forest.prove_of_isCache hF.cache, hp] at h
  rwa [← Option.some.inj h]

/-- **A delete that the bridge makes is one that the guest accepts**, and both come out at the same
    leaves. The guest's hardened `delete` asks for more than the library's, and a proof off a well
    kept cache has all of it. -/
theorem Findable.delete_accepted (h : Findable parent F) (hcommits : stump.Commits parent F.leaves)
    (hfind : F.find leaf = some pos) (hI : F.prove pos = some proofI)
    (hLast : F.prove (F.leaves.length - 1) = some proofLast)
    (hdelete : F.delete parent pos = some G) :
    proofI.leaf = leaf ∧ ∃ stump', Guest.Stump.delete parent stump (UInt64.ofNat pos) proofI
      proofLast = some (true, stump') ∧ stump'.Commits parent G.leaves := by
  have hget := h.index.getElem?_find h.room hfind
  obtain ⟨hpos, -⟩ := List.getElem?_eq_some_iff.mp hget
  have hlen : F.leaves.length < 2 ^ 64 := by
    have hroom := h.room
    omega
  have hword : (UInt64.ofNat pos).toNat = pos := by
    rw [UInt64.toNat_ofNat', Nat.mod_eq_of_lt (hpos.trans hlen)]
  have hfirst := located_of_prove h.cache hpos hlen hI
  have hlast := located_of_prove h.cache (i := F.leaves.length - 1) (by omega) hlen hLast
  refine ⟨Option.some.inj (hfirst.leaf.symm.trans hget), ?_⟩
  rw [← hword] at hfirst
  obtain ⟨stump', hstump, hstays⟩ :=
    Guest.Stump.delete_of_located hcommits hfirst fun _ => hlast
  refine ⟨stump', hstump, ?_⟩
  have hrel := h.cache.delete pos
  unfold Accumulator.ListModel.delete at hrel
  rw [hdelete, if_pos hpos] at hrel
  cases hrel with
  | some hkept =>
    rw [hkept.leaves]
    rwa [hword] at hstays

end

/-! ## The inputs -/

section

variable [DecidableEq H] {hs : Hashing H} {core : Core} {created : List H}
  {createdAt : List (H × UInt32)} {spends : List InputSpend} {acc acc' : Spending H}
  {stump : Stump H}

/-- What the guest asks of the coin of an input: one of the block is of an earlier transaction, and
    any other is not known as one of the block. -/
def InputSpend.Placed (hs : Hashing H) (created : List H) (createdAt : List (H × UInt32))
    (s : InputSpend) : Prop :=
  if s.coin.leaf hs ∈ created then
    ∃ creator, createdAt.lookup (s.coin.leaf hs) = some creator ∧
      creator < UInt32.ofNat (s.txIdx + 1)
  else createdAt.lookup (s.coin.leaf hs) = none

/-- One input. -/
theorem spendInput_accepted {s : InputSpend} (h : Findable hs.parent acc.forest)
    (hcommits : stump.Commits hs.parent acc.forest.leaves) (hplaced : s.Placed hs created createdAt)
    (hfresh : s.coin.leaf hs ∉ acc.spentInBlock) (hstep : spendInput hs created acc s = some acc') :
    ∃ inp stump', acc'.inputs = acc.inputs ++ [inp] ∧ InputFor s inp ∧
      Findable hs.parent acc'.forest ∧ stump'.Commits hs.parent acc'.forest.leaves ∧
      Spends hs createdAt (stump, acc.spentInBlock) (spendItem (s, inp))
        (stump', acc'.spentInBlock) ∧ (spendItem (s, inp)).ProofOf hs createdAt := by
  unfold InputSpend.Placed at hplaced
  unfold spendInput at hstep
  dsimp only at hstep
  by_cases hmem : s.coin.leaf hs ∈ created
  · -- a coin of the block itself
    rw [if_pos hmem] at hplaced hstep
    obtain ⟨creator, hlookup, hlt⟩ := hplaced
    obtain rfl := Option.some.inj hstep
    refine ⟨_, stump, rfl, ⟨rfl, rfl, rfl, rfl, rfl, rfl⟩, h, hcommits, ?_, ?_⟩
    · exact .inBlock hlookup hlt hfresh
    · intro hnone
      have hsome : createdAt.lookup (s.coin.leaf hs) = none := hnone
      rw [hlookup] at hsome
      cases hsome
  · rw [if_neg hmem] at hplaced hstep
    simp only [Option.bind_eq_bind, Option.bind_eq_some_iff, Option.some.injEq] at hstep
    obtain ⟨pos, hfind, proofI, hI, proofLast, hLast, G, hdelete, rfl⟩ := hstep
    obtain ⟨hproof, stump', haccepted, hcommits'⟩ :=
      h.delete_accepted hcommits hfind hI hLast hdelete
    refine ⟨_, stump', rfl, ⟨rfl, rfl, rfl, rfl, rfl, rfl⟩, (h.delete hfind hdelete).findable,
      hcommits', ?_, fun _ => hproof⟩
    refine .external hplaced ?_
    have hsame : ({ proofI with leaf := s.coin.leaf hs } : Proof H) = proofI := by rw [← hproof]
    exact (congrArg (fun p => Guest.Stump.delete hs.parent stump (UInt64.ofNat pos) p proofLast)
      hsame).trans haccepted

/-- The entries are made in the order of the inputs. -/
theorem inputs_of_spendInputs (hfold : spends.foldlM (spendInput hs created) acc = some acc') :
    ∃ inputs, acc'.inputs = acc.inputs ++ inputs ∧ List.Forall₂ InputFor spends inputs := by
  induction spends generalizing acc with
  | nil =>
    obtain rfl := Option.some.inj hfold
    exact ⟨[], (List.append_nil _).symm, .nil⟩
  | cons s spends ih =>
    rw [List.foldlM_cons] at hfold
    obtain ⟨mid, hstep, hfold⟩ := Option.bind_eq_some_iff.mp hfold
    obtain ⟨inputs, hins, hfors⟩ := ih hfold
    have hone : ∃ inp, mid.inputs = acc.inputs ++ [inp] ∧ InputFor s inp := by
      unfold spendInput at hstep
      dsimp only at hstep
      split at hstep
      · obtain rfl := Option.some.inj hstep
        exact ⟨_, rfl, rfl, rfl, rfl, rfl, rfl, rfl⟩
      · simp only [Option.bind_eq_bind, Option.bind_eq_some_iff, Option.some.injEq] at hstep
        obtain ⟨pos, -, proofI, -, proofLast, -, G, -, rfl⟩ := hstep
        exact ⟨_, rfl, rfl, rfl, rfl, rfl, rfl, rfl⟩
    obtain ⟨inp, hin, hfor⟩ := hone
    refine ⟨inp :: inputs, ?_, .cons hfor hfors⟩
    rw [hins, hin, List.append_assoc, List.singleton_append]

theorem snd_of_spends {a b : Stump H × List H} {i : SpendItem H} (h : Spends hs createdAt a i b) :
    b.2 = a.2 ∨ b.2 = i.coin.leaf hs :: a.2 := by
  cases h with
  | inBlock => exact .inr rfl
  | external => exact .inl rfl

/-- **All inputs**: the entries that the bridge makes are spent by the guest one after the other. No
    coin is spent twice, so a leaf that is deleted once is not asked for again. -/
theorem spendInputs_accepted (acc : Spending H) (h : Findable hs.parent acc.forest)
    (hcommits : stump.Commits hs.parent acc.forest.leaves)
    (hplaced : ∀ s ∈ spends, s.Placed hs created createdAt)
    (hnodup : (spends.map fun s => s.coin.leaf hs).Nodup)
    (hfresh : ∀ s ∈ spends, s.coin.leaf hs ∉ acc.spentInBlock)
    (hfold : spends.foldlM (spendInput hs created) acc = some acc') :
    ∃ inputs stump', acc'.inputs = acc.inputs ++ inputs ∧ List.Forall₂ InputFor spends inputs ∧
      Findable hs.parent acc'.forest ∧ stump'.Commits hs.parent acc'.forest.leaves ∧
      SpendsAll hs createdAt (stump, acc.spentInBlock) ((spends.zip inputs).map spendItem)
        (stump', acc'.spentInBlock) ∧
      ∀ i ∈ (spends.zip inputs).map spendItem, i.ProofOf hs createdAt := by
  induction spends generalizing acc stump with
  | nil =>
    obtain rfl := Option.some.inj hfold
    exact ⟨[], stump, (List.append_nil _).symm, .nil, h, hcommits, .nil,
      fun i hi => absurd hi List.not_mem_nil⟩
  | cons s spends ih =>
    rw [List.foldlM_cons] at hfold
    obtain ⟨mid, hstep, hfold⟩ := Option.bind_eq_some_iff.mp hfold
    obtain ⟨hnot, hnodup⟩ := List.nodup_cons.mp hnodup
    obtain ⟨inp, stump₁, hin, hfor, hF, hcommits₁, hspend, hproof⟩ := spendInput_accepted h hcommits
      (hplaced s List.mem_cons_self) (hfresh s List.mem_cons_self) hstep
    -- a coin that comes later is none of those spent so far
    have hfresh' : ∀ t ∈ spends, t.coin.leaf hs ∉ mid.spentInBlock := by
      intro t ht hmem
      have hspent : mid.spentInBlock = acc.spentInBlock ∨
          mid.spentInBlock = s.coin.leaf hs :: acc.spentInBlock := snd_of_spends hspend
      have hold := hfresh t (List.mem_cons_of_mem _ ht)
      rcases hspent with heq | heq
      · exact hold (heq ▸ hmem)
      · rw [heq] at hmem
        rcases List.mem_cons.mp hmem with hsame | hmem
        · exact hnot (List.mem_map.mpr ⟨t, ht, hsame⟩)
        · exact hold hmem
    obtain ⟨inputs, stump₂, hins, hfors, hF', hcommits₂, hspends, hproofs⟩ := ih mid hF hcommits₁
      (fun t ht => hplaced t (List.mem_cons_of_mem _ ht)) hnodup hfresh' hfold
    refine ⟨inp :: inputs, stump₂, ?_, .cons hfor hfors, hF', hcommits₂, .cons hspend hspends, ?_⟩
    · rw [hins, hin, List.append_assoc, List.singleton_append]
    · intro i hi
      rcases List.mem_cons.mp hi with rfl | hi
      · exact hproof
      · exact hproofs i hi

end

/-! ## The overwritten coinbase -/

section

variable [DecidableEq H] {hs : Hashing H} {core : Core} {w : BlockWitness H} {F G : Forest H}
  {stump : Stump H} {coinbase : Transaction} {blockMtp : List UInt32} {height : UInt32}

/-- The deletes of an overwritten coinbase, one after the other. -/
theorem deleteSuperseded_accepted {ls : List H} {acc acc' : Forest H × List (Bip30Del H)}
    (h : Findable hs.parent acc.1) (hcommits : stump.Commits hs.parent acc.1.leaves)
    (hfold : ls.foldlM (deleteSuperseded hs) acc = some acc') :
    ∃ dels stump', acc'.2 = acc.2 ++ dels ∧ dels.length = ls.length ∧
      (ls.zip dels).foldlM (Guest.deleteSuperseded hs) (stump, true) = some (stump', true) ∧
      stump'.Commits hs.parent acc'.1.leaves := by
  induction ls generalizing acc stump with
  | nil =>
    obtain rfl := Option.some.inj hfold
    exact ⟨[], stump, (List.append_nil _).symm, rfl, rfl, hcommits⟩
  | cons l ls ih =>
    rw [List.foldlM_cons] at hfold
    obtain ⟨mid, hstep, hfold⟩ := Option.bind_eq_some_iff.mp hfold
    unfold deleteSuperseded at hstep
    simp only [Option.bind_eq_bind, Option.bind_eq_some_iff, Option.some.injEq] at hstep
    obtain ⟨pos, hfind, proofI, hI, proofLast, hLast, K, hdelete, rfl⟩ := hstep
    obtain ⟨hproof, stump₁, haccepted, hcommits₁⟩ :=
      h.delete_accepted hcommits hfind hI hLast hdelete
    obtain ⟨dels, stump₂, hdels, hlength, hrest, hcommits₂⟩ :=
      ih (h.delete hfind hdelete).findable hcommits₁ hfold
    have hsame : ({ proofI with leaf := l } : Proof H) = proofI := by rw [← hproof]
    have hfirst : Guest.deleteSuperseded hs (stump, true)
        (l, ⟨UInt64.ofNat pos, proofI, proofLast⟩) = some (stump₁, true) := by
      unfold Guest.deleteSuperseded
      dsimp only
      rw [hsame, haccepted]
      rfl
    refine ⟨⟨UInt64.ofNat pos, proofI, proofLast⟩ :: dels, stump₂, ?_, ?_, ?_, hcommits₂⟩
    · rw [hdels, List.append_assoc, List.singleton_append]
    · rw [List.length_cons, List.length_cons, hlength]
    · rw [List.zip_cons_cons, List.foldlM_cons, hfirst]
      exact hrest

/-- **The guest takes out what the bridge takes out**, where it knows the block. At every other
    height both take nothing. -/
theorem overwrite_accepted {bip30 : Option (Guest.Bip30Overwrite H)}
    (h : Findable hs.parent F) (hcommits : stump.Commits hs.parent F.leaves)
    (hscripts : KnowsSpendable core) (hcb : core.unserializeTx w.coinbaseTx = some coinbase)
    (hover : overwrite hs core coinbase blockMtp height F = some (G, bip30))
    (hbip30 : w.bip30 = bip30) (hknown : w.isBip30Block hs = (overwrittenHeight height).isSome) :
    ∃ stump', Guest.bip30Overwrite hs core w stump = some (stump', true) ∧
      stump'.Commits hs.parent G.leaves := by
  unfold overwrite at hover
  unfold Guest.bip30Overwrite
  cases hold : overwrittenHeight height with
  | none =>
    rw [hold] at hover hknown
    obtain ⟨rfl, rfl⟩ := Prod.mk.inj (Option.some.inj hover)
    rw [hbip30, hknown]
    exact ⟨stump, rfl, hcommits⟩
  | some old =>
    rw [hold] at hover hknown
    simp only [Option.bind_eq_bind, Option.bind_eq_some_iff] at hover
    obtain ⟨⟨K, dels⟩, hfold, heq⟩ := hover
    obtain ⟨rfl, rfl⟩ := Prod.mk.inj (Option.some.inj heq)
    have hstart : Findable hs.parent (F, ([] : List (Bip30Del H))).1 := h
    obtain ⟨dels', stump', hdels, hlength, haccepted, hcommits'⟩ :=
      deleteSuperseded_accepted hstart hcommits hfold
    obtain rfl : dels = dels' := hdels
    have hleaves : (createdCoins core coinbase old 1 (blockMtp.getD old.toNat 0)).map
        (Coin.leaf hs) = supersededLeaves hs core coinbase old (blockMtp.getD old.toNat 0) := by
      rw [createdCoins_eq hscripts, List.map_map]
      rfl
    refine ⟨stump', ?_, hcommits'⟩
    have hout : Guest.txOutLeaves hs core w.coinbaseTx old 1 (blockMtp.getD old.toNat 0) =
        some (supersededLeaves hs core coinbase old (blockMtp.getD old.toNat 0),
          core.getHash coinbase) := by
      unfold Guest.txOutLeaves
      rw [hcb, ← hleaves]
      rfl
    rw [hbip30, hknown]
    simp only [Option.isSome_some, hout, Option.bind_eq_bind, Option.bind_some]
    rw [hlength, decide_eq_true (Eq.refl _)]
    exact haccepted

end

/-! ## Where the coins of the block come from -/

section

variable {hs : Hashing H} {core : Core} {height mtp : UInt32} {block : Block} {coins coins' : Utxo}
  {blockMtp : List UInt32} {w : BlockWitness H} {coinbase t : Transaction}
  {pre post : List Transaction} {views : List (TxView H)} {k : Outpoint}

/-- An input whose coin was not there before the block takes an output of an earlier transaction:
    consensus has connected the transactions in their order. -/
theorem ConnectBlock.earlier (h : ConnectBlock core coins height block coins')
    (hblock : block.txdata = coinbase :: (pre ++ t :: post)) (hk : k ∈ t.vin.map outpointOf)
    (hnone : coins.get? k = none) :
    k ∈ (spendableOutputs core height true coinbase ++
      pre.flatMap (spendableOutputs core height false)).map Prod.fst := by
  obtain ⟨heffect, -⟩ := h.spec
  have htxs := h.txs
  unfold connectTxs at htxs
  rw [hblock] at htxs
  dsimp only at htxs
  rw [List.foldlM_append] at htxs
  obtain ⟨mid, hpre, hrest⟩ := Option.bind_eq_some_iff.mp htxs
  rw [List.foldlM_cons] at hrest
  obtain ⟨next, hnext, -⟩ := Option.bind_eq_some_iff.mp hrest
  obtain ⟨spent, hspent, -⟩ := connectTx_eq_some.mp hnext
  obtain ⟨-, -, hthere⟩ := foldlM_spendCoin hspent
  obtain ⟨u, hu, -⟩ := hthere k hk
  -- what the transactions before it come to
  have htxids := h.txids
  rw [hblock, List.map_cons, List.nodup_cons, List.map_append] at htxids
  have hkeys := heffect.keys
  rw [Block.outputs_cons hblock, List.flatMap_append, List.map_append, List.nodup_append] at hkeys
  have hnet := net_connectTx (List.nodup_append.mp htxids.2).1 (fun e he => ?_) hpre
  · by_contra hnot
    rw [List.map_append, List.mem_append, not_or] at hnot
    rw [hnet.get] at hu
    obtain ⟨-, hu⟩ := Option.ite_none_left_eq_some.mp hu
    rw [SortedMap.get?_insertAll_of_notMem hnot.2, SortedMap.get?_insertAll_of_notMem hnot.1,
      hnone] at hu
    cases hu
  · have hmem : e.1 ∈ (pre.flatMap (spendableOutputs core height false) ++
        (t :: post).flatMap (spendableOutputs core height false)).map Prod.fst :=
      List.mem_map_of_mem (List.mem_append_left _ he)
    have hnew : e.1 ∉ (spendableOutputs core height true coinbase).map Prod.fst :=
      fun hcb => hkeys.2.2 e.1 hcb e.1 hmem rfl
    rw [SortedMap.get?_insertAll_of_notMem hnew]
    have hout : e ∈ block.outputs core height := by
      rw [Block.outputs_cons hblock, List.flatMap_append]
      exact List.mem_append_right _ (List.mem_append_left _ he)
    rcases heffect.fresh e hout with hfresh | ⟨-, cb, hcb, hover⟩
    · exact hfresh
    · rw [hblock, List.head?_cons] at hcb
      obtain rfl := Option.some.inj hcb
      exact absurd (List.mem_map_of_mem hover) hnew

/-- The leaves that the guest gathers of the coinbase and of some transactions are those of the
    spendable outputs, in order; the guest and the bridge ask Core the same question about a
    script. -/
theorem outputLeaves_eq_map (hscripts : KnowsSpendable core) (hheight : w.height = height)
    (hmtp : blockMtp[height.toNat]? = some mtp) (views : List (TxView H)) :
    outputLeaves hs core w mtp coinbase views =
      (spendableOutputs core height true coinbase ++
        (views.map TxView.tx).flatMap (spendableOutputs core height false)).map
          (leafOf hs blockMtp) := by
  have hone : ∀ (isCoinbase : UInt32) (t : Transaction),
      (createdCoins core t w.height isCoinbase mtp).map (Coin.leaf hs) =
        (spendableOutputs core height (isCoinbase ≠ 0) t).map (leafOf hs blockMtp) := by
    intro isCoinbase t
    rw [createdCoins_eq hscripts, hheight, List.map_map]
    refine List.map_congr_left ?_
    intro e he
    unfold leafOf
    rw [(height_of_mem_spendableOutputs he).1, List.getD_eq_getElem?_getD, hmtp]
    rfl
  unfold outputLeaves
  rw [hone, List.map_append, List.flatMap_map, List.map_flatMap]
  congr 1
  refine List.flatMap_congr ?_
  intro v _
  exact hone 0 v.tx

/-- The input of a spend. -/
theorem exists_place {ts : List Transaction} {utxo : Utxo} {spends : List InputSpend}
    (hspends : (placesFrom 0 ts).mapM (spendOf core utxo blockMtp height block) = some spends)
    {s : InputSpend} (hs : s ∈ spends) : ∃ t txin u, ts[s.txIdx]? = some t ∧ txin ∈ t.vin ∧
      prevout core utxo block height (outpointOf txin) = some u ∧
      s.coin = u.coin (outpointOf txin) (blockMtp.getD u.height.toNat 0) := by
  obtain ⟨x, hx, hof⟩ := Parallel.exists_of_mem_mapM hspends hs
  unfold placesFrom at hx
  obtain ⟨p, hp, hx⟩ := List.mem_flatMap.mp hx
  obtain ⟨q, hq, rfl⟩ := List.mem_map.mp hx
  obtain ⟨u, hu, heq⟩ := Option.bind_eq_some_iff.mp hof
  obtain rfl := Option.some.inj heq
  exact ⟨p.1, q.1, u, List.mem_zipIdx_iff_getElem?.mp hp, List.fst_mem_of_mem_zipIdx hq, hu, rfl⟩

variable [DecidableEq H]

/-- **Every coin that the bridge spends is where the guest asks for it.** -/
theorem placed_of_spends {utxo : Utxo} {spends : List InputSpend} (hleaf : hs.LeafInjective)
    (hscripts : KnowsSpendable core) (hblock : ConnectBlock core utxo height block coins')
    (htxdata : block.txdata = coinbase :: views.map TxView.tx) (hheight : w.height = height)
    (hmtp : blockMtp[height.toNat]? = some mtp) (hlen : views.length < 2 ^ 32)
    (hspends : (placesFrom 0 (views.map TxView.tx)).mapM
      (spendOf core utxo blockMtp height block) = some spends) :
    ∀ s ∈ spends, s.Placed hs (outputLeaves hs core w mtp coinbase views)
      (createdAt hs core w mtp coinbase views) := by
  intro s hmem
  obtain ⟨t, txin, u, ht, htxin, -, hcoin⟩ := exists_place hspends hmem
  obtain ⟨heffect, -⟩ := hblock.spec
  have hk : coinOutpoint s.coin = outpointOf txin := by rw [hcoin, coinOutpoint_coin]
  have hleaves : ∀ views : List (TxView H), outputLeaves hs core w mtp coinbase views = _ :=
    outputLeaves_eq_map hscripts hheight hmtp
  unfold InputSpend.Placed
  split
  · rename_i hcreated
    -- the coin is an output of the block
    rw [hleaves, ← Block.outputs_cons htxdata] at hcreated
    obtain ⟨v, hv, hc⟩ := exists_leafOf hleaf hcreated
    rw [hk] at hv hc
    -- of a transaction before this one
    rw [List.getElem?_map] at ht
    obtain ⟨view, hview, rfl⟩ := Option.map_eq_some_iff.mp ht
    obtain ⟨hlt, hget⟩ := List.getElem?_eq_some_iff.mp hview
    have hsplit : block.txdata = coinbase :: ((views.take s.txIdx).map TxView.tx ++
        view.tx :: (views.drop (s.txIdx + 1)).map TxView.tx) := by
      rw [htxdata, ← List.map_cons, ← List.map_append, ← hget, ← List.drop_eq_getElem_cons hlt,
        List.take_append_drop]
    have hspent : outpointOf txin ∈ block.spent := by
      rw [Block.spent_cons htxdata]
      refine List.mem_flatMap.mpr ⟨view.tx, ?_, List.mem_map_of_mem htxin⟩
      exact List.mem_map_of_mem (List.mem_of_getElem? hview)
    have hnone : utxo.get? (outpointOf txin) = none := by
      rcases heffect.source _ hspent with ⟨-, -, -, hnone⟩ | ⟨hnot, -⟩
      · exact hnone
      · exact absurd (List.mem_map_of_mem hv) hnot
    obtain ⟨⟨k, v'⟩, he, hke⟩ :=
      List.mem_map.mp (hblock.earlier hsplit (List.mem_map_of_mem htxin) hnone)
    dsimp only at hke
    subst hke
    have hin : (outpointOf txin, v') ∈ block.outputs core height := by
      rw [Block.outputs_cons hsplit, List.flatMap_append, ← List.append_assoc]
      exact List.mem_append_left _ he
    obtain rfl : v' = v := congrArg Prod.snd (List.inj_on_of_nodup_map heffect.keys hin hv rfl)
    -- so the guest finds it at that transaction's place
    have hdone : s.coin.leaf hs ∈
        outputLeaves hs core w mtp coinbase (views.take s.txIdx) := by
      rw [hleaves, hc]
      exact List.mem_map_of_mem he
    have hnodup : (outputLeaves hs core w mtp coinbase
        (views.take s.txIdx ++ views.drop s.txIdx)).Nodup := by
      rw [List.take_append_drop]
      refine Guest.nodup_outputLeaves hleaf ?_
      have htxids := hblock.txids
      rwa [htxdata, List.map_cons, List.map_map] at htxids
    have htake : (views.take s.txIdx).length = s.txIdx := by
      rw [List.length_take, min_eq_left hlt.le]
    obtain ⟨creator, hlookup, hbefore⟩ :=
      Guest.lookup_createdAt_of_mem (by rw [htake]; omega) hnodup hdone
    rw [List.take_append_drop] at hlookup
    rw [htake] at hbefore
    exact ⟨creator, hlookup, hbefore⟩
  · rename_i hmem
    exact Guest.lookup_createdAt_eq_none.mpr hmem

end

end Bridge
end Hazync
