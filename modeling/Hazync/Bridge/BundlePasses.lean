import Hazync.Bridge.BundleSpends
import Hazync.Bridge.SmtCounts
import Hazync.Guest.CoinbaseSmt

/-!
# A bundle passes the guest

Consensus accepts a block, the bridge takes it and writes a bundle. What the guest asks of the
accumulator, of the coins spent in the block, of the overwritten coinbase, of the tree and of the
roots is then in the bundle (`WitnessFor.presented`), and the range that it commits ends in the
state that the bridge writes into its next bundle (`Replayed.bundle_passes`).

## Two sides of the hypotheses

`ValidChain` says that the blocks connect, coin by coin; it is what the accumulator and the tree
need. `Lawful` is the rest of consensus: proof of work, times, weights, the checks of the
transactions, scripts. The first is used here to prove that no proof of the bundle is refused, the
second is handed through to the guest's checks. Neither mentions the bundle, except that the rules
are asked of the bytes that the bridge writes.

`CoinsFit` keeps the accumulator within the `u32` of the position index. `CoinbasesTell` asks that
coinbases with one txid have the same outputs, as a hash of the transaction tells. `KnowsSpendable`
and `LeafInjective` are about Core's test of a script and about the hash of a leaf.
-/

namespace Hazync
namespace Bridge

open ByteStrings
open Accumulator (Forest Stump normalize)
open Guest (BlockInput BlockOf BlockRules BlockWitness Blob Boundary Chunks Coin Core Presented
  RangeState SmtWitness Transaction TxView addAll_commits blockSpends cbSpends countedSpends
  createdCoins expectedNbits itemsFrom medianTimePast outputLeaves proveRange survivors
  vecCapacity32)

variable {H : Type}

/-! ## What consensus says beside the coins -/

/-- What the rules say of a block and of its bytes, where the bridge stands at `s` and the bundle is
    `before` and `w`: nothing of it is about the accumulator or the tree. -/
structure Lawful (hs : Hashing H) (core : Core) (ser : Serializer) (s : Standing H) (block : Block)
    (before : Boundary H) (w : BlockWitness H) : Prop where
  coinbase : ∀ c, block.txdata.head? = some c → core.unserializeTx (ser.tx c) = some c
  txs : ∀ t ∈ block.txdata.tail, ∀ us, block.prevouts core s.utxo w.height t = some us →
    TxRules core ser w.height (medianTimePast before.recent)
      (w.lockTime (medianTimePast before.recent)) (w.flags hs)
      (s.blockMtp ++ [medianTimePast s.win]) t us
  rules : BlockRules hs core w (medianTimePast before.recent)
  nbits : block.bits = expectedNbits core before w.height
  time : medianTimePast before.recent < block.time
  /-- The two blocks that the guest knows by their hashes stand at the heights where the bridge
      overwrites a coinbase, and nowhere else. -/
  known : w.isBip30Block hs = (overwrittenHeight w.height).isSome
  room : (block.outputs core w.height).length ≤ vecCapacity32

/-! ## The bundle, taken apart -/

/-- The witness of a bundle, field by field: what `build_block_carried` hands over, what the tree
    gives, and what is serialised of the block itself. -/
structure WitnessFor (core : Core) (ser : Serializer) (utxo : Utxo) (height : UInt32)
    (block : Block) (carried : Carried H) (inSmtRoot : H) (smt : SmtWitness H) (coinbase : Transaction)
    (w : BlockWitness H) : Prop where
  header : w.header = block.header
  at_height : w.height = height
  coinbaseTx : w.coinbaseTx = ser.tx coinbase
  /-- The txids, the two stumps, the inputs and the BIP30 part come from the walk over the block. -/
  txids : w.txids = carried.txids
  rootPrev : w.rootPrev = carried.rootPrev
  inputs : w.inputs = carried.inputs
  rootNext : w.rootNext = carried.rootNext
  bip30 : w.bip30 = carried.bip30
  /-- The tree's root before the block, and the part that proves the updates of it. -/
  smtRoot : w.inSmtRoot = inSmtRoot
  smtPart : w.smt = smt
  /-- The transactions after the coinbase, each with the outputs that it spends. -/
  blobs : List.Forall₂ (fun t (p : Blob × Blob) => TxBlobs core ser utxo height block t p.1 p.2)
    block.txdata.tail (w.txs.zip w.txPrevouts)
  length : w.txs.length = block.txdata.tail.length
  prevouts : w.txPrevouts.length = w.txs.length

section

variable {core : Core} {ser : Serializer} {utxo : Utxo} {height : UInt32} {block : Block}
  {carried : Carried H} {inSmtRoot : H} {smt : SmtWitness H} {w : BlockWitness H}

/-- The two blobs of each transaction. -/
theorem txBlobs_of_mapM {ts : List Transaction} {raws prevouts : List Blob}
    (hraws : (ts.mapM fun t => blob (ser.tx t)) = some raws)
    (hprevouts : (ts.mapM fun t => (block.prevouts core utxo height t).bind fun us =>
      blob (ser.outs (us.map Unspent.txOut))) = some prevouts) :
    List.Forall₂ (fun t (p : Blob × Blob) => TxBlobs core ser utxo height block t p.1 p.2) ts
      (raws.zip prevouts) := by
  induction ts generalizing raws prevouts with
  | nil =>
    obtain rfl := Option.some.inj hraws
    exact .nil
  | cons t ts ih =>
    rw [List.mapM_cons] at hraws hprevouts
    obtain ⟨raw, hraw, hraws⟩ := Option.bind_eq_some_iff.mp hraws
    obtain ⟨raws', hraws', heq⟩ := Option.bind_eq_some_iff.mp hraws
    obtain rfl := Option.some.inj heq
    obtain ⟨pv, hpv, hprevouts⟩ := Option.bind_eq_some_iff.mp hprevouts
    obtain ⟨pvs, hpvs, heq⟩ := Option.bind_eq_some_iff.mp hprevouts
    obtain rfl := Option.some.inj heq
    obtain ⟨us, hus, hblob⟩ := Option.bind_eq_some_iff.mp hpv
    exact .cons ⟨blob_eq_some hraw, us, hus, blob_eq_some hblob⟩ (ih hraws' hpvs)

/-- A witness that the bridge can build is of that block, field by field. -/
theorem bundleWitness_eq_some
    (h : bundleWitness core ser utxo height block carried inSmtRoot smt = some w) :
    ∃ coinbase, block.txdata.head? = some coinbase ∧
      WitnessFor core ser utxo height block carried inSmtRoot smt coinbase w := by
  unfold bundleWitness at h
  simp only [Option.bind_eq_bind, Option.bind_eq_some_iff] at h
  obtain ⟨coinbase, hhead, txs, htxs, prevouts, hprevouts, h⟩ := h
  split at h
  · obtain rfl := Option.some.inj h
    refine ⟨coinbase, hhead, rfl, rfl, rfl, rfl, rfl, rfl, rfl, rfl, rfl, rfl, ?_, ?_, ?_⟩
    · exact txBlobs_of_mapM htxs hprevouts
    · exact Parallel.length_of_mapM htxs
    · exact (Parallel.length_of_mapM hprevouts).trans (Parallel.length_of_mapM htxs).symm
  · cases h

/-- A block has no more transactions than the entries of a witness. -/
theorem length_le_length_spent {coinbase : Transaction} {txs : List Transaction}
    (htxdata : block.txdata = coinbase :: txs) (hvin : ∀ t ∈ txs, t.vin ≠ []) :
    txs.length ≤ block.spent.length := by
  rw [Block.spent_cons htxdata, List.length_flatMap, ← List.length_map]
  apply List.length_le_sum_of_one_le
  intro n hn
  obtain ⟨t, ht, rfl⟩ := List.mem_map.mp hn
  rw [List.length_map]
  exact List.length_pos_iff.mpr (hvin t ht)

end

/-! ## What the guest finds in it -/

section

variable {hs : Hashing H} {core : Core} {ser : Serializer} {utxo coins' : Utxo}
  {height mtp : UInt32} {block : Block} {blockMtp : List UInt32} {carried : Carried H}
  {inSmtRoot : H} {smt : SmtWitness H} {coinbase : Transaction} {w : BlockWitness H}
  {views : List (TxView H)} {spends : List InputSpend} {inputs : List (BlockInput H)}

theorem Block.length_header (block : Block) : block.header.length = 80 := by
  unfold Block.header
  simp

theorem map_itemsFrom (pos : ℕ) (views : List (TxView H)) :
    (itemsFrom core pos views).map (fun i => (i.inp, i.coin)) = blockSpends core views := by
  induction views generalizing pos with
  | nil => rfl
  | cons v views ih =>
    have hone : (v.items core (UInt32.ofNat pos)).map (fun i => (i.inp, i.coin)) =
        v.inputs.zip (v.coins core) := by
      rw [TxView.items, List.map_map]
      exact List.map_id _
    rw [itemsFrom, List.map_append, hone, ih]
    rfl

/-- An entry is counted where its coin is a coinbase's. -/
theorem counted_of_inputFor (h : List.Forall₂ InputFor spends inputs) :
    (((spends.zip inputs).map fun p => (p.2, p.1.coin)).filter
        fun p => p.1.coinIsCoinbase = 1).map (fun p => p.2.txid) =
      (spends.filter fun s => s.coin.isCoinbase).map fun s => s.coin.txid := by
  induction h with
  | nil => rfl
  | @cons s inp spends inputs hfor _ ih =>
    have hcount := hfor.coinIsCoinbase
    rw [List.zip_cons_cons, List.map_cons, List.filter_cons, List.filter_cons]
    cases hcb : s.coin.isCoinbase with
    | true =>
      rw [hcb, if_pos rfl] at hcount
      rw [if_pos rfl, if_pos (decide_eq_true hcount), List.map_cons, List.map_cons, ih]
    | false =>
      rw [hcb, if_neg Bool.false_ne_true] at hcount
      rw [if_neg Bool.false_ne_true, if_neg (by simp [hcount]), ih]

/-- The coinbases that the guest counts are those that the bridge takes off its tree. The guest
    takes them from the entries of the witness, the bridge from its own map; both in the order of
    the inputs. -/
theorem countedSpends_eq (hspends : block.spends core utxo blockMtp height = some spends)
    (hinputs : List.Forall₂ InputFor spends inputs)
    (hitems : itemsFrom core 1 views = (spends.zip inputs).map spendItem) :
    countedSpends core views = block.coinbaseSpends utxo := by
  obtain ⟨hpoints, hfinds⟩ := coinAt_spends hspends
  have hpairs : blockSpends core views = (spends.zip inputs).map fun p => (p.2, p.1.coin) := by
    rw [← map_itemsFrom 1 views, hitems, List.map_map]
    rfl
  -- the map says which coins are a coinbase's
  have hflag : ∀ s ∈ spends,
      (utxo.get? (coinOutpoint s.coin)).any (·.isCoinbase) = s.coin.isCoinbase := by
    intro s hs
    have hcoin := hfinds s hs
    unfold coinAt prevout at hcoin
    cases hget : utxo.get? (coinOutpoint s.coin) with
    | some u =>
      rw [hget] at hcoin
      rw [← Option.some.inj hcoin]
      rfl
    | none =>
      rw [hget] at hcoin
      obtain ⟨u, hu, hc⟩ := Option.map_eq_some_iff.mp hcoin
      obtain ⟨o, -, rfl⟩ := Option.map_eq_some_iff.mp hu
      rw [← hc]
      rfl
  unfold Block.coinbaseSpends
  rw [countedSpends, hpairs, counted_of_inputFor hinputs, ← hpoints, List.filter_map, List.map_map]
  congr 1
  exact (List.filter_congr hflag).symm

variable [DecidableEq H] {F : Forest H}

theorem buildBlockCarried_stumps
    (h : buildBlockCarried hs core utxo blockMtp height block F = some carried) :
    wireStump F = some carried.rootPrev ∧ wireStump carried.forest = some carried.rootNext ∧
      carried.txids = block.txdata.map core.getHash := by
  unfold buildBlockCarried at h
  simp only [Option.bind_eq_bind, Option.bind_eq_some_iff, Option.some.injEq] at h
  obtain ⟨first, -, spends, -, rootPrev, hprev, acc, -, ⟨G, bip30⟩, -, rootNext, hnext, rfl⟩ := h
  exact ⟨hprev, hnext, rfl⟩

/-- **The bundle holds what the guest asks of the accumulator and of the coins.** The deletes of the
    overwritten coinbase, then those of the inputs, then the adds of the outputs, each from the
    state that the one before left; the roots that come out are those that the witness carries as
    `root_next`. -/
theorem WitnessFor.presented
    (hwit : WitnessFor core ser utxo height block carried inSmtRoot smt coinbase w)
    (hleaf : hs.LeafInjective) (hscripts : KnowsSpendable core)
    (htracks : Tracks hs blockMtp F utxo) (hroom : F.leaves.length ≤ 2 ^ 32)
    (hroom' : coins'.entries.length ≤ 2 ^ 32)
    (hblock : ConnectBlock core utxo height block coins')
    (hmtp : blockMtp[height.toNat]? = some mtp) (hhead : block.txdata.head? = some coinbase)
    (hbuild : buildBlockCarried hs core utxo blockMtp height block F = some carried)
    (hcb : core.unserializeTx (ser.tx coinbase) = some coinbase)
    (hrules : ∀ t ∈ block.txdata.tail, ∀ us, block.prevouts core utxo height t = some us →
      TxRules core ser height mtp (w.lockTime mtp) (w.flags hs) blockMtp t us)
    (hknown : w.isBip30Block hs = (overwrittenHeight height).isSome)
    (hcap : (block.outputs core height).length ≤ vecCapacity32) :
    ∃ views after stump, Presented hs core w mtp coinbase views after stump ∧
      cbSpends core w w.inputs = some (some (block.coinbaseSpends utxo)) := by
  obtain ⟨txs, htxdata⟩ := List.head?_eq_some_iff.mp hhead
  obtain ⟨hlt, -⟩ := List.getElem?_eq_some_iff.mp hmtp
  obtain ⟨heffect, -⟩ := hblock.spec
  have hend : Tracks hs blockMtp carried.forest coins' :=
    htracks.buildBlockCarried hleaf hroom hblock hlt hbuild
  have hfound : Findable hs.parent F := htracks.findable hleaf hroom
  unfold buildBlockCarried at hbuild
  simp only [Option.bind_eq_bind, Option.bind_eq_some_iff, Option.some.injEq] at hbuild
  obtain ⟨first, hfirst, spends, hspends, rootPrev, hprev, acc, hacc, ⟨G, bip30⟩, hover, rootNext,
    hnext, rfl⟩ := hbuild
  obtain rfl := Option.some.inj (hhead.symm.trans hfirst)
  obtain ⟨hpoints, -⟩ := coinAt_spends hspends
  -- the entries, and the transactions with them
  obtain ⟨inputs, hins, hinputs⟩ := inputs_of_spendInputs hacc
  obtain rfl : acc.inputs = inputs := hins
  have htail : block.txdata.tail = txs := by rw [htxdata, List.tail_cons]
  have hblobs := hwit.blobs
  rw [htail] at hblobs hrules
  have hcount : txs.length = w.txs.length := by rw [hwit.length, htail]
  have hvin : ∀ t ∈ txs, t.vin ≠ [] := by
    intro t ht
    obtain ⟨p, -, hp⟩ := Parallel.exists_of_mem hblobs ht
    obtain ⟨us, hus, -⟩ := hp.prevouts
    exact (hrules t ht us hus).vin
  have hfew : txs.length < 2 ^ 32 := by
    have hle := length_le_length_spent htxdata hvin
    have hentries := w.inputs_lt
    rw [← hpoints, List.length_map, hinputs.length_eq] at hle
    rw [hwit.inputs] at hentries
    exact lt_of_le_of_lt hle hentries
  have hplaces : (placesFrom 0 txs).mapM (spendOf core utxo blockMtp height block) =
      some spends := by
    rw [← htail]
    exact hspends
  obtain ⟨views, hviewed, htxs, hflat, hitems, hok⟩ := exists_views 0 hblobs hwit.prevouts
    (by omega) (by omega) hplaces hinputs hwit.at_height hrules
  obtain rfl := htxs
  have hsame : block.outLeaves hs core height (blockMtp.getD height.toNat block.time) =
      outputLeaves hs core w mtp coinbase views := by
    rw [outLeaves_eq hlt, outputLeaves_eq_map hscripts hwit.at_height hmtp,
      Block.outputs_cons htxdata]
  have hcreated : (outputLeaves hs core w mtp coinbase views).length ≤ vecCapacity32 := by
    rw [← hsame, outLeaves_eq hlt, List.length_map]
    exact hcap
  have hplaced : ∀ s ∈ spends, s.Placed hs (outputLeaves hs core w mtp coinbase views)
      (Guest.createdAt hs core w mtp coinbase views) :=
    placed_of_spends hleaf hscripts hblock htxdata hwit.at_height hmtp (by simpa using hfew) hplaces
  rw [hsame] at hacc hend hnext
  -- each leaf is spent once
  have hnodup : (spends.map fun s => s.coin.leaf hs).Nodup := by
    have hcoins : (spends.map InputSpend.coin).Nodup := by
      refine List.Nodup.of_map coinOutpoint ?_
      rw [List.map_map]
      exact hpoints ▸ heffect.nodup
    have hleaves := hcoins.map (Guest.Coin.leaf_injective hleaf)
    rwa [List.map_map] at hleaves
  have hlen : F.leaves.length < 2 ^ 64 := by omega
  have hstart : w.rootPrev.Commits hs.parent F.leaves := by
    rw [hwit.rootPrev]
    exact commits_of_wireStump hfound.cache hlen hprev
  obtain ⟨inputs', stump₁, hins', hinputs', hF, hcommits, hall, hproofs⟩ :=
    spendInputs_accepted ⟨F, [], []⟩ hfound hstart hplaced hnodup
      (fun _ _ => List.not_mem_nil) hacc
  obtain rfl : acc.inputs = inputs' := hins'
  rw [← hitems] at hall hproofs
  obtain ⟨stump₂, hoverwrite, hcommits'⟩ := overwrite_accepted hF hcommits hscripts
    (hwit.coinbaseTx ▸ hcb) hover hwit.bip30 hknown
  -- what is appended
  have hG : Findable hs.parent G := (overwrite_takesOut hF hover).findable
  have hleaves : (((outputLeaves hs core w mtp coinbase views).filter
      (· ∉ acc.spentInBlock)).foldl (Forest.add hs.parent) G).leaves =
        G.leaves ++ survivors (outputLeaves hs core w mtp coinbase views) acc.spentInBlock :=
    leaves_foldl_add hG.cache _
  have hlen' : (((outputLeaves hs core w mtp coinbase views).filter
      (· ∉ acc.spentInBlock)).foldl (Forest.add hs.parent) G).leaves.length < 2 ^ 64 := by
    rw [hend.length]
    omega
  have hroots := commits_of_wireStump hend.cache hlen' hnext
  rw [hleaves] at hroots hlen'
  have hnew := eq_of_commits (addAll_commits hcommits' hlen') hroots
  have hpresented : Presented hs core w mtp coinbase views (stump₁, acc.spentInBlock) stump₂ :=
    { header := by rw [hwit.header, block.length_header]
      coinbase := hwit.coinbaseTx ▸ hcb
      txids := by
        rw [hwit.txids, htxdata, List.map_cons, List.map_map]
        rfl
      viewed := hviewed
      prevouts := hwit.prevouts
      inputs := hwit.inputs.trans hflat
      room := hcreated
      passed := hok
      spends := hall
      proofs := hproofs
      overwrite := hoverwrite
      rootNext := by
        rw [hwit.rootNext]
        exact hnew }
  refine ⟨views, _, _, hpresented, ?_⟩
  have hblockOf : BlockOf hs core w mtp coinbase views :=
    { coinbase := hpresented.coinbase
      viewed := hviewed
      inputs := hpresented.inputs
      outpoints := by
        intro v hv
        obtain ⟨ti, hfit⟩ := hviewed.fits v hv
        exact v.outpoints_coins hfit (hok v hv)
      spends := ⟨_, hall⟩ }
  rw [hblockOf.cbSpends_eq, countedSpends_eq hspends hinputs hitems]

end

/-! ## A round -/

section

variable [DecidableEq H] {hs : Hashing H} {core : Core} {ser : Serializer} {blocks : List Block}
  {coins coins' : Utxo} {block : Block} {s s' : Standing H} {u : BlockUndo H} {hash : String}
  {before : Boundary H} {w : BlockWitness H}

/-- The bundle and the state after it are of one round: the proofs were made while the forest went
    from the one to the other. -/
theorem Standing.bundle_of_advance (hadvance : s.advance hs core hash block = some (s', u))
    (hbundle : s.bundle hs core ser block = some (before, w)) : ∃ carried coinbase prior,
    s.inBoundary block.prevBlockhash = some before ∧
      buildBlockCarried hs core s.utxo s'.blockMtp s'.done block s.forest.beginJournal =
        some carried ∧
      s'.forest = carried.forest.takeJournal ∧ block.txdata.head? = some coinbase ∧
      smtAdvance hs s.smt (core.getHash coinbase)
        (UInt32.ofNat (spendableOutputs core s'.done true coinbase).length)
        (block.coinbaseSpends s.utxo) (overwrittenHeight s'.done).isSome =
          some (w.smt, prior, s'.smt) ∧
      WitnessFor core ser s.utxo s'.done block carried s.smt.root w.smt coinbase w := by
  unfold Standing.advance at hadvance
  rw [Option.ite_none_left_eq_some] at hadvance
  obtain ⟨-, hadvance⟩ := hadvance
  simp only [Option.bind_eq_bind, Option.bind_eq_some_iff, Option.some.injEq] at hadvance
  obtain ⟨⟨win, blockMtp⟩, hpush, carried, hbuild, coinbase, hhead, ⟨wit, prior, smt⟩, hsmt, heq⟩ :=
    hadvance
  obtain ⟨rfl, -⟩ := Prod.mk.inj heq
  unfold Standing.bundle at hbundle
  simp only [Option.bind_eq_bind, Option.bind_eq_some_iff, Option.some.injEq] at hbundle
  obtain ⟨before', hbefore, ⟨win', blockMtp'⟩, hpush', carried', hbuild', coinbase', hhead',
    ⟨wit', rest⟩, hsmt', w', hw, heq⟩ := hbundle
  obtain ⟨rfl, rfl⟩ := Prod.mk.inj heq
  obtain ⟨rfl, rfl⟩ := Prod.mk.inj (Option.some.inj (hpush.symm.trans hpush'))
  obtain rfl := Option.some.inj (hbuild.symm.trans hbuild')
  obtain rfl := Option.some.inj (hhead.symm.trans hhead')
  obtain ⟨rfl, rfl⟩ := Prod.mk.inj (Option.some.inj (hsmt.symm.trans hsmt'))
  obtain ⟨first, hfirst, hwit⟩ := bundleWitness_eq_some hw
  obtain rfl := Option.some.inj (hhead.symm.trans hfirst)
  rw [hwit.smtPart]
  refine ⟨carried, coinbase, prior, hbefore, hbuild, rfl, hhead, ?_, hwit⟩
  rw [length_spendableOutputs, ← grandfathered_eq]
  exact hsmt

/-- The witness of a bundle is of the block. -/
theorem Standing.witness_of_bundle (h : s.bundle hs core ser block = some (before, w)) :
    s.inBoundary block.prevBlockhash = some before ∧ ∃ blockMtp carried coinbase,
      buildBlockCarried hs core s.utxo blockMtp (s.done + 1) block s.forest.beginJournal =
        some carried ∧
      block.txdata.head? = some coinbase ∧
      WitnessFor core ser s.utxo (s.done + 1) block carried s.smt.root w.smt coinbase w := by
  unfold Standing.bundle at h
  simp only [Option.bind_eq_bind, Option.bind_eq_some_iff, Option.some.injEq] at h
  obtain ⟨before', hbefore, ⟨win, blockMtp⟩, -, carried, hbuild, coinbase, hhead, ⟨wit, rest⟩, -,
    w', hw, heq⟩ := h
  obtain ⟨rfl, rfl⟩ := Prod.mk.inj heq
  obtain ⟨first, hfirst, hwit⟩ := bundleWitness_eq_some hw
  obtain rfl := Option.some.inj (hhead.symm.trans hfirst)
  rw [hwit.smtPart]
  exact ⟨hbefore, blockMtp, carried, coinbase, hbuild, hhead, hwit⟩

/-- **The bundle of a block passes**, as a range of that one block, from the state that the bridge
    was in to the state that it is in then. The range's `lo` and `hi` are the height, its
    in-boundary is the one the bridge wrote, and its out-boundary is what the bridge would write
    next. -/
theorem Replayed.bundle_passes (h : Replayed hs core blocks s) (hleaf : hs.LeafInjective)
    (hscripts : KnowsSpendable core) (hchain : ValidChain core (blocks ++ [block]) coins')
    (hfit : CoinsFit core (blocks ++ [block])) (htell : CoinbasesTell core (blocks ++ [block]))
    (hadvance : s.advance hs core hash block = some (s', u))
    (hbundle : s.bundle hs core ser block = some (before, w))
    (hlaw : Lawful hs core ser s block before w) (selfId : Guest.ImageId) :
    ∃ st b', proveRange hs core before w selfId = some st ∧
      s.inBoundary block.prevBlockhash = some before ∧
      s'.inBoundary (block.hash hs) = some b' ∧ st.before = before ∧ st.after.Agrees b' ∧
      st.lo = UInt32.ofNat (blocks.length + 1) ∧ st.hi = UInt32.ofNat (blocks.length + 1) ∧
      st.inSmtRoot = s.smt.root ∧ st.outSmtRoot = s'.smt.root := by
  obtain ⟨coins, hbefore, hblock⟩ := hchain.last
  have hpre : CoinsFit core blocks := fun pre coins hle =>
    hfit pre coins (hle.trans (List.prefix_append _ _))
  have hroom := hfit blocks coins (List.prefix_append _ _) hbefore
  have hroom' := hfit _ coins' (List.prefix_refl _) hchain
  have hinv := h.walked.inv hleaf hbefore hpre
  have hround := Standing.advance_toResident hadvance
  obtain ⟨hheight, hnat, hlength, hstart⟩ := hinv.start hbefore hround
  obtain ⟨hnbits', htime', hepoch', hwin', hmtp'⟩ := s.advance_fields hadvance
  obtain ⟨carried, coinbase, prior, hin, hbuild, hforest, hhead, hsmt, hwit⟩ :=
    Standing.bundle_of_advance hadvance hbundle
  obtain ⟨hprev, hnext, htxids⟩ := buildBlockCarried_stumps hbuild
  obtain ⟨stump, hstump, heq⟩ := Option.bind_eq_some_iff.mp hin
  obtain rfl := Option.some.inj heq
  obtain rfl : stump = carried.rootPrev := Option.some.inj (hstump.symm.trans hprev)
  -- what the block check asks
  have hcounted := h.smt_counts hbefore htell.of_append
  have habsent : w.isBip30Block hs = false → s.smt.get (core.getHash coinbase) = none := by
    intro hfalse
    rw [hlaw.known, hwit.at_height, hheight] at hfalse
    refine hcounted.absent hbefore htell hblock hhead ?_
    exact Option.isNone_iff_eq_none.mp (Option.isSome_eq_false_iff.mp hfalse)
  have hutxo : s.utxo = coins := hinv.utxo
  have hmtp : s'.blockMtp[s'.done.toNat]? = some (medianTimePast s.win) := by
    rw [hnat, hmtp', ← hinv.blockMtp]
    exact List.getElem?_concat_length
  rw [← hheight] at hblock ⊢
  rw [← hutxo] at hblock hstart hroom
  have hrules := hlaw.txs
  rw [hwit.at_height, ← hmtp'] at hrules
  obtain ⟨views, after, last, hpresented, hspends⟩ := hwit.presented hleaf hscripts hstart
    (by rw [hstart.length]; exact hroom) hroom' hblock hmtp hhead hbuild (hlaw.coinbase _ hhead)
    hrules (by rw [hlaw.known, hwit.at_height]) (by rw [← hwit.at_height]; exact hlaw.room)
  have houtputs : (createdCoins core coinbase w.height 1 (medianTimePast s.win)).length =
      (spendableOutputs core s'.done true coinbase).length := by
    rw [createdCoins_eq hscripts, hwit.at_height, List.length_map]
    rfl
  have hbip30 := bip30Check_advance (w := w) h.exact.1.sound.smt
    (by rw [hwit.txids, htxids]; exact hblock.txids) hspends habsent
    (by rw [hlaw.known, hwit.at_height]; exact hsmt)
  rw [← houtputs, ← hwit.smtRoot] at hbip30
  obtain ⟨r, hr, hvalid, hout⟩ := hpresented.validateBlock hlaw.rules hbip30
  obtain ⟨-, htip, hnbits, htime⟩ := Guest.validateBlock_header hr
  rw [nbits_of_header hwit.header] at hnbits
  rw [blockTime_of_header hwit.header] at htime
  have hextends : Guest.Extends core
      ⟨block.prevBlockhash, carried.rootPrev.roots, carried.rootPrev.numLeaves, s.nbits, s.time,
        s.epochStart, s.win⟩ w.height w r :=
    { valid := hvalid
      prevhash := by rw [hwit.header, slice_prevBlockhash]
      roots := by rw [hwit.rootPrev]
      leaves := by rw [hwit.rootPrev]
      nbits := hnbits.trans hlaw.nbits
      time := by
        rw [htime]
        exact hlaw.time }
  -- the state that the next bundle starts from
  have hnext' : wireStump s'.forest = some carried.rootNext := by
    rw [hforest]
    exact hnext
  obtain ⟨hroots, hleaves⟩ :=
    Guest.validateBlock_rootNext hr (Guest.blockValid_iff.mp hvalid).1.2.1
  rw [hwit.rootNext] at hroots hleaves
  refine ⟨_, ⟨block.hash hs, carried.rootNext.roots, carried.rootNext.numLeaves, s'.nbits, s'.time,
    s'.epochStart, s'.win⟩, Guest.proveRange_eq_some.mpr ⟨r, hr, hextends, rfl⟩, hin, ?_, rfl, ?_,
    hwit.at_height, hwit.at_height, hwit.smtRoot, hout⟩
  · unfold Standing.inBoundary
    rw [hnext']
    rfl
  · refine ⟨?_, ?_, hleaves, hnbits.trans hnbits'.symm, htime.trans htime'.symm, ?_, ?_⟩
    · rw [Block.hash, ← hwit.header]
      exact htip
    · show normalize r.rootNextRoots = normalize _
      rw [hroots, Accumulator.normalize_eq_iff]
      exact Accumulator.join_getElem?_normalize _
    · rw [hepoch', ← htime, ← hwit.at_height]
      rfl
    · rw [hwin', ← htime]
      rfl

end

end Bridge
end Hazync
