import Hazync.Guest.Bookkeeping
import Hazync.Guest.OpTrue
import Hazync.Guest.Range

/-!
# The coinbase SMT and the coinbase flag

The witness says of each input whether its coin is a coinbase's, in a `u32`. The leaf commits
whether that is non-zero, and the maturity check asks the same; the decrements of the SMT are for
the inputs where it is 1. So an accepted block takes off exactly the coinbase outputs it spends
when no input says 2 or more (`smt_tracks_iff`, which has the exact condition).

## One flag, three readings

The host says of each input whether its coin came from a coinbase. The leaf of the coin has a bit
for it, so a false flag gives another leaf and the proof does not fit; that is why the source says
that it cannot be lied about. But the flag is a word and the bit is whether the word is 0. The leaf
and the script check take 2 for a coinbase, the decrement of the SMT takes it for none. So the host
can spend a coinbase coin and leave its count where it was.

What follows is stated as an equation between two maps. The one is what the decrements for all spent
coinbase coins would leave, the other is what the guest comes to, and they agree exactly where
nothing was to be taken off for a skipped input (`BlockOf.transition_eq_iff`). There the spends that
say 1 have taken the count to nothing already, or the tree has no count for the txid.
-/

namespace Hazync
namespace Guest

open ByteStrings
open Accumulator (Proof Stump)
open Smt (Counts mapRoot stored period)

variable {H : Type}

/-- Every input of the block with the coin whose leaf it spends. -/
def blockSpends (core : Core) (views : List (TxView H)) : List (BlockInput H × Coin) :=
  views.flatMap fun v => v.inputs.zip (v.coins core)

/-- The txids behind the spent coins whose leaves say coinbase. -/
def coinbaseSpends (core : Core) (views : List (TxView H)) : List Bytes32 :=
  ((blockSpends core views).filter fun p => p.2.isCoinbase).map fun p => p.2.txid

/-- The txids behind the inputs that say exactly 1. -/
def countedSpends (core : Core) (views : List (TxView H)) : List Bytes32 :=
  ((blockSpends core views).filter fun p => p.1.coinIsCoinbase = 1).map fun p => p.2.txid

/-- How many spendable outputs the coinbase has. -/
def coinbaseOutputs (core : Core) (w : BlockWitness H) (mtp : UInt32) (cb : Transaction) : UInt32 :=
  UInt32.ofNat (createdCoins core cb w.height 1 mtp).length

/-- Where an input says 2 or more, there is nothing left to take off: the inputs that say 1 spend
    all that `m` holds of its coinbase. -/
def NothingSkipped (core : Core) (m : Counts) (views : List (TxView H)) : Prop :=
  ∀ p ∈ blockSpends core views, 1 < p.1.coinIsCoinbase →
    ∀ n, m p.2.txid = some n → n ≠ 0 ∧ n.toNat ≤ (countedSpends core views).count p.2.txid

/-- `cb` and `views` are the block: its coinbase, and its other transactions with their entries,
    whose coins' leaves are what it spends. -/
structure BlockOf [DecidableEq H] (hs : Hashing H) (core : Core) (w : BlockWitness H) (mtp : UInt32)
    (cb : Transaction) (views : List (TxView H)) : Prop where
  coinbase : core.unserializeTx w.coinbaseTx = some cb
  viewed : Viewed core w 0 views
  inputs : w.inputs = views.flatMap TxView.inputs
  /-- The coins that the entries speak of are those that the inputs name. -/
  outpoints : ∀ v ∈ views, (v.coins core).map (fun c => (c.txid, c.vout)) =
    v.tx.vin.map fun txin => (txin.prevoutHash, txin.prevoutN)
  /-- And each is in the accumulator, or was made by the block, when it is spent. -/
  spends : ∃ after, SpendsAll hs (createdAt hs core w mtp cb views) (w.rootPrev, [])
    (itemsFrom core 1 views) after

section

variable {hs : Hashing H} {core : Core} {w : BlockWitness H} {mtp : UInt32} {views : List (TxView H)}

/-- As many coins as inputs. -/
theorem TxView.length_coins {v : TxView H}
    (hout : (v.coins core).map (fun c => (c.txid, c.vout)) =
      v.tx.vin.map fun txin => (txin.prevoutHash, txin.prevoutN)) :
    (v.coins core).length = v.tx.vin.length := by
  have hlen := congrArg List.length hout
  rwa [List.length_map, List.length_map] at hlen

/-- What the guest reads at an entry, and what its coin is. -/
structure EntryAt (core : Core) (w : BlockWitness H) (p : BlockInput H × Coin) : Prop where
  txid : ∃ raw : Blob, w.txs[p.1.txIdx.toNat]? = some raw ∧
    txInputPrevoutTxid core raw.1 p.1.inputIdx = some (some p.2.txid)
  flag : p.2.isCoinbase = decide (p.1.coinIsCoinbase ≠ 0)

/-- Each entry of a transaction reads the txid of its own coin. -/
theorem TxView.entryAt {ti : ℕ} {v : TxView H} (hv : v.Fits core w ti)
    (hout : (v.coins core).map (fun c => (c.txid, c.vout)) =
      v.tx.vin.map fun txin => (txin.prevoutHash, txin.prevoutN)) :
    ∀ p ∈ v.inputs.zip (v.coins core), EntryAt core w p := by
  rintro ⟨inp, coin⟩ hp
  obtain ⟨j, hj⟩ := List.mem_iff_getElem?.mp hp
  obtain ⟨hinp, hcoin⟩ := List.getElem?_zip_eq_some.mp hj
  obtain ⟨hti, hidx, -⟩ := hv.entry j inp hinp
  constructor
  · refine ⟨v.raw, hti ▸ hv.raw, ?_⟩
    have hvin := congrArg (fun l => (l[j]?).map Prod.fst) hout
    simp only [List.getElem?_map, Option.map_map] at hvin
    rw [hcoin] at hvin
    rw [txInputPrevoutTxid, hv.tx, hidx]
    exact congrArg some hvin.symm
  · rw [TxView.coins, List.getElem?_map] at hcoin
    obtain ⟨⟨inp', txin, out⟩, hzip, rfl⟩ := Option.map_eq_some_iff.mp hcoin
    obtain ⟨hinp', -⟩ := List.getElem?_zip_eq_some.mp hzip
    cases hinp.symm.trans hinp'
    rfl

/-- The guest collects the txids of the entries that say 1. -/
theorem cbSpends_of_entries {ps : List (BlockInput H × Coin)} (h : ∀ p ∈ ps, EntryAt core w p) :
    cbSpends core w (ps.map Prod.fst) =
      some (some ((ps.filter fun p => p.1.coinIsCoinbase = 1).map fun p => p.2.txid)) := by
  induction ps with
  | nil => rfl
  | cons p ps ih =>
    have ih := ih fun q hq => h q (List.mem_cons_of_mem _ hq)
    obtain ⟨raw, hraw, htxid⟩ := (h p List.mem_cons_self).txid
    rw [List.map_cons, cbSpends, ih]
    by_cases hflag : p.1.coinIsCoinbase = 1
    · rw [if_neg (not_not.mpr hflag), List.filter_cons_of_pos (by simpa using hflag), hraw]
      dsimp only
      rw [htxid]
      rfl
    · rw [if_pos hflag, List.filter_cons_of_neg (by simpa using hflag)]

/-- The inputs that say 2 or more make the difference. -/
theorem count_coinbaseSpends {ps : List (BlockInput H × Coin)} (h : ∀ p ∈ ps, EntryAt core w p)
    (t : Bytes32) :
    ((ps.filter fun p => p.2.isCoinbase).map fun p => p.2.txid).count t =
      ((ps.filter fun p => p.1.coinIsCoinbase = 1).map fun p => p.2.txid).count t +
        ((ps.filter fun p => 1 < p.1.coinIsCoinbase).map fun p => p.2.txid).count t := by
  induction ps with
  | nil => rfl
  | cons p ps ih =>
    have ih := ih fun q hq => h q (List.mem_cons_of_mem _ hq)
    have hflag := (h p List.mem_cons_self).flag
    rcases (by grind : p.1.coinIsCoinbase = 0 ∨ p.1.coinIsCoinbase = 1 ∨ 1 < p.1.coinIsCoinbase)
      with h0 | h1 | h2
    · rw [h0] at hflag
      simpa [List.filter_cons, hflag, h0] using ih
    · rw [h1] at hflag
      simp only [List.filter_cons, hflag, h1]
      grind
    · have hne : p.1.coinIsCoinbase ≠ 0 := by grind
      have hne1 : p.1.coinIsCoinbase ≠ 1 := by grind
      simp only [List.filter_cons, hflag, h2, hne1]
      grind

variable [DecidableEq H] {r : BlockResult H} {chunks : Chunks H} {cb : Transaction}
  {s : LoopState H} {stump : Stump H}

/-- An accepted block is taken apart into its coinbase and its views. -/
theorem Validated.blockOf (hval : Validated hs core w mtp chunks r cb views s stump) :
    BlockOf hs core w mtp cb views where
  coinbase := hval.coinbase
  viewed := hval.viewed
  inputs := hval.inputs
  outpoints := by
    intro v hv
    obtain ⟨ti, hfit⟩ := hval.viewed.fits v hv
    exact v.outpoints_coins hfit (hval.passed v hv)
  spends := ⟨_, hval.spends⟩

theorem BlockOf.entryAt (h : BlockOf hs core w mtp cb views) :
    ∀ p ∈ blockSpends core views, EntryAt core w p := by
  intro p hp
  obtain ⟨v, hv, hp⟩ := List.mem_flatMap.mp hp
  obtain ⟨ti, hfit⟩ := h.viewed.fits v hv
  exact v.entryAt hfit (h.outpoints v hv) p hp

theorem BlockOf.map_fst (h : BlockOf hs core w mtp cb views) :
    (blockSpends core views).map Prod.fst = w.inputs := by
  rw [h.inputs, blockSpends, List.map_flatMap]
  refine List.flatMap_congr fun v hv => List.map_fst_zip ?_
  obtain ⟨ti, hfit⟩ := h.viewed.fits v hv
  rw [v.length_coins (h.outpoints v hv), hfit.length]

/-- What the guest collects of the whole block. -/
theorem BlockOf.cbSpends_eq (h : BlockOf hs core w mtp cb views) :
    cbSpends core w w.inputs = some (some (countedSpends core views)) := by
  rw [← h.map_fst]
  exact cbSpends_of_entries h.entryAt

/-- What an accepted block does to the map: one off for each input that says 1. -/
theorem Validated.smt (hnode : Smt.NodeInjective hs) (hslot : Smt.SlotInjective hs) {M : Counts}
    (hval : Validated hs core w mtp chunks r cb views s stump) (hok : r.bip30Ok = true)
    (hM : w.inSmtRoot = mapRoot hs M) :
    (w.isBip30Block hs = false → M (core.getHash cb) = none) ∧
      r.outSmtRoot = mapRoot hs (M.transition (core.getHash cb)
        (coinbaseOutputs core w mtp cb) (countedSpends core views)) := by
  have hbip := hval.bip30
  rw [hok] at hbip
  obtain ⟨-, hoverwrite, spends, hspends, hwit, happly⟩ := bip30Check_ok hbip
  rw [hval.blockOf.cbSpends_eq] at hspends
  cases hspends
  obtain ⟨-, -, -, hids⟩ := of_decide_eq_true hwit
  rw [hM] at happly
  obtain ⟨hadmissible, hroot⟩ := Smt.applyBlock_sound hnode hslot happly
  refine ⟨fun hblock => ?_, ?_⟩
  · rw [hblock, Option.isSome_eq_false_iff, Option.isNone_iff_eq_none] at hoverwrite
    exact hadmissible.coinbase.trans hoverwrite
  · rw [hroot, ← hids]
    rfl

omit [DecidableEq H] in
/-- The decrements of one txid are fewer than 2³². -/
theorem countedSpends_count_lt (h : w.inputs = (blockSpends core views).map Prod.fst)
    (t : Bytes32) : (countedSpends core views).count t < 2 ^ 32 := by
  have hlen : (countedSpends core views).length ≤ w.inputs.length := by
    rw [h, countedSpends, List.length_map, List.length_map]
    exact List.length_filter_le _ _
  exact lt_of_le_of_lt (List.count_le_length.trans hlen) w.inputs_lt

/-- The decrements for the inputs that say 1 are those for the coinbase leaves, exactly when
    nothing is skipped. -/
theorem BlockOf.transition_eq_iff (h : BlockOf hs core w mtp cb views) {m : Counts} :
    (countedSpends core views).foldl Counts.decrement m =
      (coinbaseSpends core views).foldl Counts.decrement m ↔ NothingSkipped core m views := by
  have hcount := count_coinbaseSpends h.entryAt
  have hsub (t : Bytes32) :
      (countedSpends core views).count t ≤ (coinbaseSpends core views).count t := by
    rw [coinbaseSpends, hcount t]
    exact Nat.le_add_right _ _
  have hperiod (n : UInt32) (t : Bytes32) : period n ≤ (countedSpends core views).count t ↔
      n ≠ 0 ∧ n.toNat ≤ (countedSpends core views).count t := by
    rw [period]
    split
    · rename_i h0
      have hlt := countedSpends_count_lt h.map_fst.symm t
      exact ⟨fun hle => absurd hle (Nat.not_le.mpr hlt), fun hle => absurd h0 hle.1⟩
    · rename_i h0
      exact ⟨fun hle => ⟨h0, hle⟩, And.right⟩
  rw [Smt.foldl_decrement_eq_iff hsub]
  constructor
  · intro hall p hp hflag n hn
    refine (hperiod n _).mp (hall _ ?_ n hn)
    rw [coinbaseSpends, hcount, countedSpends]
    refine Nat.lt_add_of_pos_right (List.count_pos_iff.mpr (List.mem_map.mpr ⟨p, ?_, rfl⟩))
    exact List.mem_filter.mpr ⟨hp, decide_eq_true hflag⟩
  · intro hnone t hlt n hn
    rw [coinbaseSpends, hcount, countedSpends] at hlt
    obtain ⟨p, hp, rfl⟩ := List.mem_map.mp (List.count_pos_iff.mp (Nat.lt_add_right_iff_pos.mp hlt))
    obtain ⟨hp, hflag⟩ := List.mem_filter.mp hp
    exact (hperiod n _).mpr (hnone p hp (of_decide_eq_true hflag) n hn)

/-- **The SMT tracks the unspent coinbase outputs exactly when no flag of 2 or more skips one.** The
    block was proved on a root that stands for the counts `M`. The root it leaves stands for the
    counts after the block if and only if, of each coinbase that an input so flagged spends, the
    inputs flagged 1 take off all that was left. -/
theorem smt_tracks_iff (hnode : Smt.NodeInjective hs) (hslot : Smt.SlotInjective hs)
    {before : Boundary H} {selfId : ImageId} {st : RangeState H} {M : Counts}
    (h : proveRange hs core before w selfId = some st) (hM : st.inSmtRoot = mapRoot hs M) :
    ∃ cb views, BlockOf hs core w (medianTimePast before.recent) cb views ∧
      (st.outSmtRoot = mapRoot hs (M.transition (core.getHash cb)
          (coinbaseOutputs core w (medianTimePast before.recent) cb) (coinbaseSpends core views)) ↔
        NothingSkipped core (Function.update M (core.getHash cb)
          (stored (coinbaseOutputs core w (medianTimePast before.recent) cb))) views) := by
  obtain ⟨r, hr, hextends, rfl⟩ := proveRange_eq_some.mp h
  have hvalid := hextends.valid
  simp only [BlockResult.blockValid, Bool.and_eq_true] at hvalid
  obtain ⟨⟨⟨⟨⟨⟨⟨⟨⟨hok, -⟩, -⟩, -⟩, -⟩, -⟩, -⟩, -⟩, -⟩, hbip30⟩ := hvalid
  obtain ⟨cb, views, s, stump, hval⟩ :=
    validateBlock_ok (fun pre _ => scriptsSound_none pre) hr hok
  obtain ⟨-, hout⟩ := hval.smt hnode hslot hbip30 hM
  refine ⟨cb, views, hval.blockOf, ?_⟩
  dsimp only
  rw [hout, (Smt.mapRoot_injective hnode hslot).eq_iff]
  exact hval.blockOf.transition_eq_iff

end

section

open OpTrue

/-- The spending block says 1 of the coinbase coin that it spends. -/
theorem smt_tracks_iff_spendBlock : ∃ w st cb views,
    proveRange idealHashing OpTrue.core spendBefore w (.replicate 8 0) = some st ∧
      BlockOf idealHashing OpTrue.core w spendMtp cb views ∧
      (st.outSmtRoot = mapRoot idealHashing ((spendSmt idealHashing).get.transition
          (OpTrue.core.getHash cb) (coinbaseOutputs OpTrue.core w spendMtp cb)
          (coinbaseSpends OpTrue.core views)) ↔
        NothingSkipped OpTrue.core (Function.update (spendSmt idealHashing).get
          (OpTrue.core.getHash cb) (stored (coinbaseOutputs OpTrue.core w spendMtp cb))) views) := by
  obtain ⟨wit, r, hr, hvalid, -, hnbits, htime⟩ := spendBlock_accepted spendBlock_sampled
  obtain ⟨st, hst, hin, -⟩ :=
    proveRange_spendBlock hr (spendBlock_extends hvalid hnbits htime)
  obtain ⟨cb, views, hblock, hiff⟩ := smt_tracks_iff Smt.idealHashing_pairInjective
    Smt.idealHashing_slotInjective hst (hin.trans cached_spendSmt.root)
  exact ⟨_, st, cb, views, hst, hblock, hiff⟩

/-- The same block with a 2 passes all checks but, so far, that of BIP30. -/
theorem flagTwo_sampled :
    Sampled idealHashing OpTrue.core (spendBlock 200 2) spendMtp Chunks.none laterTxid [] := by
  constructor <;> decide +kernel

/-- With the flag 2 the same block is accepted, and the spent coinbase keeps its count. -/
theorem flag_two_accepted : ∃ w st cb views,
    proveRange idealHashing OpTrue.core spendBefore w (.replicate 8 0) = some st ∧
      st.inSmtRoot = mapRoot idealHashing (spendSmt idealHashing).get ∧
      BlockOf idealHashing OpTrue.core w spendMtp cb views ∧
      st.outSmtRoot ≠ mapRoot idealHashing ((spendSmt idealHashing).get.transition
        (OpTrue.core.getHash cb) (coinbaseOutputs OpTrue.core w spendMtp cb)
        (coinbaseSpends OpTrue.core views)) := by
  obtain ⟨wit, r, hr, hvalid, -, -, hnbits, htime⟩ :=
    flagTwo_sampled.advance cached_spendSmt spendSmt_laterTxid trivial
  obtain ⟨st, hst, hin, hout⟩ := proveRange_spendBlock hr
    (spendBlock_extends hvalid (hnbits.trans rfl) (htime.trans rfl))
  simp only [BlockResult.blockValid, Bool.and_eq_true] at hvalid
  obtain ⟨⟨⟨⟨⟨⟨⟨⟨⟨hok, -⟩, -⟩, -⟩, -⟩, -⟩, -⟩, -⟩, -⟩, hbip30⟩ := hvalid
  obtain ⟨cb, views, s, stump, hval⟩ :=
    validateBlock_ok (fun pre _ => scriptsSound_none pre) hr hok
  have hblock := hval.blockOf
  have hcached : (spendSmt idealHashing).Cached idealHashing := cached_spendSmt
  have hM : ((spendBlock 200 2).withSmt (spendSmt idealHashing).root wit).inSmtRoot =
      mapRoot idealHashing (spendSmt idealHashing).get := hcached.root
  obtain ⟨-, hsmt⟩ := hval.smt Smt.idealHashing_pairInjective Smt.idealHashing_slotInjective hbip30 hM
  refine ⟨_, st, cb, views, hst, hin.trans cached_spendSmt.root, hblock, ?_⟩
  rw [hout, hsmt, (Smt.mapRoot_injective Smt.idealHashing_pairInjective
    Smt.idealHashing_slotInjective).ne_iff]
  refine hblock.transition_eq_iff.not.mpr fun hnone => ?_
  -- the first input, with its coin
  obtain ⟨p, hp, hinp⟩ : ∃ p ∈ blockSpends OpTrue.core views, (spendBlock 200 2).inputs[0]? = some p.1 := by
    cases hspends : blockSpends OpTrue.core views with
    | nil => exact absurd (hspends ▸ hblock.map_fst) (List.cons_ne_nil _ _).symm
    | cons p ps =>
      have hfst := hspends ▸ hblock.map_fst
      exact ⟨p, List.mem_cons_self, congrArg some (List.cons.inj hfst).1.symm⟩
  have hinp := Option.some.inj hinp
  obtain ⟨raw, hraw, htxid⟩ := (hblock.entryAt p hp).txid
  rw [← hinp] at hraw htxid
  have hraw : (spendBlock 200 2).txs[0]? = some raw := hraw
  have htxid' : txInputPrevoutTxid OpTrue.core spend.serialize 0 = some (some firstTxid) := by
    decide +kernel
  cases hraw
  have hid : p.2.txid = firstTxid := Option.some.inj (Option.some.inj (htxid.symm.trans htxid'))
  have hcounted : countedSpends OpTrue.core views = [] := by
    have hcb := (Bridge.cbSpends_withSmt _ _ _).symm.trans hblock.cbSpends_eq
    exact (Option.some.inj (Option.some.inj (flagTwo_sampled.cbSpends.symm.trans hcb))).symm
  have hcbTx : OpTrue.core.getHash cb = laterTxid := by
    have hlater : OpTrue.core.unserializeTx laterCoinbase.serialize = some laterCoinbase := by
      decide +kernel
    rw [← Option.some.inj (hlater.symm.trans hblock.coinbase)]
    decide +kernel
  have hheld := hnone p hp (hinp ▸ (by decide : (1 : UInt32) < 2)) 1
  rw [hid, hcbTx, hcounted, Function.update_of_ne (by decide +kernel), get_spendSmt,
    Function.update_self] at hheld
  exact absurd (hheld rfl).2 (by decide)

end

end Guest
end Hazync
