import Hazync.Guest.CoinbaseSmt
import Hazync.Guest.NoInflation

/-!
# BIP30 on the chain track

The coinbase SMT says which coinbases have unspent outputs, and a block is checked against the root
that its witness gives. A range commits the root before it and the root after it, and `fold_range`
compares them. A chain state has no such field: what `chain_step` and `aggregate` check a block
against, the host may choose anew for every step. Where it gives every step the root that the step
before came to, no coinbase repeats one that has unspent outputs; with any other root it can.

## What the two tracks commit

A range receipt commits the SMT root before its blocks and after them, and a fold compares the root
in the middle, so along ranges the tree is one tree. A chain state has the tip and the accumulator
and no SMT root. The check of a block against a root is the same, but it is the host that supplies
the root, and nothing ties the root of one step to that of the step before.

The condition, `SmtCarried`, is about what the witnesses say, since that is what the host chooses.
Under it the tree covers what is held (`Covers`): no txid has more unspent coinbase coins than the
tree counts. It is an inequality, for the tree may forget none but can count a coin that is gone:
the guest takes a decrement off only where the entry says that the coin is of a coinbase, by a value
of exactly 1. A tree that counts too much refuses too much, and BIP30 is not the worse for it.
-/

namespace Hazync
namespace Guest

open ByteStrings
open Accumulator (Stump)
open Smt (Counts mapRoot stored)

variable {H : Type}

/-! ## Coinbase coins -/

/-- How many coins there are of coinbases with this txid. -/
def coinbaseCoins (t : Bytes32) (coins : Multiset Coin) : ℕ :=
  coins.countP fun c => c.isCoinbase = true ∧ c.txid = t

/-- How many spendable outputs a transaction has. -/
def outputCount (core : Core) (tx : Transaction) : ℕ :=
  tx.vout.countP fun o => !core.isUnspendable o.scriptPubKey

section

variable {core : Core} {tx : Transaction} {height mtp : UInt32} {t : Bytes32}

/-- A transaction creates as many coins as it has spendable outputs. -/
theorem length_createdCoins (isCb : UInt32) :
    (createdCoins core tx height isCb mtp).length = outputCount core tx := by
  rw [createdCoins, outputCount]
  generalize 0 = k
  generalize core.getHash tx = id
  induction tx.vout generalizing k with
  | nil => rfl
  | cons o vout ih =>
    rw [List.zipIdx_cons, List.filterMap_cons, List.countP_cons, ← ih (k + 1)]
    cases hspendable : core.isUnspendable o.scriptPubKey with
    | true => simp [hspendable]
    | false => simp [hspendable]

/-- A coinbase creates coins with its own txid, any other transaction none of a coinbase. -/
theorem coinbaseCoins_createdCoins :
    coinbaseCoins t ↑(createdCoins core tx height 1 mtp) =
      (if core.getHash tx = t then outputCount core tx else 0) ∧
      coinbaseCoins t ↑(createdCoins core tx height 0 mtp) = 0 := by
  constructor
  · rw [coinbaseCoins, Multiset.coe_countP, ← length_createdCoins 1]
    split
    · rename_i heq
      rw [List.countP_eq_length]
      intro c hc
      obtain ⟨v, o, -, -, rfl⟩ := mem_createdCoins hc
      exact decide_eq_true ⟨rfl, heq⟩
    · rename_i hne
      rw [List.countP_eq_zero]
      intro c hc
      obtain ⟨v, o, -, -, rfl⟩ := mem_createdCoins hc
      simpa using hne
  · rw [coinbaseCoins, Multiset.coe_countP, List.countP_eq_zero]
    intro c hc
    obtain ⟨v, o, -, -, rfl⟩ := mem_createdCoins hc
    simp

/-- The coins of two collections are counted in each. -/
theorem coinbaseCoins_add (a b : Multiset Coin) :
    coinbaseCoins t (a + b) = coinbaseCoins t a + coinbaseCoins t b := Multiset.countP_add _ a b

theorem coinbaseCoins_eq_zero {coins : Multiset Coin} :
    coinbaseCoins t coins = 0 ↔ ∀ c ∈ coins, c.isCoinbase = true → c.txid ≠ t := by
  rw [coinbaseCoins, Multiset.countP_eq_zero]
  simp only [not_and, ne_eq]

/-- Of what a block creates, the coins of a coinbase are those of its own. -/
theorem coinbaseCoins_outputCoins {w : BlockWitness H} {cb : Transaction}
    {views : List (TxView H)} :
    coinbaseCoins t ↑(outputCoins core w mtp cb views) =
      if core.getHash cb = t then outputCount core cb else 0 := by
  have hviews : coinbaseCoins t
      ↑(views.flatMap fun v => createdCoins core v.tx w.height 0 mtp) = 0 := by
    rw [coinbaseCoins_eq_zero]
    intro c hc
    obtain ⟨v, -, hc⟩ := List.mem_flatMap.mp (Multiset.mem_coe.mp hc)
    exact coinbaseCoins_eq_zero.mp coinbaseCoins_createdCoins.2 c hc
  rw [outputCoins, ← Multiset.coe_add, coinbaseCoins_add, hviews, Nat.add_zero]
  exact coinbaseCoins_createdCoins.1

end

/-! ## The counts of the tree -/

/-- `k` decrements take no more than `k` off. -/
theorem toNat_le_left (n : UInt32) (k : ℕ) :
    n.toNat ≤ (Smt.left n k).elim 0 UInt32.toNat + k := by
  have hn : n.toNat ≤ Smt.period n := by
    rw [Smt.period]
    split
    · exact n.toNat_lt.le
    · exact le_rfl
  rw [Smt.left]
  split
  · rename_i hle
    exact (hn.trans hle).trans (Nat.le_add_left _ _)
  · rename_i hlt
    rw [Option.elim_some, UInt32.toNat_ofNat']
    rcases Nat.eq_zero_or_pos n.toNat with h0 | hpos
    · rw [h0]
      exact Nat.zero_le _
    · have hperiod : Smt.period n = n.toNat := by
        rw [Smt.period, if_neg fun h0 => by rw [h0] at hpos; exact absurd hpos (by decide)]
      have hmax := n.toNat_lt
      rw [hperiod, Nat.mod_eq_of_lt (by omega)]
      omega

/-- The count of a txid as a number. -/
def countAt (M : Counts) (t : Bytes32) : ℕ := (M t).elim 0 UInt32.toNat

/-- **The count of a txid after a block.** A coinbase sets the count of its own txid, each spend
    takes one off, and a count at 0 is gone. -/
theorem countAt_transition (M : Counts) (cb : Bytes32) (outputs : UInt32) (spends : List Bytes32)
    (t : Bytes32) : (if cb = t then outputs.toNat else countAt M t) ≤
      countAt (M.transition cb outputs spends) t + spends.count t := by
  have hstart : (if cb = t then outputs.toNat else countAt M t) =
      countAt (Function.update M cb (stored outputs)) t := by
    rw [countAt, countAt]
    split
    · rename_i heq
      subst heq
      rw [Function.update_self, stored]
      split
      · rename_i h0
        rw [h0]
        rfl
      · rfl
    · rename_i hne
      rw [Function.update_of_ne (Ne.symm hne)]
  rw [hstart, countAt, countAt, Counts.transition, Smt.foldl_decrement]
  cases Function.update M cb (stored outputs) t with
  | none => exact Nat.zero_le _
  | some n => exact toNat_le_left n _

/-! ## What a block does to the counts -/

/-- No txid has more unspent coinbase coins than the tree counts, and those are of the coinbase of
one of the blocks. -/
structure Covers (core : Core) (blocks : List (Checked H)) (coins : List Coin) (M : Counts) :
    Prop where
  counted : ∀ t, coinbaseCoins t ↑coins ≤ countAt M t
  source : ∀ c ∈ coins, c.isCoinbase = true → ∃ x ∈ blocks, ∃ tx,
    core.unserializeTx x.1.coinbaseTx = some tx ∧ core.getHash tx = c.txid ∧
      coinbaseCoins c.txid ↑coins ≤ outputCount core tx

/-- No two coinbases of the blocks have one txid and different outputs. -/
def CoinbasesApart (core : Core) (blocks : List (Checked H)) : Prop :=
  ∀ x ∈ blocks, ∀ y ∈ blocks, ∀ tx ty, core.unserializeTx x.1.coinbaseTx = some tx →
    core.unserializeTx y.1.coinbaseTx = some ty → core.getHash tx = core.getHash ty →
      tx.vout = ty.vout

section

variable [DecidableEq H] {hs : Hashing H} {core : Core} {w : BlockWitness H} {mtp : UInt32}
  {chunks : Chunks H} {r : BlockResult H} {cb : Transaction} {views : List (TxView H)}
  {s : LoopState H} {stump : Stump H} {b : Boundary H} {blocks : List (Checked H)}
  {coins : List Coin} {M : Counts}

/-- The decrements are for coinbase coins that are spent. -/
theorem BlockOf.count_countedSpends_le (h : BlockOf hs core w mtp cb views) (t : Bytes32) :
    (countedSpends core views).count t ≤ coinbaseCoins t ↑(spentCoins core views) := by
  have hcoins : (blockSpends core views).map Prod.snd = spentCoins core views := by
    rw [blockSpends, List.map_flatMap, spentCoins]
    exact List.flatMap_congr fun v _ => List.map_snd_zip (v.length_coins_le core)
  have hcount := count_coinbaseSpends h.entryAt t
  have hspent : ((((blockSpends core views).filter fun p => p.2.isCoinbase).map
      fun p => p.2.txid).count t) = coinbaseCoins t ↑(spentCoins core views) := by
    rw [← hcoins, coinbaseCoins, Multiset.coe_countP, List.countP_map, List.count, List.countP_map,
      List.countP_filter]
    apply List.countP_congr
    intro p _
    simp [and_comm]
  rw [← hspent, hcount, countedSpends]
  exact Nat.le_add_right _ _

/-- The coins that a grandfathered coinbase overwrites are as many as it has outputs. -/
theorem Validated.coinbaseCoins_overwritten
    (hval : Validated hs core w mtp chunks r cb views s stump) (hblock : w.isBip30Block hs = true) :
    coinbaseCoins (core.getHash cb) ↑(overwrittenCoins core w cb) = outputCount core cb := by
  obtain ⟨hsome, -⟩ := bip30Overwrite_ok hval.coinbase hval.overwrite
  rw [hblock] at hsome
  obtain ⟨ov, hov⟩ := Option.isSome_iff_exists.mp hsome
  rw [overwrittenCoins, hov]
  dsimp only
  rw [coinbaseCoins_createdCoins.1, if_pos rfl]

omit [DecidableEq H] in
/-- What the tree does not have has no unspent outputs. -/
theorem Covers.fresh (h : Covers core blocks coins M) {t : Bytes32} (hM : M t = none) :
    coinbaseCoins t ↑coins = 0 := by
  have hle := h.counted t
  rw [countAt, hM] at hle
  exact Nat.le_zero.mp hle

/-- **A block that is checked against the tree of the counts keeps them.** -/
theorem Covers.step (hleaf : hs.LeafInjective) (hnode : hs.NodeInjective)
    (hsnode : Smt.NodeInjective hs) (hslot : Smt.SlotInjective hs) (h : Covers core blocks coins M)
    (hapart : CoinbasesApart core (blocks ++ [(w, r)]))
    (hval : Validated hs core w mtp chunks r cb views s stump) (he : Extends core b w.height w r)
    (hcoins : Stump.Holds hs b.stump coins) (hin : w.inSmtRoot = mapRoot hs M) :
    ∃ coins' M', Stump.Holds hs (b.next w.height r).stump coins' ∧
      Covers core (blocks ++ [(w, r)]) coins' M' ∧ r.outSmtRoot = mapRoot hs M' := by
  obtain ⟨coins', hholds, hle⟩ := he.conserves hleaf hnode hval hcoins
  have hbip30 := (blockValid_iff.mp he.valid).1.2.2
  obtain ⟨hfresh, hout⟩ := hval.smt hsnode hslot hbip30 hin
  have hsplit (t : Bytes32) : coinbaseCoins t ↑coins' + (coinbaseCoins t ↑(spentCoins core views) +
      coinbaseCoins t ↑(overwrittenCoins core w cb)) ≤ coinbaseCoins t ↑coins +
        if core.getHash cb = t then outputCount core cb else 0 := by
    have hcount := Multiset.countP_le_of_le (fun c : Coin => c.isCoinbase = true ∧ c.txid = t) hle
    rw [Multiset.countP_add, Multiset.countP_add, Multiset.countP_add] at hcount
    have hcreated : coinbaseCoins t ↑(outputCoins core w mtp cb views) =
        if core.getHash cb = t then outputCount core cb else 0 := coinbaseCoins_outputCoins
    rwa [← hcreated]
  -- of the txid of the coinbase there is nothing left but the new outputs
  have hnew : coinbaseCoins (core.getHash cb) ↑coins' +
      coinbaseCoins (core.getHash cb) ↑(spentCoins core views) ≤ outputCount core cb := by
    have hcb := hsplit (core.getHash cb)
    rw [if_pos rfl] at hcb
    cases hblock : w.isBip30Block hs with
    | false =>
      have hzero := h.fresh (hfresh hblock)
      omega
    | true =>
      rw [hval.coinbaseCoins_overwritten hblock] at hcb
      have hold : coinbaseCoins (core.getHash cb) ↑coins ≤ outputCount core cb := by
        rcases Nat.eq_zero_or_pos (coinbaseCoins (core.getHash cb) ↑coins) with h0 | hpos
        · rw [h0]
          exact Nat.zero_le _
        · obtain ⟨c, hc, hcoinbase, htxid⟩ := Multiset.countP_pos.mp hpos
          obtain ⟨x, hx, tx, htx, hid, hbound⟩ := h.source c hc hcoinbase
          rw [htxid] at hid hbound
          have hvout := hapart x (List.mem_append_left _ hx) (w, r) (by simp) tx cb htx
            hval.coinbase hid
          rwa [outputCount, hvout] at hbound
      omega
  refine ⟨coins', _, hholds, ⟨fun t => ?_, fun c hc hcoinbase => ?_⟩, hout⟩
  · have hcounted := hval.blockOf.count_countedSpends_le t
    have htree := countAt_transition M (core.getHash cb) (coinbaseOutputs core w mtp cb)
      (countedSpends core views) t
    have hold := h.counted t
    have ht := hsplit t
    split at htree
    · rename_i heq
      subst heq
      have houtputs : (coinbaseOutputs core w mtp cb).toNat = outputCount core cb := by
        rw [coinbaseOutputs, length_createdCoins, UInt32.toNat_ofNat', Nat.mod_eq_of_lt]
        exact lt_of_le_of_lt List.countP_le_length cb.vout_lt
      rw [houtputs] at htree
      omega
    · rename_i hne
      rw [if_neg hne] at ht
      omega
  · by_cases heq : core.getHash cb = c.txid
    · refine ⟨(w, r), by simp, cb, hval.coinbase, heq, ?_⟩
      rw [← heq]
      exact (Nat.le_add_right _ _).trans hnew
    · have ht := hsplit c.txid
      rw [if_neg heq] at ht
      have hpos : 0 < coinbaseCoins c.txid ↑coins' :=
        Multiset.countP_pos.mpr ⟨c, hc, hcoinbase, rfl⟩
      obtain ⟨d, hd, hdcb, hdtxid⟩ := Multiset.countP_pos.mp
        (show 0 < coinbaseCoins c.txid ↑coins by omega)
      obtain ⟨x, hx, tx, htx, hid, hbound⟩ := h.source d hd hdcb
      rw [hdtxid] at hid hbound
      exact ⟨x, List.mem_append_left _ hx, tx, htx, hid, by omega⟩

/-! ## A run -/

/-- The root that each block is checked against is the one that the block before came to, and the
empty one for the first. -/
def SmtCarried (hs : Hashing H) (blocks : List (Checked H)) : Prop :=
  ∀ pre x post, blocks = pre ++ x :: post →
    x.1.inSmtRoot = pre.getLast?.elim (Smt.emptyRoot hs) fun y => y.2.outSmtRoot

/-- The coinbase has the txid of a coinbase that has a coin among those held. -/
def Repeats (hs : Hashing H) (core : Core) (s : Stump H) (w : BlockWitness H) : Prop :=
  ∃ coins c cb, Stump.Holds hs s coins ∧ c ∈ coins ∧ c.isCoinbase = true ∧
    core.unserializeTx w.coinbaseTx = some cb ∧ core.getHash cb = c.txid

variable {b₀ : Boundary H}

/-- In a run whose roots are carried, the tree covers what is held. -/
theorem Run.covers (hleaf : hs.LeafInjective) (hnode : hs.NodeInjective)
    (hsnode : Smt.NodeInjective hs) (hslot : Smt.SlotInjective hs) (hempty : b₀.Empty)
    (h : Run hs core b₀ blocks b) (hapart : CoinbasesApart core blocks)
    (hcarried : SmtCarried hs blocks) :
    ∃ coins M, Stump.Holds hs b.stump coins ∧ Covers core blocks coins M ∧
      (blocks.getLast?.elim (Smt.emptyRoot hs) fun y => y.2.outSmtRoot) = mapRoot hs M := by
  induction h with
  | nil =>
    refine ⟨[], fun _ => none, hempty.holds, ⟨fun t => le_refl _, ?_⟩, ?_⟩
    · intro c hc
      cases hc
    · have hnew : (Smt.new hs).Cached hs := Smt.cached_new
      exact hnew.root
  | @snoc blocks b b' w r hrun hagrees haccepts _ ih =>
    obtain ⟨coins, M, hcoins, hcovers, hroot⟩ := ih
      (fun x hx y hy => hapart x (List.mem_append_left _ hx) y (List.mem_append_left _ hy))
      (fun pre x post heq => hcarried pre x (post ++ [(w, r)]) (by rw [heq]; simp))
    obtain ⟨he, chunks, cb, views, s, stump, hval⟩ := haccepts.validated
    have hin : w.inSmtRoot = mapRoot hs M := (hcarried blocks (w, r) [] rfl).trans hroot
    obtain ⟨coins', M', hcoins', hcovers', hout⟩ :=
      hcovers.step hleaf hnode hsnode hslot hapart hval he (hagrees.below hcoins) hin
    refine ⟨coins', M', hcoins', hcovers', ?_⟩
    rw [List.getLast?_concat]
    exact hout

end

/-- **On the chain track no coinbase repeats one with unspent outputs, where every step is given the
root that the step before came to.** -/
theorem bip30_of_carried [DecidableEq H] {hs : Hashing H} {core : Core} {zkvm : Zkvm H}
    {methodId : ImageId} (hinj : Function.Injective hs.dsha256)
    (hchunks : zkvm.ChunksSound hs core methodId) (hleaf : hs.LeafInjective)
    (hnode : hs.NodeInjective) (hsnode : Smt.NodeInjective hs) (hslot : Smt.SlotInjective hs)
    {blocks : List (Checked H)} {st : ChainState H} (h : ChainRun hs core zkvm methodId blocks st)
    (hapart : CoinbasesApart core blocks) (hcarried : SmtCarried hs blocks) :
    ∀ pre x post prev, blocks = pre ++ x :: post → ChainRun hs core zkvm methodId pre prev →
      x.1.isBip30Block hs = false → ¬ Repeats hs core prev.tip.stump x.1 := by
  intro pre x post prev heq hprev hblock hrepeats
  obtain ⟨coins, c, cb', hcoins, hc, hcoinbase, hcb', htxid⟩ := hrepeats
  have hempty : (genesisTip : Boundary H).Empty := ⟨rfl, rfl⟩
  subst heq
  have hrun := (h.run hinj hchunks).1
  rw [List.append_cons] at hrun
  obtain ⟨b₁, hrun⟩ := hrun.of_append
  obtain ⟨b, b', hbefore, hagrees, haccepts, -⟩ := hrun.eq_snoc
  obtain rfl := hbefore.unique (hprev.run hinj hchunks).1
  obtain ⟨he, chunks, cb, views, s, stump, hval⟩ := haccepts.validated
  obtain rfl := Option.some.inj (hval.coinbase.symm.trans hcb')
  obtain ⟨coins', M, hcoins', hcovers, hroot⟩ := hbefore.covers hleaf hnode hsnode hslot hempty
    (fun y hy z hz => hapart y (List.mem_append_left _ hy) z (List.mem_append_left _ hz))
    (fun pre' y post' heq => hcarried pre' y (post' ++ x :: post) (by rw [heq]; simp))
  obtain rfl := hcoins'.unique hleaf hnode hcoins
  have hin : x.1.inSmtRoot = mapRoot hs M := (hcarried pre x post rfl).trans hroot
  obtain ⟨hfresh, -⟩ := hval.smt hsnode hslot (blockValid_iff.mp he.valid).1.2.2 hin
  exact coinbaseCoins_eq_zero.mp (hcovers.fresh (hfresh hblock)) c hc hcoinbase htxid.symm

namespace OpTrue

/-- The sample's zkVM has proved chunks that ran. -/
theorem chunksSound_zkvm : zkvm.ChunksSound idealHashing core (.replicate 8 0) := by
  intro journal out _ hout
  cases hout

/-- The first block as a step of the chain, checked against the empty tree. -/
theorem chainRun_block1 : ∃ wit r st,
    ChainRun idealHashing core zkvm (.replicate 8 0)
        [(block1.withSmt (Smt.emptyRoot idealHashing) wit, r)] st ∧
      st.kind = KIND_CHAIN ∧ st.selfId = .replicate 8 0 ∧ st.height = 1 ∧ st.tip = afterBlock1 ∧
      r.outSmtRoot = (spendSmt idealHashing).root := by
  obtain ⟨wit, st₁, h₁, -, -, -, -, hout, hafter⟩ := proveRange_block1
  obtain ⟨r, hr, he, rfl⟩ := proveRange_eq_some.mp h₁
  obtain ⟨st, hrun, hkind, hself, hheight, htip⟩ := chainRun_step .genesis rfl rfl rfl hr he
  exact ⟨wit, r, st, hrun, hkind, hself, hheight, htip.trans hafter, hout⟩

theorem unserializeTx_firstCoinbase :
    core.unserializeTx firstCoinbase.serialize = some firstCoinbase := rfl

theorem unserializeTx_laterCoinbase :
    core.unserializeTx laterCoinbase.serialize = some laterCoinbase := rfl

/-- The first two blocks, each checked against the tree that the one before came to. -/
theorem bip30_of_carried_blocks : ∃ blocks st,
    ChainRun idealHashing core zkvm (.replicate 8 0) blocks st ∧ blocks.length = 2 ∧
      ∀ pre x post prev, blocks = pre ++ x :: post →
        ChainRun idealHashing core zkvm (.replicate 8 0) pre prev →
        x.1.isBip30Block idealHashing = false → ¬ Repeats idealHashing core prev.tip.stump x.1 := by
  -- block 1, and block 2 on top of it
  obtain ⟨wit, r, st, hrun, hkind, hself, hheight, htip, hout⟩ := chainRun_block1
  obtain ⟨wit', st', hst', -⟩ := proveRange_block2
  obtain ⟨r', hr', he', -⟩ := proveRange_eq_some.mp hst'
  obtain ⟨st₂, hrun₂, -⟩ := chainRun_step hrun hkind hself
    (by rw [hheight]; rfl) (htip ▸ hr') (htip ▸ he')
  -- the SMT root of block 1 is the one that block 2 starts with
  have hcarried : SmtCarried idealHashing
      [(block1.withSmt (Smt.emptyRoot idealHashing) wit, r),
        (block2.withSmt (spendSmt idealHashing).root wit', r')] := by
    intro pre x post heq
    match pre, heq with
    | [], heq =>
      obtain rfl := (List.cons.inj heq).1
      rfl
    | [y], heq =>
      obtain ⟨rfl, htail⟩ := List.cons.inj heq
      obtain rfl := (List.cons.inj htail).1
      exact hout.symm
    | _ :: _ :: y :: pre, heq => simp at heq
    | _ :: _ :: [], heq => simp at heq
  -- the two coinbases have different txids
  have hapart : CoinbasesApart core
      [(block1.withSmt (Smt.emptyRoot idealHashing) wit, r),
        (block2.withSmt (spendSmt idealHashing).root wit', r')] := by
    have hne : core.getHash firstCoinbase ≠ core.getHash laterCoinbase := by decide +kernel
    intro x hx y hy tx ty htx hty hid
    have hof (z : Checked Bytes) (hz : z ∈ [(block1.withSmt (Smt.emptyRoot idealHashing) wit, r),
        (block2.withSmt (spendSmt idealHashing).root wit', r')]) (tz : Transaction)
        (htz : core.unserializeTx z.1.coinbaseTx = some tz) :
        tz = firstCoinbase ∨ tz = laterCoinbase := by
      rcases List.mem_pair.mp hz with rfl | rfl
      · exact .inl (Option.some.inj (htz.symm.trans unserializeTx_firstCoinbase))
      · exact .inr (Option.some.inj (htz.symm.trans unserializeTx_laterCoinbase))
    rcases hof x hx tx htx with rfl | rfl
    · rcases hof y hy ty hty with rfl | rfl
      · rfl
      · exact absurd hid hne
    · rcases hof y hy ty hty with rfl | rfl
      · exact absurd hid.symm hne
      · rfl
  exact ⟨_, st₂, hrun₂, rfl, bip30_of_carried idealHashing_dsha256_injective chunksSound_zkvm
    (idealHashing_tagInjective TAG_LEAF) (idealHashing_tagInjective TAG_NODE)
    Smt.idealHashing_pairInjective Smt.idealHashing_slotInjective hrun₂ hapart hcarried⟩

/-- A second block with the coinbase of the first. -/
def repeatBlock : BlockWitness Bytes :=
  coinbaseBlock firstCoinbase nullHash 2 1231469744 spendMtp spendRootPrev

/-- Every flag of its check holds, but for that of the BIP30 check. -/
theorem repeatBlock_sampled :
    Sampled idealHashing core repeatBlock spendMtp Chunks.none firstTxid [] := by
  constructor <;> decide +kernel

/-- The coin of the first block is what is held after it. -/
theorem holds_afterBlock1 : Stump.Holds idealHashing afterBlock1.stump
    [⟨firstTxid, 0, 5000000000, [0x51], 1, true, genesisTime⟩] :=
  ⟨spendRootPrev, ⟨rfl, fun _ _ => by rw [Option.map_id]; rfl⟩, commits_spendRootPrev⟩

/-- Against the empty tree the second block passes, with the coin of the first one unspent. -/
theorem repeated_coinbase_accepted : ∃ x y st₁ st₂,
    ChainRun idealHashing core zkvm (.replicate 8 0) [x] st₁ ∧
      ChainRun idealHashing core zkvm (.replicate 8 0) [x, y] st₂ ∧
      y.1.isBip30Block idealHashing = false ∧ y.1.inSmtRoot ≠ x.2.outSmtRoot ∧
      Repeats idealHashing core st₁.tip.stump y.1 := by
  obtain ⟨wit, r, st, hrun, hkind, hself, hheight, htip, hout⟩ := chainRun_block1
  obtain ⟨wit', r', hr', hvalid, -, -⟩ := repeatBlock_sampled.advance Smt.cached_new rfl trivial
  obtain ⟨st', hst', -⟩ := proveRange_accepted afterBlock1 hr' hvalid rfl rfl rfl rfl
    (by decide : spendMtp < repeatBlock.blockTime)
  obtain ⟨r'', hr'', he'', -⟩ := proveRange_eq_some.mp hst'
  obtain ⟨st₂, hrun₂, -⟩ := chainRun_step hrun hkind hself
    (by rw [hheight]; rfl) (htip ▸ hr'') (htip ▸ he'')
  refine ⟨_, _, st, st₂, hrun, hrun₂, repeatBlock_sampled.isBip30Block, ?_, ?_⟩
  · rw [hout]
    show (Smt.new idealHashing).root ≠ _
    rw [Smt.cached_new.root, cached_spendSmt.root, get_spendSmt,
      (Smt.mapRoot_injective Smt.idealHashing_pairInjective Smt.idealHashing_slotInjective).ne_iff]
    intro heq
    have hfirst := congrFun heq firstTxid
    rw [Function.update_self] at hfirst
    cases hfirst
  · rw [htip]
    have hid : core.getHash firstCoinbase = firstTxid := rfl
    exact ⟨_, _, firstCoinbase, holds_afterBlock1, List.mem_singleton_self _, rfl,
      unserializeTx_firstCoinbase, hid⟩

end OpTrue
end Guest
end Hazync
