import Hazync.Guest.Accepted
import Hazync.Lib.Runs

/-!
# The walk over the inputs, when every check passes

A round that leaves `allOk` set has passed each of its checks, and changes the state in one way
only (`stepInput_ok`). Over the entries of one transaction (`walkView_ok`) and then over all of
them (`walkViews_ok`) the rounds add up: one result of each script, one fee and one pair of
checks for each transaction, and a chain of spends, one coin after the other.

## From rounds to transactions

A round of the walk does several things to a state of ten fields, and most of them may clear
`allOk`. Since a cleared flag is never set again, a walk that ends with it set has had it set all
along, and every round is one in which all checks passed. For those `stepInput_ok` says what the
round does, once, as one equation for the new state. Everything after is adding up: the rounds after
the first of a transaction (`walkTail_ok`), a whole transaction (`walkView_ok`), and all of them
(`walkViews_ok`).

## Two sources of a script's result

Without chunks the script is run by Core in the round itself. With chunks its result is looked up,
after the digest of the block's own bytes has been compared. `ScriptsSound` is what the walk needs
of either: a result of 1 is of these bytes, and the leaf is of the coin that the input names. So the
induction over the walk is done once, and the two sources prove the hypothesis. The digest of a
transaction is cached between its inputs, and the cache is right as long as it is of the block's own
bytes (`CacheOk`).
-/

namespace Hazync
namespace Guest

open ByteStrings
open Accumulator (Proof Stump normalize)

variable {H : Type}

/-! ## What a view's inputs spend -/

/-- The coins its blob of prevouts lists. -/
def TxView.spent (core : Core) (v : TxView H) : List TxOut :=
  (core.unserializeOuts v.prevouts.1).getD []

/-- The coins behind its inputs, in order. -/
def TxView.coins (core : Core) (v : TxView H) : List Coin :=
  (v.inputs.zip (v.tx.vin.zip (v.spent core))).map fun (inp, txin, out) => inp.ref.coin txin out

/-- What `check_tx` makes of its fee. -/
def TxView.fee (core : Core) (v : TxView H) : Int64 :=
  ((checkTx core v.raw.1 v.prevouts.1).map Prod.snd).getD 0

/-- The calls made for one of its entries: with chunks, those of the whole transaction only. -/
def TxView.callsFor (hs : Hashing H) (w : BlockWitness H) (mtp : UInt32) (chunks : Chunks H)
    (v : TxView H) (inp : BlockInput H) : List Call :=
  (if chunks.binds.isNone then [.verifyInput v.raw.1 inp.ref v.prevouts.1 (w.flags hs) 1]
    else []) ++
    ((if inp.txFirst = 1 then
        [.checkTx v.raw.1 v.prevouts.1 1, .isFinalTx v.raw.1 w.height (w.lockTime mtp) 1]
      else []) ++
      if chunks.binds.isNone then [.checkInputLocks v.raw.1 inp.ref w.height mtp 1] else [])

/-- One spend: the position of the spending transaction, its entry, and the leaf. -/
structure SpendItem (H : Type) where
  curTx : UInt32
  inp : BlockInput H
  coin : Coin

/-- What an accepted spend does to the accumulator and the set of coins spent in the block. -/
inductive Spends [DecidableEq H] (hs : Hashing H) (createdAt : List (H × UInt32)) :
    Stump H × List H → SpendItem H → Stump H × List H → Prop
  | inBlock {stump : Stump H} {spentInBlock : List H} {i : SpendItem H} {creator : UInt32} :
      createdAt.lookup (i.coin.leaf hs) = some creator → creator < i.curTx →
      i.coin.leaf hs ∉ spentInBlock →
      Spends hs createdAt (stump, spentInBlock) i (stump, i.coin.leaf hs :: spentInBlock)
  | external {stump stump' : Stump H} {spentInBlock : List H} {i : SpendItem H} :
      createdAt.lookup (i.coin.leaf hs) = none →
      Stump.delete hs.parent stump i.inp.globalPos
        { i.inp.proofI with leaf := i.coin.leaf hs } i.inp.proofLast = some (true, stump') →
      Spends hs createdAt (stump, spentInBlock) i (stump', spentInBlock)

/-- Spends one after the other. -/
inductive SpendsAll [DecidableEq H] (hs : Hashing H) (createdAt : List (H × UInt32)) :
    Stump H × List H → List (SpendItem H) → Stump H × List H → Prop
  | nil {a : Stump H × List H} : SpendsAll hs createdAt a [] a
  | cons {a b c : Stump H × List H} {i : SpendItem H} {items : List (SpendItem H)} :
      Spends hs createdAt a i b → SpendsAll hs createdAt b items c →
      SpendsAll hs createdAt a (i :: items) c

/-- The spends of one transaction. -/
def TxView.items (core : Core) (curTx : UInt32) (v : TxView H) : List (SpendItem H) :=
  (v.inputs.zip (v.coins core)).map fun (inp, coin) => ⟨curTx, inp, coin⟩

/-- The spends of the transactions from position `pos` on. -/
def itemsFrom (core : Core) : ℕ → List (TxView H) → List (SpendItem H)
  | _, [] => []
  | pos, v :: views => v.items core (UInt32.ofNat pos) ++ itemsFrom core (pos + 1) views

section

variable [DecidableEq H] {hs : Hashing H} {core : Core} {w : BlockWitness H} {mtp : UInt32}

/-- Spends in two stretches. -/
theorem SpendsAll.append {createdAt : List (H × UInt32)} {a b c : Stump H × List H}
    {xs ys : List (SpendItem H)} (h : SpendsAll hs createdAt a xs b)
    (h' : SpendsAll hs createdAt b ys c) : SpendsAll hs createdAt a (xs ++ ys) c := by
  induction h with
  | nil => exact h'
  | cons hstep _ ih => exact .cons hstep (ih h')

/-! ## One round -/

/-- The wrapper returns 1 where Core has no error. -/
theorem scriptResult_eq_one {tx : Transaction} {i : ℕ} {spent : List TxOut} {flags : UInt32} :
    scriptResult core tx i spent flags = 1 ↔ core.verifyScript tx i spent flags = none := by
  rw [scriptResult]
  cases core.verifyScript tx i spent flags with
  | none => simp
  | some err =>
    constructor
    · intro h
      have : -(err : Int) - 1 = 1 := h
      lia
    · intro h
      cases h

/-- The script of an input verified on these bytes: the input has a coin, and `leaf` is the leaf
    of that coin. -/
def ScriptOk (hs : Hashing H) (core : Core) (flags : UInt32) (raw prevouts : Bytes)
    (ref : InputRef) (leaf : H) : Prop :=
  ∃ tx spent txin out, core.unserializeTx raw = some tx ∧
    core.unserializeOuts prevouts = some spent ∧ spent.length = tx.vin.length ∧
    tx.vin[ref.inputIdx.toNat]? = some txin ∧ spent[ref.inputIdx.toNat]? = some out ∧
    core.verifyScript tx ref.inputIdx.toNat spent flags = none ∧
    leaf = (ref.coin txin out).leaf hs

omit [DecidableEq H] in
/-- A result of 1 is of a script that was verified, and comes with the leaf of the coin. -/
theorem verifyInput_ok {raw prevouts : Bytes} {ref : InputRef} {flags : UInt32} {leaf : H}
    (h : verifyInput hs core raw ref prevouts flags = some (1, leaf)) :
    ScriptOk hs core flags raw prevouts ref leaf := by
  obtain ⟨tx, htx, h⟩ := Option.bind_eq_some_iff.mp h
  obtain ⟨spent, hspent, h⟩ := Option.bind_eq_some_iff.mp h
  split at h
  · simp at h
  rename_i hidx
  obtain ⟨hlt, hlen⟩ := not_or.mp hidx
  obtain ⟨hr, hleaf⟩ := Prod.mk.inj (Option.some.inj h)
  have hlen := not_not.mp hlen
  have hlt := Nat.lt_of_not_le hlt
  obtain ⟨out, hout⟩ : ∃ out, spent[ref.inputIdx.toNat]? = some out :=
    ⟨_, List.getElem?_eq_getElem hlt⟩
  obtain ⟨txin, htxin⟩ : ∃ txin, tx.vin[ref.inputIdx.toNat]? = some txin :=
    ⟨_, List.getElem?_eq_getElem (hlen ▸ hlt)⟩
  refine ⟨tx, spent, txin, out, htx, hspent, hlen, htxin, hout, scriptResult_eq_one.mp hr, ?_⟩
  rw [← hleaf, coinLeaf, hout, Option.bind_eq_bind, Option.bind_some, htxin]
  rfl

omit [DecidableEq H] in
/-- The checks of a first input, when they pass: what was asked of Core, and the fee that is
    added. -/
theorem checkFirst_ok {s s' : LoopState H} {inp : BlockInput H} {raw prevouts : Bytes}
    (h : checkFirst core w mtp s inp raw prevouts = some s') (hok : s'.allOk = true) :
    s.allOk = true ∧
      (inp.txFirst = 1 → ∃ fee, checkTx core raw prevouts = some (1, fee) ∧
        isFinalTx core raw w.height (w.lockTime mtp) = some 1 ∧
        s' = { s with
          txChecks := s.txChecks ++ [1]
          totalFee := s.totalFee + fee
          calls := s.calls ++ [.checkTx raw prevouts 1,
            .isFinalTx raw w.height (w.lockTime mtp) 1] }) ∧
      (inp.txFirst ≠ 1 → s' = s) := by
  rw [checkFirst] at h
  by_cases hfirst : inp.txFirst = 1
  · rw [if_pos hfirst] at h
    obtain ⟨⟨c, fee⟩, hc, h⟩ := Option.bind_eq_some_iff.mp h
    obtain ⟨final, hfinal, h⟩ := Option.bind_eq_some_iff.mp h
    cases h
    simp only [LoopState.require, LoopState.log, Bool.and_eq_true, decide_eq_true_eq] at hok
    obtain ⟨hall, rfl, rfl⟩ := hok
    refine ⟨hall, fun _ => ⟨fee, hc, hfinal, ?_⟩, fun hne => absurd hfirst hne⟩
    simp [LoopState.require, LoopState.log, hall]
  · rw [if_neg hfirst] at h
    cases h
    exact ⟨hok, fun h => absurd h hfirst, fun _ => rfl⟩

omit [DecidableEq H] in
/-- The check of the locks, when it passes. -/
theorem checkLocks_ok {chunks : Chunks H} {s s' : LoopState H} {pre : PrePass H}
    {inp : BlockInput H} {idx : ℕ} {raw : Bytes}
    (h : checkLocks core w mtp chunks pre s inp idx raw = some s') (hok : s'.allOk = true) :
    s.allOk = true ∧
      (chunks.binds = none → checkInputLocks core raw inp.ref w.height mtp = some 1) ∧
      (chunks.binds.isSome = true → pre.locks[idx]? = some 1) ∧
      s' = { s with calls := s.calls ++
        if chunks.binds.isNone then [.checkInputLocks raw inp.ref w.height mtp 1] else [] } := by
  rw [checkLocks] at h
  cases hbinds : chunks.binds with
  | none =>
    rw [hbinds] at h
    obtain ⟨locks, hlocks, h⟩ := Option.bind_eq_some_iff.mp h
    cases h
    simp only [LoopState.require, LoopState.log, Bool.and_eq_true, decide_eq_true_eq] at hok
    obtain ⟨hall, rfl⟩ := hok
    refine ⟨hall, fun _ => hlocks, by simp, ?_⟩
    simp [LoopState.require, LoopState.log, hall]
  | some b =>
    rw [hbinds] at h
    obtain ⟨locks, hlocks, h⟩ := Option.bind_eq_some_iff.mp h
    cases h
    simp only [LoopState.require, Bool.and_eq_true, decide_eq_true_eq] at hok
    obtain ⟨hall, rfl⟩ := hok
    refine ⟨hall, by simp, fun _ => hlocks, ?_⟩
    simp [LoopState.require, hall]

/-- A spend that leaves the flag set found it set. -/
theorem spendCoin_allOk {createdAt : List (H × UInt32)} {s s' : LoopState H}
    {inp : BlockInput H} {leaf : H} (h : spendCoin hs createdAt s inp leaf = some s')
    (hok : s'.allOk = true) : s.allOk = true := by
  rw [spendCoin] at h
  split at h
  · cases h
    simp only [Bool.and_eq_true] at hok
    exact hok.1.1
  · obtain ⟨⟨ok, stump⟩, -, h⟩ := Option.bind_eq_some_iff.mp h
    cases h
    simp only [Bool.and_eq_true] at hok
    exact hok.1.1

omit [DecidableEq H] in
/-- The checks of a first input do not touch the cache. -/
theorem checkFirst_bindCache {s s' : LoopState H} {inp : BlockInput H} {raw prevouts : Bytes}
    (h : checkFirst core w mtp s inp raw prevouts = some s') : s'.bindCache = s.bindCache := by
  rw [checkFirst] at h
  split at h
  · obtain ⟨_, -, h⟩ := Option.bind_eq_some_iff.mp h
    obtain ⟨_, -, h⟩ := Option.bind_eq_some_iff.mp h
    cases h
    rfl
  · cases h
    rfl

omit [DecidableEq H] in
/-- Nor does the check of the locks. -/
theorem checkLocks_bindCache {chunks : Chunks H} {s s' : LoopState H} {pre : PrePass H}
    {inp : BlockInput H} {idx : ℕ} {raw : Bytes}
    (h : checkLocks core w mtp chunks pre s inp idx raw = some s') :
    s'.bindCache = s.bindCache := by
  rw [checkLocks] at h
  split at h
  all_goals
    obtain ⟨_, -, h⟩ := Option.bind_eq_some_iff.mp h
    cases h
    rfl

/-- Nor does a spend. -/
theorem spendCoin_bindCache {createdAt : List (H × UInt32)} {s s' : LoopState H}
    {inp : BlockInput H} {leaf : H} (h : spendCoin hs createdAt s inp leaf = some s') :
    s'.bindCache = s.bindCache := by
  rw [spendCoin] at h
  split at h
  · cases h
    rfl
  · obtain ⟨_, -, h⟩ := Option.bind_eq_some_iff.mp h
    cases h
    rfl

/-- A spend that passes is one of the two kinds, and changes nothing else. -/
theorem spendCoin_ok {createdAt : List (H × UInt32)} {s s' : LoopState H} {inp : BlockInput H}
    {coin : Coin} (h : spendCoin hs createdAt s inp (coin.leaf hs) = some s')
    (hok : s'.allOk = true) :
    s.allOk = true ∧
      Spends hs createdAt (s.stump, s.spentInBlock) ⟨s.curTx, inp, coin⟩
        (s'.stump, s'.spentInBlock) ∧
      s' = { s with stump := s'.stump, spentInBlock := s'.spentInBlock } := by
  rw [spendCoin] at h
  cases hc : createdAt.lookup (coin.leaf hs) with
  | some creator =>
    rw [hc] at h
    cases h
    simp only [Bool.and_eq_true, decide_eq_true_eq] at hok
    refine ⟨hok.1.1, .inBlock hc hok.1.2 hok.2, ?_⟩
    simp [hok.1.1, hok.1.2, hok.2]
  | none =>
    rw [hc] at h
    obtain ⟨⟨ok, stump⟩, hdelete, h⟩ := Option.bind_eq_some_iff.mp h
    cases h
    simp only [Bool.and_eq_true, decide_eq_true_eq] at hok
    obtain ⟨⟨hs, hleaf⟩, rfl⟩ := hok
    refine ⟨hs, .external hc hdelete, ?_⟩
    simp [hs, hleaf]

omit [DecidableEq H] in
/-- An entry of the transaction resolves to its blobs. -/
theorem TxView.Fits.resolve {ti : ℕ} {v : TxView H} (hv : v.Fits core w ti) {j : ℕ}
    {inp : BlockInput H} (hj : v.inputs[j]? = some inp) :
    w.resolve inp = some (ti, v.raw, v.prevouts) := by
  have hlt : ti < w.txs.length := (List.getElem?_eq_some_iff.mp hv.raw).1
  have hclamp : w.clampIdx inp = ti := by
    rw [BlockWitness.clampIdx, (hv.entry j inp hj).1]
    exact Nat.min_eq_left (Nat.le_sub_one_of_lt hlt)
  rw [BlockWitness.resolve, hclamp, hv.raw, hv.prevouts]
  rfl

/-! A failed check stays failed. -/

/-- Looking for a script's result does not touch the flag. -/
theorem checkScript_allOk {chunks : Chunks H} {pre : PrePass H} {s s' : LoopState H}
    {inp : BlockInput H} {idx ti : ℕ} {raw prevouts : Bytes} {r : Int} {leaf : H}
    (h : checkScript hs core w chunks pre s inp idx ti raw prevouts = some (s', r, leaf)) :
    s'.allOk = s.allOk := by
  rw [checkScript] at h
  split at h
  · obtain ⟨_, -, h⟩ := Option.bind_eq_some_iff.mp h
    cases h
    rfl
  · obtain ⟨_, -, h⟩ := Option.bind_eq_some_iff.mp h
    cases h
    rfl

omit [DecidableEq H] in
/-- A check of the locks that leaves the flag set found it set. -/
theorem checkLocks_allOk {chunks : Chunks H} {pre : PrePass H} {s s' : LoopState H}
    {inp : BlockInput H} {idx : ℕ} {raw : Bytes}
    (h : checkLocks core w mtp chunks pre s inp idx raw = some s') (hok : s'.allOk = true) :
    s.allOk = true := by
  rw [checkLocks] at h
  split at h
  all_goals
    obtain ⟨_, -, h⟩ := Option.bind_eq_some_iff.mp h
    cases h
    simp only [LoopState.require, Bool.and_eq_true] at hok
    exact hok.1

/-- And so does a round. -/
theorem stepInput_allOk {chunks : Chunks H} {pre : PrePass H} {createdAt : List (H × UInt32)}
    {s s' : LoopState H} {p : BlockInput H × ℕ}
    (h : stepInput hs core w mtp chunks pre createdAt s p = some s') (hok : s'.allOk = true) :
    s.allOk = true := by
  obtain ⟨⟨ti, raw, prevouts⟩, -, h⟩ := Option.bind_eq_some_iff.mp h
  obtain ⟨⟨s₁, r, leaf⟩, hscript, h⟩ := Option.bind_eq_some_iff.mp h
  obtain ⟨s₂, hfirst, h⟩ := Option.bind_eq_some_iff.mp h
  obtain ⟨s₃, hlocks, h⟩ := Option.bind_eq_some_iff.mp h
  have hall₃ := spendCoin_allOk h hok
  simp only [LoopState.require, Bool.and_eq_true] at hall₃
  have hall₁ : s₁.allOk = true := (checkFirst_ok hfirst (checkLocks_allOk hlocks hall₃.1)).1
  rw [checkScript_allOk hscript] at hall₁
  simp only [LoopState.require, LoopState.enter, Bool.and_eq_true] at hall₁
  exact hall₁.1

/-- And a walk. -/
theorem walk_allOk {chunks : Chunks H} {pre : PrePass H} {createdAt : List (H × UInt32)}
    {s s' : LoopState H} {ps : List (BlockInput H × ℕ)}
    (h : ps.foldlM (stepInput hs core w mtp chunks pre createdAt) s = some s')
    (hok : s'.allOk = true) : s.allOk = true := by
  by_contra hfail
  exact Runs.foldlM_invariant (p := fun s => ¬ s.allOk = true)
    (fun p _ a a' ha hstep hok' => ha (stepInput_allOk hstep hok')) hfail h hok

/-! ## Where the scripts were verified -/

/-- The cached digest is of the block's own bytes. -/
def CacheOk (hs : Hashing H) (w : BlockWitness H) (cache : Option (ℕ × H)) : Prop :=
  ∀ ti b, cache = some (ti, b) → ∀ raw prevouts, w.txs[ti]? = some raw →
    w.txPrevouts[ti]? = some prevouts → b = txBind hs raw.1 prevouts.1 (w.flags hs)

/-- A result of 1 is of the block's own bytes: Core's, or that of a chunk which can be trusted. -/
def ScriptsSound (hs : Hashing H) (core : Core) (w : BlockWitness H) (chunks : Chunks H)
    (pre : PrePass H) : Prop :=
  ∀ {s s' : LoopState H} {inp : BlockInput H} {idx ti : ℕ} {raw prevouts : Blob} {leaf : H},
    w.inputs[idx]? = some inp → w.resolve inp = some (ti, raw, prevouts) →
    CacheOk hs w s.bindCache →
    checkScript hs core w chunks pre s inp idx ti raw.1 prevouts.1 = some (s', 1, leaf) →
    ScriptOk hs core (w.flags hs) raw.1 prevouts.1 inp.ref leaf

theorem scriptsSound_none (pre : PrePass H) : ScriptsSound hs core w Chunks.none pre := by
  intro s s' inp idx ti raw prevouts leaf _ _ _ h
  obtain ⟨⟨r, leaf'⟩, hverify, h⟩ := Option.bind_eq_some_iff.mp h
  cases h
  exact verifyInput_ok hverify

omit [DecidableEq H] in
theorem resolve_eq_some {inp : BlockInput H} {ti : ℕ} {raw prevouts : Blob}
    (h : w.resolve inp = some (ti, raw, prevouts)) :
    ti = w.clampIdx inp ∧ w.txs[ti]? = some raw ∧ w.txPrevouts[ti]? = some prevouts := by
  obtain ⟨raw', hraw, h⟩ := Option.bind_eq_some_iff.mp h
  obtain ⟨prevouts', hprevouts, h⟩ := Option.bind_eq_some_iff.mp h
  cases h
  exact ⟨rfl, hraw, hprevouts⟩

/-- What the source of a script's result may change. -/
theorem checkScript_frame {chunks : Chunks H} {pre : PrePass H} {s s' : LoopState H}
    {inp : BlockInput H} {idx ti : ℕ} {raw prevouts : Blob} {r : Int} {leaf : H}
    (hresolve : w.resolve inp = some (ti, raw, prevouts)) (hcache : CacheOk hs w s.bindCache)
    (h : checkScript hs core w chunks pre s inp idx ti raw.1 prevouts.1 = some (s', r, leaf)) :
    CacheOk hs w s'.bindCache ∧
      s' = { s with
        bindCache := s'.bindCache
        calls := s.calls ++ if chunks.binds.isNone then
          [.verifyInput raw.1 inp.ref prevouts.1 (w.flags hs) r] else [] } := by
  rw [checkScript] at h
  cases hbinds : chunks.binds with
  | none =>
    rw [hbinds] at h
    obtain ⟨⟨r', leaf'⟩, -, h⟩ := Option.bind_eq_some_iff.mp h
    cases h
    exact ⟨hcache, rfl⟩
  | some b =>
    rw [hbinds] at h
    obtain ⟨leaf', -, h⟩ := Option.bind_eq_some_iff.mp h
    cases h
    refine ⟨?_, by simp⟩
    obtain ⟨-, hraw, hprevouts⟩ := resolve_eq_some hresolve
    intro ti' b' heq raw' prevouts' hraw' hprevouts'
    obtain ⟨rfl, rfl⟩ := Prod.mk.inj (Option.some.inj heq)
    cases hraw.symm.trans hraw'
    cases hprevouts.symm.trans hprevouts'
    cases hc : s.bindCache with
    | none => rfl
    | some c =>
      by_cases hti : c.1 = ti
      · simp only [hti, if_true]
        exact hcache ti c.2 (by rw [hc, ← hti]) raw prevouts hraw hprevouts
      · simp only [hti, if_false]

/-- What a passed round has established of input `j` of a transaction. -/
structure InputOk (hs : Hashing H) (core : Core) (w : BlockWitness H) (mtp : UInt32)
    (chunks : Chunks H) (v : TxView H) (inp : BlockInput H) (j : ℕ) (coin : Coin) : Prop where
  /-- The prevout blob is the outputs that the transaction spends. -/
  outs : core.unserializeOuts v.prevouts.1 = some (v.spent core)
  length : (v.spent core).length = v.tx.vin.length
  /-- The coin that is deleted is the one that the input names, with the output that the script was
      run on. -/
  coin : ∃ txin out, v.tx.vin[j]? = some txin ∧ (v.spent core)[j]? = some out ∧
    coin = inp.ref.coin txin out
  script : core.verifyScript v.tx j (v.spent core) (w.flags hs) = none
  /-- Without chunks the locks are checked in this round. -/
  locks : chunks.binds = none → inputLocks v.tx inp.ref w.height mtp = 1
  /-- With the first input of a transaction the whole of it is checked. -/
  check : inp.txFirst = 1 → checkTx core v.raw.1 v.prevouts.1 = some (1, v.fee core) ∧
    isFinalTx core v.raw.1 w.height (w.lockTime mtp) = some 1

/-- The round of one entry that leaves `allOk` set. -/
theorem stepInput_ok {ti : ℕ} {v : TxView H} (hv : v.Fits core w ti) {j : ℕ}
    {inp : BlockInput H} (hj : v.inputs[j]? = some inp) {chunks : Chunks H} {pre : PrePass H}
    (hscripts : ScriptsSound hs core w chunks pre) {createdAt : List (H × UInt32)}
    {s s' : LoopState H} {idx : ℕ} (hidx : w.inputs[idx]? = some inp)
    (hcache : CacheOk hs w s.bindCache)
    (h : stepInput hs core w mtp chunks pre createdAt s (inp, idx) = some s')
    (hok : s'.allOk = true) :
    CacheOk hs w s'.bindCache ∧ ∃ coin, InputOk hs core w mtp chunks v inp j coin ∧
      s.allOk = true ∧
      Spends hs createdAt (s.stump, s.spentInBlock)
        ⟨if inp.txFirst = 1 then s.curTx + 1 else s.curTx, inp, coin⟩
        (s'.stump, s'.spentInBlock) ∧
      s' = { s with
        stump := s'.stump
        spentInBlock := s'.spentInBlock
        bindCache := s'.bindCache
        curTx := if inp.txFirst = 1 then s.curTx + 1 else s.curTx
        scriptResults := s.scriptResults ++ [1]
        coinLeaves := s.coinLeaves ++ [coin.leaf hs]
        txChecks := if inp.txFirst = 1 then s.txChecks ++ [1] else s.txChecks
        totalFee := if inp.txFirst = 1 then s.totalFee + v.fee core else s.totalFee
        calls := s.calls ++ v.callsFor hs w mtp chunks inp } := by
  obtain ⟨htxIdx, hinput, -⟩ := hv.entry j inp hj
  have hresolve := hv.resolve hj
  rw [stepInput, hresolve] at h
  simp only [Option.bind_eq_bind, Option.bind_some, htxIdx, decide_true] at h
  -- script, first-input checks, locks and the spend, in the order of the loop
  obtain ⟨⟨s₁, r, leaf⟩, hscript, h⟩ := Option.bind_eq_some_iff.mp h
  obtain ⟨s₂, hfirst, h⟩ := Option.bind_eq_some_iff.mp h
  obtain ⟨s₃, hlocks, h⟩ := Option.bind_eq_some_iff.mp h
  -- the flag that came out true was true before each of them
  have hall₄ := spendCoin_allOk h hok
  simp only [LoopState.require, Bool.and_eq_true, decide_eq_true_eq] at hall₄
  obtain ⟨hall₃, rfl⟩ := hall₄
  have hcache₀ : CacheOk hs w ((s.enter inp).require true).bindCache := hcache
  obtain ⟨hcache₁, hs₁⟩ := checkScript_frame hresolve hcache₀ hscript
  obtain ⟨tx, spent, txin, out, htx, hspent, hlen, htxin, hout, hverified, rfl⟩ :=
    hscripts hidx hresolve hcache₀ hscript
  cases hv.tx.symm.trans htx
  rw [BlockInput.ref, hinput] at htxin hout hverified
  have hcache₂ := (checkLocks_bindCache hlocks).trans (checkFirst_bindCache hfirst)
  obtain ⟨hall₂, hlockNone, -, rfl⟩ := checkLocks_ok hlocks hall₃
  obtain ⟨hall₁, hfirst₁, hrest₁⟩ := checkFirst_ok hfirst hall₂
  obtain ⟨-, hspends, hs'⟩ := spendCoin_ok h hok
  have hall : s.allOk = true := by
    rw [hs₁] at hall₁
    simpa [LoopState.record, LoopState.require, LoopState.enter] using hall₁
  have hview : v.spent core = spent := by rw [TxView.spent, hspent, Option.getD_some]
  have hlocksOk (hnone : chunks.binds = none) : inputLocks v.tx inp.ref w.height mtp = 1 := by
    have hlock := hlockNone hnone
    rw [checkInputLocks, hv.tx] at hlock
    exact Option.some.inj hlock
  -- a check that held leaves the state as it was
  have hrequire : ∀ t : LoopState H, t.allOk = true → t.require true = t := by
    intro t ht
    rw [LoopState.require, ht]
    cases t
    simp only at ht
    rw [ht, Bool.and_true]
  simp only [decide_true, hrequire _ hall₃] at hspends hs'
  have hcacheEq : s'.bindCache = s₁.bindCache := (spendCoin_bindCache h).trans hcache₂
  refine ⟨hcacheEq ▸ hcache₁, inp.ref.coin txin out, ?_, hall, ?_⟩
  · refine ⟨hview ▸ hspent, hview ▸ hlen, ⟨txin, out, htxin, hview ▸ hout, rfl⟩,
      hview ▸ hverified, hlocksOk, fun hone => ?_⟩
    obtain ⟨fee, hfee, hfinal, -⟩ := hfirst₁ hone
    refine ⟨?_, hfinal⟩
    rw [TxView.fee, hfee]
    rfl
  -- the first input of a transaction also moves the count, the checks and the fee
  · by_cases hone : inp.txFirst = 1
    · obtain ⟨fee, hfee, hfinal, rfl⟩ := hfirst₁ hone
      have hfeeEq : v.fee core = fee := by
        rw [TxView.fee, hfee]
        rfl
      rw [hs₁] at hspends
      refine ⟨by simpa [hone, LoopState.record, LoopState.log, LoopState.require,
        LoopState.enter] using hspends, ?_⟩
      rw [hs', hs₁]
      simp [hone, LoopState.record, LoopState.require, LoopState.enter, hall,
        TxView.callsFor, hfeeEq]
    · obtain rfl := hrest₁ hone
      rw [hs₁] at hspends
      refine ⟨by simpa [hone, LoopState.record, LoopState.log, LoopState.require,
        LoopState.enter] using hspends, ?_⟩
      rw [hs', hs₁]
      simp [hone, LoopState.record, LoopState.require, LoopState.enter, hall,
        TxView.callsFor]

/-! ## The rounds of one transaction -/

theorem drop_of_getElem? {α : Type*} {l : List α} {j : ℕ} {a : α} (h : l[j]? = some a) :
    l.drop j = a :: l.drop (j + 1) := by
  obtain ⟨hlt, hget⟩ := List.getElem?_eq_some_iff.mp h
  rw [List.drop_eq_getElem_cons hlt, hget]

omit [DecidableEq H] in
theorem TxView.length_coins_le (core : Core) (v : TxView H) :
    (v.coins core).length ≤ v.inputs.length := by
  rw [coins, List.length_map, List.length_zip]
  exact Nat.min_le_left _ _

omit [DecidableEq H] in
theorem TxView.length_items_le (core : Core) (v : TxView H) (cur : UInt32) :
    (v.items core cur).length ≤ v.inputs.length := by
  rw [items, List.length_map, List.length_zip]
  exact Nat.min_le_left _ _

omit [DecidableEq H] in
/-- The coin of an input is the one at its place. -/
theorem InputOk.coins {chunks : Chunks H} {v : TxView H} {inp : BlockInput H} {j : ℕ} {coin : Coin}
    (h : InputOk hs core w mtp chunks v inp j coin) (hj : v.inputs[j]? = some inp) :
    (v.coins core)[j]? = some coin := by
  obtain ⟨txin, out, htxin, hout, rfl⟩ := h.coin
  have hzip : (v.inputs.zip (v.tx.vin.zip (v.spent core)))[j]? = some (inp, txin, out) := by
    rw [List.getElem?_zip_eq_some]
    exact ⟨hj, List.getElem?_zip_eq_some.mpr ⟨htxin, hout⟩⟩
  rw [TxView.coins, List.getElem?_map, hzip]
  rfl

omit [DecidableEq H] in
theorem InputOk.items {chunks : Chunks H} {v : TxView H} {inp : BlockInput H} {j : ℕ} {coin : Coin}
    (h : InputOk hs core w mtp chunks v inp j coin) (hj : v.inputs[j]? = some inp) (cur : UInt32) :
    (v.items core cur)[j]? = some ⟨cur, inp, coin⟩ := by
  have hzip : (v.inputs.zip (v.coins core))[j]? = some (inp, coin) :=
    List.getElem?_zip_eq_some.mpr ⟨hj, h.coins hj⟩
  rw [TxView.items, List.getElem?_map, hzip]
  rfl

/-- Every input of the transaction from `j` on has passed its round. -/
def TxView.OkFrom (hs : Hashing H) (core : Core) (w : BlockWitness H) (mtp : UInt32)
    (chunks : Chunks H) (v : TxView H) (j : ℕ) : Prop :=
  ∀ (k : ℕ) (inp : BlockInput H), j ≤ k → v.inputs[k]? = some inp →
    ∃ coin, InputOk hs core w mtp chunks v inp k coin

/-- The entries are numbered as in the witness. -/
def Numbered (w : BlockWitness H) (ps : List (BlockInput H × ℕ)) : Prop :=
  ∀ p ∈ ps, w.inputs[p.2]? = some p.1

/-- The rounds after the first of a transaction. -/
theorem walkTail_ok {ti : ℕ} {v : TxView H} (hv : v.Fits core w ti) {chunks : Chunks H}
    {pre : PrePass H} (hscripts : ScriptsSound hs core w chunks pre)
    {createdAt : List (H × UInt32)} {s s' : LoopState H} {ps : List (BlockInput H × ℕ)} {j : ℕ}
    (hj : 0 < j) (hps : ps.map Prod.fst = v.inputs.drop j) (hnum : Numbered w ps)
    (hcache : CacheOk hs w s.bindCache)
    (h : ps.foldlM (stepInput hs core w mtp chunks pre createdAt) s = some s')
    (hok : s'.allOk = true) :
    CacheOk hs w s'.bindCache ∧ v.OkFrom hs core w mtp chunks j ∧ s.allOk = true ∧
      SpendsAll hs createdAt (s.stump, s.spentInBlock) ((v.items core s.curTx).drop j)
        (s'.stump, s'.spentInBlock) ∧
      s' = { s with
        stump := s'.stump
        spentInBlock := s'.spentInBlock
        bindCache := s'.bindCache
        scriptResults := s.scriptResults ++ (v.inputs.drop j).map fun _ => 1
        coinLeaves := s.coinLeaves ++ ((v.coins core).drop j).map (Coin.leaf hs)
        calls := s.calls ++ (v.inputs.drop j).flatMap (v.callsFor hs w mtp chunks) } := by
  induction ps generalizing s j with
  | nil =>
    obtain rfl := Option.some.inj h
    have hend : v.inputs.length ≤ j := List.drop_eq_nil_iff.mp hps.symm
    have hitems := List.drop_eq_nil_of_le ((v.length_items_le core s.curTx).trans hend)
    have hcoins := List.drop_eq_nil_of_le ((v.length_coins_le core).trans hend)
    refine ⟨hcache, fun k inp hk hget => ?_, hok, hitems ▸ .nil, ?_⟩
    · exact absurd (List.getElem?_eq_some_iff.mp hget).1 (Nat.not_lt.mpr (hend.trans hk))
    · rw [hcoins, ← hps]
      simp
  | cons p ps ih =>
    obtain ⟨inp, idx⟩ := p
    rw [List.foldlM_cons] at h
    obtain ⟨s₁, hstep, h⟩ := Option.bind_eq_some_iff.mp h
    have hget : v.inputs[j]? = some inp := by
      have h0 := congrArg (fun l : List (BlockInput H) => l[0]?) hps
      simpa using h0.symm
    have hdrop := drop_of_getElem? hget
    rw [hdrop, List.map_cons, List.cons.injEq] at hps
    -- behind the first input none is marked as first
    have hfirst : inp.txFirst ≠ 1 := fun hone =>
      absurd ((hv.entry j inp hget).2.2.mp hone) (Nat.pos_iff_ne_zero.mp hj)
    have hall₁ : s₁.allOk = true := walk_allOk h hok
    obtain ⟨hcache₁, coin, hinput, hall, hspend, hs₁⟩ :=
      stepInput_ok hv hget hscripts (hnum _ List.mem_cons_self) hcache hstep hall₁
    obtain ⟨hcache', hrest, -, hspends, hs'⟩ := ih (Nat.succ_pos j) hps.2
      (fun p hp => hnum p (List.mem_cons_of_mem _ hp)) hcache₁ h
    have hcur : s₁.curTx = s.curTx := by
      rw [hs₁]
      simp [hfirst]
    rw [hcur] at hspends
    rw [if_neg hfirst] at hspend
    refine ⟨hcache', fun k inp' hk hget' => ?_, hall, ?_, ?_⟩
    · rcases Nat.lt_or_eq_of_le hk with hlt | rfl
      · exact hrest k inp' hlt hget'
      · cases hget.symm.trans hget'
        exact ⟨coin, hinput⟩
    · rw [drop_of_getElem? (hinput.items hget s.curTx)]
      exact .cons hspend hspends
    · rw [hs', hdrop, drop_of_getElem? (hinput.coins hget), hs₁]
      simp [hfirst]

/-- The rounds of a transaction. -/
theorem walkView_ok {ti : ℕ} {v : TxView H} (hv : v.Fits core w ti) {chunks : Chunks H}
    {pre : PrePass H} (hscripts : ScriptsSound hs core w chunks pre)
    {createdAt : List (H × UInt32)} {s s' : LoopState H} {ps : List (BlockInput H × ℕ)}
    (hps : ps.map Prod.fst = v.inputs) (hnum : Numbered w ps) (hcache : CacheOk hs w s.bindCache)
    (h : ps.foldlM (stepInput hs core w mtp chunks pre createdAt) s = some s')
    (hok : s'.allOk = true) :
    CacheOk hs w s'.bindCache ∧ v.OkFrom hs core w mtp chunks 0 ∧ s.allOk = true ∧
      SpendsAll hs createdAt (s.stump, s.spentInBlock) (v.items core (s.curTx + 1))
        (s'.stump, s'.spentInBlock) ∧
      s' = { s with
        stump := s'.stump
        spentInBlock := s'.spentInBlock
        bindCache := s'.bindCache
        curTx := s.curTx + 1
        scriptResults := s.scriptResults ++ v.inputs.map fun _ => 1
        coinLeaves := s.coinLeaves ++ (v.coins core).map (Coin.leaf hs)
        txChecks := s.txChecks ++ [1]
        totalFee := s.totalFee + v.fee core
        calls := s.calls ++ v.inputs.flatMap (v.callsFor hs w mtp chunks) } := by
  cases ps with
  | nil =>
    have hpos := hv.pos
    rw [← hps] at hpos
    cases hpos
  | cons p ps =>
    obtain ⟨inp, idx⟩ := p
    rw [List.foldlM_cons] at h
    obtain ⟨s₁, hstep, h⟩ := Option.bind_eq_some_iff.mp h
    have hget : v.inputs[0]? = some inp := by
      rw [← hps]
      rfl
    have hdrop := drop_of_getElem? hget
    rw [List.drop_zero] at hdrop
    have htail : ps.map Prod.fst = v.inputs.drop 1 := by
      rw [← hps]
      rfl
    -- the first input opens the transaction, and the rest is the tail
    have hfirst : inp.txFirst = 1 := (hv.entry 0 inp hget).2.2.mpr rfl
    obtain ⟨hcache₁, coin, hinput, hall, hspend, hs₁⟩ :=
      stepInput_ok hv hget hscripts (hnum _ List.mem_cons_self) hcache hstep (walk_allOk h hok)
    obtain ⟨hcache', hrest, -, hspends, hs'⟩ := walkTail_ok hv hscripts Nat.one_pos htail
      (fun p hp => hnum p (List.mem_cons_of_mem _ hp)) hcache₁ h hok
    have hcur : s₁.curTx = s.curTx + 1 := by
      rw [hs₁]
      simp [hfirst]
    rw [hcur] at hspends
    rw [if_pos hfirst] at hspend
    have hitems := drop_of_getElem? (hinput.items hget (s.curTx + 1))
    have hcoins := drop_of_getElem? (hinput.coins hget)
    rw [List.drop_zero] at hitems hcoins
    refine ⟨hcache', fun k inp' _ hget' => ?_, hall, ?_, ?_⟩
    · cases k with
      | zero =>
        cases hget.symm.trans hget'
        exact ⟨coin, hinput⟩
      | succ k => exact hrest (k + 1) inp' (Nat.succ_pos k) hget'
    · rw [hitems]
      exact .cons hspend hspends
    · rw [hs', hdrop, hcoins, hs₁]
      simp [hfirst]

/-! ## All the rounds -/

/-- **The walk over an accepted block**, from the transaction at `ti` on. -/
theorem walkViews_ok {ti : ℕ} {views : List (TxView H)} (hviews : Viewed core w ti views)
    {chunks : Chunks H} {pre : PrePass H} (hscripts : ScriptsSound hs core w chunks pre)
    {createdAt : List (H × UInt32)} {s s' : LoopState H} {ps : List (BlockInput H × ℕ)}
    (hps : ps.map Prod.fst = views.flatMap TxView.inputs) (hnum : Numbered w ps)
    (hcache : CacheOk hs w s.bindCache) (hcur : s.curTx = UInt32.ofNat ti)
    (h : ps.foldlM (stepInput hs core w mtp chunks pre createdAt) s = some s')
    (hok : s'.allOk = true) :
    (∀ v ∈ views, v.OkFrom hs core w mtp chunks 0) ∧ s.allOk = true ∧
      SpendsAll hs createdAt (s.stump, s.spentInBlock) (itemsFrom core (ti + 1) views)
        (s'.stump, s'.spentInBlock) ∧
      s' = { s with
        stump := s'.stump
        spentInBlock := s'.spentInBlock
        bindCache := s'.bindCache
        curTx := s'.curTx
        scriptResults := s.scriptResults ++ (views.flatMap TxView.inputs).map fun _ => 1
        coinLeaves := s.coinLeaves ++ (views.flatMap (TxView.coins core)).map (Coin.leaf hs)
        txChecks := s.txChecks ++ views.map fun _ => 1
        totalFee := (views.map (TxView.fee core)).foldl (· + ·) s.totalFee
        calls := s.calls ++
          views.flatMap fun v => v.inputs.flatMap (v.callsFor hs w mtp chunks) } := by
  induction hviews generalizing s ps with
  | nil =>
    obtain rfl : ps = [] := List.map_eq_nil_iff.mp hps
    cases h
    exact ⟨by simp, hok, .nil, by simp⟩
  | @cons ti v views hv hviews ih =>
    obtain ⟨ps₁, ps₂, rfl, hps₁, hps₂⟩ := List.map_eq_append_iff.mp hps
    rw [List.foldlM_append] at h
    obtain ⟨s₁, h₁, h₂⟩ := Option.bind_eq_some_iff.mp h
    have hall₁ := walk_allOk h₂ hok
    -- one transaction, then the others from the state it leaves
    obtain ⟨hcache₁, hv₁, hall, hspends₁, hs₁⟩ := walkView_ok hv hscripts hps₁
      (fun p hp => hnum p (List.mem_append_left _ hp)) hcache h₁ hall₁
    have hcur₁ : s.curTx + 1 = UInt32.ofNat (ti + 1) := by
      rw [UInt32.ofNat_add, hcur]
      rfl
    obtain ⟨hrest, -, hspends₂, hs'⟩ := ih hps₂
      (fun p hp => hnum p (List.mem_append_right _ hp)) hcache₁ (by rw [hs₁, ← hcur₁]) h₂
    refine ⟨?_, hall, ?_, ?_⟩
    · intro u hu
      rcases List.mem_cons.mp hu with rfl | hu
      · exact hv₁
      · exact hrest u hu
    · rw [itemsFrom, ← hcur₁]
      exact hspends₁.append hspends₂
    · rw [hs', hs₁]
      simp

end
end Guest
end Hazync
