import Hazync.Guest.Validated

/-!
# The walks pass on a witness that has what they ask for

The other direction of `walkViews_ok` and `views_of_grouped`. When each transaction has one entry
for each of its inputs, each input has passed Core, and the spends go through one after the other,
then no round of a walk clears `allOk`, and none panics.

## Completeness, round by round

The proofs mirror those of `InputWalk`. There a round that leaves the flag set is taken apart into
its checks; here the checks are given and the round is put together. Since a round only touches what
it has to, the induction carries little besides the flag: the accumulator, the set of coins spent in
the block, and the number of the present transaction. The entries are given as spends that go
through one after the other (`SpendsAll`), which the bridge can promise, because it makes the proofs
from its own forest.

One condition is about the form of a proof. The guest puts the leaf that it has computed into the
witness's proof, and besides asks that it was there already. So where a coin is deleted from the
accumulator, the proof of its entry has to name its leaf (`ProofOf`); the entry of a coin that the
block makes may have any proof.
-/

namespace Hazync
namespace Guest

open ByteStrings
open Accumulator (Proof Stump)

variable {H : Type}

/-- The proof of a coin that the block does not create is for the coin's leaf. -/
def SpendItem.ProofOf [DecidableEq H] (hs : Hashing H) (createdAt : List (H × UInt32))
    (i : SpendItem H) : Prop :=
  createdAt.lookup (i.coin.leaf hs) = none → i.inp.proofI.leaf = i.coin.leaf hs

section

variable [DecidableEq H] {hs : Hashing H} {core : Core} {w : BlockWitness H} {mtp : UInt32}
  {createdAt : List (H × UInt32)} {pre : PrePass H} {s : LoopState H} {ti j : ℕ} {v : TxView H}
  {inp : BlockInput H} {coin : Coin} {after : Stump H × List H}

/-! ## One round -/

omit [DecidableEq H] in
/-- The script of an input that is in order. -/
theorem InputOk.verifyInput (h : InputOk hs core w mtp Chunks.none v inp j coin)
    (hv : v.Fits core w ti) (hj : v.inputs[j]? = some inp) :
    verifyInput hs core v.raw.1 inp.ref v.prevouts.1 (w.flags hs) = some (1, coin.leaf hs) := by
  obtain ⟨txin, out, htxin, hout, hcoin⟩ := h.coin
  have hidx : inp.ref.inputIdx.toNat = j := (hv.entry j inp hj).2.1
  have hlt : j < (v.spent core).length := (List.getElem?_eq_some_iff.mp hout).1
  have hleaf : coinLeaf hs v.tx (v.spent core) inp.ref = some (coin.leaf hs) := by
    rw [coinLeaf, hidx, hout, htxin, hcoin]
    rfl
  rw [Guest.verifyInput, hv.tx, h.outs]
  simp only [Option.bind_eq_bind, Option.bind_some]
  rw [hidx, if_neg, scriptResult_eq_one.mpr h.script, hleaf, Option.getD_some]
  exact not_or.mpr ⟨Nat.not_le.mpr hlt, not_not.mpr h.length⟩

omit [DecidableEq H] in
/-- The checks of a transaction with the first input. -/
theorem InputOk.checkFirst (h : InputOk hs core w mtp Chunks.none v inp j coin)
    (hall : s.allOk = true) : ∃ s', checkFirst core w mtp s inp v.raw.1 v.prevouts.1 = some s' ∧
      s'.allOk = true ∧ s'.stump = s.stump ∧ s'.spentInBlock = s.spentInBlock ∧
      s'.curTx = s.curTx := by
  rw [Guest.checkFirst]
  by_cases hfirst : inp.txFirst = 1
  · obtain ⟨hcheck, hfinal⟩ := h.check hfirst
    rw [if_pos hfirst, hcheck, hfinal]
    refine ⟨_, rfl, ?_, rfl, rfl, rfl⟩
    simp [LoopState.require, LoopState.log, hall]
  · rw [if_neg hfirst]
    exact ⟨s, rfl, hall, rfl, rfl, rfl⟩

omit [DecidableEq H] in
/-- The locks of an input that is in order. -/
theorem InputOk.checkLocks (pre : PrePass H) (idx : ℕ)
    (h : InputOk hs core w mtp Chunks.none v inp j coin)
    (hv : v.Fits core w ti) (hall : s.allOk = true) :
    ∃ s', checkLocks core w mtp Chunks.none pre s inp idx v.raw.1 = some s' ∧ s'.allOk = true ∧
      s'.stump = s.stump ∧ s'.spentInBlock = s.spentInBlock ∧ s'.curTx = s.curTx := by
  have hlocks : checkInputLocks core v.raw.1 inp.ref w.height mtp = some 1 := by
    rw [checkInputLocks, hv.tx, Option.bind_eq_bind, Option.bind_some, h.locks rfl]
  refine ⟨(s.log [.checkInputLocks v.raw.1 inp.ref w.height mtp 1]).require true, ?_, ?_, rfl, rfl,
    rfl⟩
  · unfold Guest.checkLocks
    simp [Chunks.none, hlocks]
  · simp [LoopState.require, LoopState.log, hall]

/-- A spend that goes through. -/
theorem spendCoin_complete {i : SpendItem H}
    (h : Spends hs createdAt (s.stump, s.spentInBlock) i after)
    (hproof : i.ProofOf hs createdAt) (hcur : s.curTx = i.curTx) (hall : s.allOk = true) :
    ∃ s', spendCoin hs createdAt s i.inp (i.coin.leaf hs) = some s' ∧ s'.allOk = true ∧
      (s'.stump, s'.spentInBlock) = after ∧ s'.curTx = s.curTx := by
  rw [spendCoin]
  cases h with
  | inBlock hlookup hlt hfresh =>
    rw [hlookup]
    refine ⟨_, rfl, ?_, rfl, rfl⟩
    simp [hall, hcur, hlt, hfresh]
  | external hlookup hdelete =>
    rw [hlookup]
    dsimp only
    rw [hdelete]
    refine ⟨_, rfl, ?_, rfl, rfl⟩
    simp [hall, hproof hlookup]

/-- A round on an input that passes. -/
theorem stepInput_complete (pre : PrePass H) (hv : v.Fits core w ti) (hj : v.inputs[j]? = some inp)
    (h : InputOk hs core w mtp Chunks.none v inp j coin) {cur : UInt32}
    (hcur : cur = if inp.txFirst = 1 then s.curTx + 1 else s.curTx)
    (hspend : Spends hs createdAt (s.stump, s.spentInBlock) ⟨cur, inp, coin⟩ after)
    (hproof : SpendItem.ProofOf hs createdAt ⟨cur, inp, coin⟩) (hall : s.allOk = true) (idx : ℕ) :
    ∃ s', stepInput hs core w mtp Chunks.none pre createdAt s (inp, idx) = some s' ∧
      s'.allOk = true ∧ (s'.stump, s'.spentInBlock) = after ∧ s'.curTx = cur := by
  have htxIdx := (hv.entry j inp hj).1
  have hscript : checkScript hs core w Chunks.none pre ((s.enter inp).require true) inp idx ti
      v.raw.1 v.prevouts.1 = some (((s.enter inp).require true).log
        [.verifyInput v.raw.1 inp.ref v.prevouts.1 (w.flags hs) 1], 1, coin.leaf hs) := by
    rw [checkScript]
    simp only [Chunks.none, h.verifyInput hv hj, Option.bind_eq_bind, Option.bind_some]
  -- what stands in the state between the calls
  obtain ⟨s₁, hs₁, hall₁, hstump₁, hspent₁, hcur₁⟩ := h.checkFirst
    (s := (((s.enter inp).require true).log
      [.verifyInput v.raw.1 inp.ref v.prevouts.1 (w.flags hs) 1]).record 1 (coin.leaf hs))
    (by simp [LoopState.record, LoopState.log, LoopState.require, LoopState.enter, hall])
  obtain ⟨s₂, hs₂, hall₂, hstump₂, hspent₂, hcur₂⟩ :=
    h.checkLocks pre idx hv hall₁
  have hall₃ : (s₂.require true).allOk = true := by simp [LoopState.require, hall₂]
  have hcur₃ : (s₂.require true).curTx = cur := by
    rw [hcur]
    exact hcur₂.trans hcur₁
  have hsame : ((s₂.require true).stump, (s₂.require true).spentInBlock) =
      (s.stump, s.spentInBlock) :=
    Prod.ext (hstump₂.trans hstump₁) (hspent₂.trans hspent₁)
  rw [← hsame] at hspend
  obtain ⟨s', hs', hall', hafter, hcur'⟩ := spendCoin_complete hspend hproof hcur₃ hall₃
  refine ⟨s', ?_, hall', hafter, hcur'.trans hcur₃⟩
  rw [stepInput, hv.resolve hj]
  simp only [Option.bind_eq_bind, Option.bind_some, htxIdx, decide_true, hscript, hs₁, hs₂]
  exact hs'

/-! ## The rounds of a transaction, and all of them -/

theorem SpendsAll.eq_cons {i : SpendItem H} {items : List (SpendItem H)} {a c : Stump H × List H}
    (h : SpendsAll hs createdAt a (i :: items) c) :
    ∃ b, Spends hs createdAt a i b ∧ SpendsAll hs createdAt b items c := by
  cases h with
  | cons hstep hrest => exact ⟨_, hstep, hrest⟩

/-- Spends in two stretches. -/
theorem SpendsAll.eq_append {xs ys : List (SpendItem H)} {a c : Stump H × List H}
    (h : SpendsAll hs createdAt a (xs ++ ys) c) :
    ∃ b, SpendsAll hs createdAt a xs b ∧ SpendsAll hs createdAt b ys c := by
  induction xs generalizing a with
  | nil => exact ⟨a, .nil, h⟩
  | cons i xs ih =>
    obtain ⟨b, hstep, hrest⟩ := h.eq_cons
    obtain ⟨m, hxs, hys⟩ := ih hrest
    exact ⟨m, .cons hstep hxs, hys⟩

/-- The rounds after the first of a transaction. -/
theorem walkTail_complete (pre : PrePass H) (hv : v.Fits core w ti)
    (hok : v.OkFrom hs core w mtp Chunks.none j)
    (hpos : 0 < j) {ps : List (BlockInput H × ℕ)} (hps : ps.map Prod.fst = v.inputs.drop j)
    (hspends : SpendsAll hs createdAt (s.stump, s.spentInBlock) ((v.items core s.curTx).drop j)
      after)
    (hproofs : ∀ i ∈ (v.items core s.curTx).drop j, i.ProofOf hs createdAt)
    (hall : s.allOk = true) :
    ∃ s', ps.foldlM (stepInput hs core w mtp Chunks.none pre createdAt) s = some s' ∧
      s'.allOk = true ∧ (s'.stump, s'.spentInBlock) = after ∧ s'.curTx = s.curTx := by
  induction ps generalizing s j with
  | nil =>
    have hend : v.inputs.length ≤ j := List.drop_eq_nil_iff.mp hps.symm
    rw [List.drop_eq_nil_of_le ((v.length_items_le core s.curTx).trans hend)] at hspends
    cases hspends
    exact ⟨s, rfl, hall, rfl, rfl⟩
  | cons p ps ih =>
    obtain ⟨inp, idx⟩ := p
    have hget : v.inputs[j]? = some inp := by
      have h0 := congrArg (fun l : List (BlockInput H) => l[0]?) hps
      simpa using h0.symm
    rw [drop_of_getElem? hget, List.map_cons, List.cons.injEq] at hps
    have hfirst : inp.txFirst ≠ 1 := fun hone =>
      absurd ((hv.entry j inp hget).2.2.mp hone) (Nat.pos_iff_ne_zero.mp hpos)
    obtain ⟨coin, hinput⟩ := hok j inp le_rfl hget
    have hitem := drop_of_getElem? (hinput.items hget s.curTx)
    rw [hitem] at hspends hproofs
    obtain ⟨b, hspend, hrest⟩ := hspends.eq_cons
    obtain ⟨s₁, hs₁, hall₁, hb, hcur₁⟩ := stepInput_complete pre hv hget hinput
      (if_neg hfirst).symm hspend (hproofs _ List.mem_cons_self) hall idx
    rw [← hb, ← hcur₁] at hrest
    obtain ⟨s', hs', hall', hafter, hcur'⟩ := ih
      (fun k inp' hk => hok k inp' ((Nat.le_succ j).trans hk)) (Nat.succ_pos j) hps.2 hrest
      (fun i hi => hproofs i (List.mem_cons_of_mem _ (hcur₁ ▸ hi))) hall₁
    refine ⟨s', ?_, hall', hafter, hcur'.trans hcur₁⟩
    rw [List.foldlM_cons, hs₁]
    exact hs'

/-- The rounds of a transaction. -/
theorem walkView_complete (pre : PrePass H) (hv : v.Fits core w ti)
    (hok : v.OkFrom hs core w mtp Chunks.none 0)
    {ps : List (BlockInput H × ℕ)} (hps : ps.map Prod.fst = v.inputs)
    (hspends : SpendsAll hs createdAt (s.stump, s.spentInBlock) (v.items core (s.curTx + 1)) after)
    (hproofs : ∀ i ∈ v.items core (s.curTx + 1), i.ProofOf hs createdAt) (hall : s.allOk = true) :
    ∃ s', ps.foldlM (stepInput hs core w mtp Chunks.none pre createdAt) s = some s' ∧
      s'.allOk = true ∧ (s'.stump, s'.spentInBlock) = after ∧ s'.curTx = s.curTx + 1 := by
  cases ps with
  | nil =>
    have hpos := hv.pos
    rw [← hps] at hpos
    exact absurd hpos (lt_irrefl 0)
  | cons p ps =>
    obtain ⟨inp, idx⟩ := p
    have hget : v.inputs[0]? = some inp := by
      rw [← hps]
      rfl
    have htail : ps.map Prod.fst = v.inputs.drop 1 := by
      rw [← hps]
      rfl
    have hfirst : inp.txFirst = 1 := (hv.entry 0 inp hget).2.2.mpr rfl
    obtain ⟨coin, hinput⟩ := hok 0 inp le_rfl hget
    have hitem := drop_of_getElem? (hinput.items hget (s.curTx + 1))
    rw [List.drop_zero] at hitem
    rw [hitem] at hspends hproofs
    obtain ⟨b, hspend, hrest⟩ := hspends.eq_cons
    obtain ⟨s₁, hs₁, hall₁, hb, hcur₁⟩ := stepInput_complete pre hv hget hinput
      (if_pos hfirst).symm hspend (hproofs _ List.mem_cons_self) hall idx
    rw [← hb, ← hcur₁] at hrest
    obtain ⟨s', hs', hall', hafter, hcur'⟩ := walkTail_complete pre hv
      (fun k inp' _ => hok k inp' (Nat.zero_le k)) Nat.one_pos htail hrest
      (fun i hi => hproofs i (List.mem_cons_of_mem _ (hcur₁ ▸ hi))) hall₁
    refine ⟨s', ?_, hall', hafter, hcur'.trans hcur₁⟩
    rw [List.foldlM_cons, hs₁]
    exact hs'

/-- **The walk goes through**, from the transaction at `ti` on. -/
theorem walkViews_complete (pre : PrePass H) {views : List (TxView H)}
    (hviews : Viewed core w ti views)
    (hok : ∀ v ∈ views, v.OkFrom hs core w mtp Chunks.none 0) {ps : List (BlockInput H × ℕ)}
    (hps : ps.map Prod.fst = views.flatMap TxView.inputs) (hcur : s.curTx = UInt32.ofNat ti)
    (hspends : SpendsAll hs createdAt (s.stump, s.spentInBlock) (itemsFrom core (ti + 1) views)
      after)
    (hproofs : ∀ i ∈ itemsFrom core (ti + 1) views, i.ProofOf hs createdAt)
    (hall : s.allOk = true) :
    ∃ s', ps.foldlM (stepInput hs core w mtp Chunks.none pre createdAt) s = some s' ∧
      s'.allOk = true ∧ (s'.stump, s'.spentInBlock) = after := by
  induction hviews generalizing s ps with
  | nil =>
    obtain rfl : ps = [] := List.map_eq_nil_iff.mp hps
    cases hspends
    exact ⟨s, rfl, hall, rfl⟩
  | @cons ti v views hv hviews ih =>
    obtain ⟨ps₁, ps₂, rfl, hps₁, hps₂⟩ := List.map_eq_append_iff.mp hps
    have hcur₁ : s.curTx + 1 = UInt32.ofNat (ti + 1) := by
      rw [UInt32.ofNat_add, hcur]
      rfl
    rw [itemsFrom, ← hcur₁] at hspends hproofs
    obtain ⟨b, hone, hrest⟩ := hspends.eq_append
    obtain ⟨s₁, hs₁, hall₁, hb, hcur'⟩ := walkView_complete pre hv
      (hok v List.mem_cons_self) hps₁ hone (fun i hi => hproofs i (List.mem_append_left _ hi)) hall
    rw [← hb] at hrest
    obtain ⟨s', hs', hall', hafter⟩ := ih (fun u hu => hok u (List.mem_cons_of_mem _ hu)) hps₂
      (hcur'.trans hcur₁) hrest (fun i hi => hproofs i (List.mem_append_right _ hi)) hall₁
    refine ⟨s', ?_, hall', hafter⟩
    rw [List.foldlM_append, hs₁]
    exact hs'

end
end Guest
end Hazync
