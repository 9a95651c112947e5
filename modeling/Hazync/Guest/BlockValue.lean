import Hazync.Guest.CoinbaseSmt
import Hazync.Guest.Coins
import Hazync.Guest.Coverage

/-!
# What a block is worth

The block check adds fees and values up in `i64`. That no sum runs over is nothing it checks: it
holds because every coin that is spent was held before or is the block's own, so that the fees are
worth no more than what was held and what the coinbase pays. With that the sums are exact, and what
the block leaves is worth no more than what there was and the subsidy (`Extends.value`).

## Why no sum runs over

`check_tx` adds the values of the prevouts and of the outputs, and asks after each addition of the
inputs that the sum is within the money there can be. The fees of the block are added without such a
check, in `i64`, and their total is then looked at once. If they could run over, the check at the
end would see a small number. They cannot, for a reason that the code does not have at that point:
the coins that are spent are real. A coin that was held before is counted in what is held, and one
that the block makes has its value from an output. So all the fees together are what goes in less
what comes out, and what goes in is bounded by what there was.

That is why the theorem is about a boundary with its coins (`Extends.value`) and not about a block
by itself, and why it asks that the hashes do not collide: otherwise a proof would not be of a coin.
-/

namespace Hazync
namespace Guest

open ByteStrings
open Accumulator (Stump)

variable {H : Type}

/-! ## Sums in `i64` -/

/-- The additions of a loop that adds `vs` up from `s` on. -/
def additionsFrom : Int64 → List Int64 → List (Int64 × Int64)
  | _, [] => []
  | s, v :: vs => (s, v) :: additionsFrom (s + v) vs

/-- None of the additions runs over. -/
def NoneOverflows (ps : List (Int64 × Int64)) : Prop := ∀ p ∈ ps, addOverflows p.1 p.2 = false

/-- The sum of the values as integers. -/
def sumInts (vs : List Int64) : ℤ := (vs.map Int64.toInt).sum

theorem sumInts_cons (v : Int64) (vs : List Int64) : sumInts (v :: vs) = v.toInt + sumInts vs := by
  rw [sumInts, sumInts, List.map_cons, List.sum_cons]

/-- Values that are not negative have a sum that is not. -/
theorem sumInts_nonneg {vs : List Int64} (h : ∀ v ∈ vs, 0 ≤ v.toInt) : 0 ≤ sumInts vs := by
  apply List.sum_nonneg
  intro n hn
  obtain ⟨v, hv, rfl⟩ := List.mem_map.mp hn
  exact h v hv

/-- An addition does not run over where the sum of the integers fits. -/
theorem addOverflows_eq_false {a b : Int64} (h₀ : 0 ≤ a.toInt + b.toInt)
    (h₁ : a.toInt + b.toInt < 2 ^ 63) :
    addOverflows a b = false ∧ (a + b).toInt = a.toInt + b.toInt := by
  constructor
  · rw [addOverflows, decide_eq_false_iff_not, not_or]
    omega
  · rw [Int64.toInt_add, Int.bmod_eq_of_le (by omega) (by omega)]

theorem NoneOverflows.cons {p : Int64 × Int64} {ps : List (Int64 × Int64)}
    (h : addOverflows p.1 p.2 = false) (hps : NoneOverflows ps) : NoneOverflows (p :: ps) :=
  List.forall_mem_cons.mpr ⟨h, hps⟩

theorem NoneOverflows.append {ps qs : List (Int64 × Int64)} (hps : NoneOverflows ps)
    (hqs : NoneOverflows qs) : NoneOverflows (ps ++ qs) :=
  List.forall_mem_append.mpr ⟨hps, hqs⟩

/-- A sum of values that are not negative is exact where its total is below 2^63. -/
theorem foldl_add_exact {s : Int64} {vs : List Int64} (hs : 0 ≤ s.toInt)
    (hvs : ∀ v ∈ vs, 0 ≤ v.toInt) (hroom : s.toInt + sumInts vs < 2 ^ 63) :
    (vs.foldl (· + ·) s).toInt = s.toInt + sumInts vs ∧ NoneOverflows (additionsFrom s vs) := by
  induction vs generalizing s with
  | nil =>
    refine ⟨?_, fun p hp => by cases hp⟩
    rw [sumInts, List.map_nil, List.sum_nil, add_zero]
    rfl
  | cons v vs ih =>
    obtain ⟨hv, hrest⟩ := List.forall_mem_cons.mp hvs
    have hnonneg := sumInts_nonneg hrest
    rw [sumInts_cons] at hroom ⊢
    obtain ⟨hno, hadd⟩ := addOverflows_eq_false (a := s) (b := v) (by omega) (by omega)
    obtain ⟨hsum, hall⟩ := ih (s := s + v) (by omega) hrest (by omega)
    refine ⟨?_, .cons hno hall⟩
    rw [List.foldl_cons, hsum, hadd, add_assoc]

/-! ## What the block check adds up -/

/-- The values that a blob of prevouts lists. -/
def prevoutValues (core : Core) (prevouts : Bytes) : List Int64 :=
  ((core.unserializeOuts prevouts).getD []).map TxOut.nValue

/-- The values of a transaction's outputs. -/
def outputValues (core : Core) (raw : Bytes) : List Int64 :=
  ((core.unserializeTx raw).elim [] Transaction.vout).map TxOut.nValue

/-- `sum_in` and `sum_out` of `check_tx`. -/
def checkTxAdditions (core : Core) (raw prevouts : Bytes) : List (Int64 × Int64) :=
  additionsFrom 0 (prevoutValues core prevouts) ++ additionsFrom 0 (outputValues core raw)

/-- The fee of each transaction after the coinbase, as `check_tx` gives it. -/
def BlockWitness.fees (core : Core) (w : BlockWitness H) : List Int64 :=
  (w.txs.zip w.txPrevouts).map fun p => ((checkTx core p.1.1 p.2.1).map Prod.snd).getD 0

/-- The additions of the block check: of `check_tx` for every transaction, of the fees, of
`coinbase_value`, and of the subsidy and the fees. -/
def moneyAdditions (core : Core) (w : BlockWitness H) (r : BlockResult H) :
    List (Int64 × Int64) :=
  ((w.txs.zip w.txPrevouts).flatMap fun p => checkTxAdditions core p.1.1 p.2.1) ++
    (additionsFrom 0 (w.fees core) ++ (checkTxAdditions core w.coinbaseTx [0] ++
      (additionsFrom 0 (outputValues core w.coinbaseTx) ++ [(r.subsidy, r.totalFee)])))

/-! ## `check_tx` -/

section

variable {core : Core} {raw prevouts : Bytes} {tx : Transaction} {fee : Int64}

/-- `MAX_MONEY` in satoshi. -/
theorem maxMoney_toInt : MAX_MONEY.toInt = 2100000000000000 := by decide

/-- The loop over the inputs keeps its sum within the money there can be. -/
theorem foldlM_addInput {spent : List TxOut} {s sumIn : Int64} (hs : moneyRange s = true)
    (h : spent.foldlM addInput s = .ok sumIn) :
    moneyRange sumIn = true ∧ sumIn.toInt = s.toInt + sumInts (spent.map TxOut.nValue) ∧
      NoneOverflows (additionsFrom s (spent.map TxOut.nValue)) := by
  induction spent generalizing s with
  | nil =>
    cases h
    refine ⟨hs, ?_, fun p hp => by cases hp⟩
    rw [sumInts, List.map_nil, List.map_nil, List.sum_nil, add_zero]
  | cons o spent ih =>
    rw [List.foldlM_cons, addInput] at h
    split at h
    · cases h
    rename_i hvalue
    split at h
    · cases h
    rename_i hsum
    rw [not_or, Int64.not_lt, Int64.not_lt] at hvalue
    rw [Bool.not_eq_true, Bool.not_eq_false] at hsum
    have hv : moneyRange o.nValue = true := decide_eq_true hvalue
    have hmax := maxMoney_toInt
    obtain ⟨hs₀, hs₁⟩ := moneyRange_iff.mp hs
    obtain ⟨hv₀, hv₁⟩ := moneyRange_iff.mp hv
    obtain ⟨hno, hadd⟩ := addOverflows_eq_false (a := s) (b := o.nValue) (by omega) (by omega)
    obtain ⟨hin, heq, hall⟩ := ih hsum h
    refine ⟨hin, ?_, .cons hno hall⟩
    rw [heq, hadd, List.map_cons, sumInts_cons, add_assoc]

/-- It refuses with codes of its own. -/
theorem foldlM_addInput_error {spent : List TxOut} {s : Int64} {code : Int}
    (h : spent.foldlM addInput s = .error code) : code ≠ 1 := by
  induction spent generalizing s with
  | nil => cases h
  | cons o spent ih =>
    rw [List.foldlM_cons, addInput] at h
    split at h
    · cases h
      decide
    split at h
    · cases h
      decide
    · exact ih h

/-- The outputs of a checked transaction sum up exactly. -/
theorem outputValues_checked (houts : core.ChecksOutputs) (htx : core.unserializeTx raw = some tx)
    (hcheck : core.checkTransaction tx = true) :
    (∀ v ∈ outputValues core raw, 0 ≤ v.toInt) ∧
      sumInts (outputValues core raw) ≤ MAX_MONEY.toInt ∧
      ((outputValues core raw).foldl (· + ·) 0).toInt = sumInts (outputValues core raw) ∧
      NoneOverflows (additionsFrom 0 (outputValues core raw)) := by
  obtain ⟨hnonneg, hsum⟩ := houts tx hcheck _ (List.prefix_refl _)
  have hmax := maxMoney_toInt
  rw [outputValues, htx]
  have hsum : sumInts (tx.vout.map TxOut.nValue) ≤ MAX_MONEY.toInt := hsum
  have hzero : (0 : Int64).toInt = 0 := rfl
  obtain ⟨hfold, hno⟩ := foldl_add_exact (s := 0) hzero.ge hnonneg (by omega)
  refine ⟨hnonneg, hsum, ?_, hno⟩
  rw [Option.elim_some, hfold, hzero, zero_add]

/-- What `check_tx` has established of a transaction that it passes. -/
theorem checkTx_ok (houts : core.ChecksOutputs) (htx : core.unserializeTx raw = some tx)
    (h : checkTx core raw prevouts = some (1, fee)) :
    core.checkTransaction tx = true ∧ NoneOverflows (checkTxAdditions core raw prevouts) ∧
      (core.isCoinBase tx = false → 0 ≤ fee.toInt ∧
        fee.toInt + sumInts (outputValues core raw) = sumInts (prevoutValues core prevouts)) := by
  obtain ⟨tx', htx', h⟩ := Option.bind_eq_some_iff.mp h
  obtain rfl : tx = tx' := Option.some.inj (htx.symm.trans htx')
  obtain ⟨spent, hspent, h⟩ := Option.bind_eq_some_iff.mp h
  split at h
  · cases h
  split at h
  · cases h
  rename_i hcheck
  have hcheck : core.checkTransaction tx = true := by simpa using hcheck
  obtain ⟨hnonneg, hout, hfold, hno⟩ := outputValues_checked houts htx hcheck
  rw [checkTxAdditions, prevoutValues, hspent]
  dsimp only at h
  split at h
  · rename_i code herror
    obtain ⟨rfl, -⟩ := Prod.mk.inj (Option.some.inj h)
    exact absurd rfl (foldlM_addInput_error herror)
  rename_i sumIn hsumIn
  obtain ⟨hmoney, hin, hall⟩ := foldlM_addInput (by decide) hsumIn
  refine ⟨hcheck, hall.append hno, fun hcoinbase => ?_⟩
  have hsumOut : (tx.vout.foldl (fun s o => s + o.nValue) (0 : Int64)).toInt =
      sumInts (outputValues core raw) := by
    rw [← hfold, outputValues, htx, Option.elim_some, List.foldl_map]
  rw [hcoinbase] at h
  simp only [Bool.false_eq_true, not_false_eq_true, if_true] at h
  split at h
  · cases h
  rename_i hle
  rw [Int64.not_lt, Int64.le_iff_toInt_le, hsumOut] at hle
  obtain ⟨-, rfl⟩ := Prod.mk.inj (Option.some.inj h)
  have hmax := maxMoney_toInt
  have hzero : (0 : Int64).toInt = 0 := rfl
  have hnonneg := sumInts_nonneg hnonneg
  obtain ⟨hin₀, hin₁⟩ := moneyRange_iff.mp hmoney
  have hsub : (sumIn - tx.vout.foldl (fun s o => s + o.nValue) (0 : Int64)).toInt =
      sumIn.toInt - sumInts (outputValues core raw) := by
    rw [Int64.toInt_sub, hsumOut, Int.bmod_eq_of_le (by omega) (by omega)]
  rw [hsub, Option.getD_some]
  omega

end

/-! ## The coinbase bound -/

/-- The bound on the coinbase, in integers. -/
theorem subsidyOk_spec {totalFee coinbaseVal subsidy : Int64}
    (h : subsidyOk totalFee coinbaseVal subsidy = true) :
    0 ≤ subsidy.toInt ∧ coinbaseVal.toInt ≤ subsidy.toInt + totalFee.toInt ∧
      addOverflows subsidy totalFee = false := by
  obtain ⟨hfee, hsub, -, -, hle⟩ := of_decide_eq_true h
  have hmax := maxMoney_toInt
  obtain ⟨hfee₀, hfee₁⟩ := moneyRange_iff.mp hfee
  obtain ⟨hsub₀, hsub₁⟩ := moneyRange_iff.mp hsub
  rw [Int64.le_iff_toInt_le, toInt_add_of_money hsub hfee] at hle
  exact ⟨hsub₀, hle, (addOverflows_eq_false (by omega) (by omega)).1⟩

/-- `coinbase_value` is the plain sum where that does not run over. -/
theorem coinbaseValueLoop_eq {t : Int64} {outs : List TxOut}
    (h : NoneOverflows (additionsFrom t (outs.map TxOut.nValue))) :
    coinbaseValueLoop t outs = (outs.map TxOut.nValue).foldl (· + ·) t := by
  induction outs generalizing t with
  | nil => rfl
  | cons o outs ih =>
    obtain ⟨hfirst, hrest⟩ := List.forall_mem_cons.mp h
    rw [coinbaseValueLoop, if_neg (by simpa using hfirst), List.map_cons, List.foldl_cons]
    exact ih hrest

/-! ## What coins are worth -/

/-- The values of the coins, added up. -/
def worth (coins : Multiset Coin) : ℤ := (coins.map fun c => c.value.toInt).sum

/-- What every created coin is: not of a negative value, and not at the null outpoint. -/
structure Coin.Sound (c : Coin) : Prop where
  value : 0 ≤ c.value.toInt
  outpoint : c.vout ≠ 0xffffffff

/-- The worth of two collections is the sum of their worths. -/
theorem worth_add (a b : Multiset Coin) : worth (a + b) = worth a + worth b := by
  rw [worth, Multiset.map_add, Multiset.sum_add]
  rfl

theorem worth_coe (coins : List Coin) : worth ↑coins = sumInts (coins.map Coin.value) := by
  rw [worth, Multiset.map_coe, Multiset.sum_coe, sumInts, List.map_map]
  rfl

theorem worth_nonneg {coins : Multiset Coin} (h : ∀ c ∈ coins, c.Sound) : 0 ≤ worth coins := by
  apply Multiset.sum_nonneg
  intro n hn
  obtain ⟨c, hc, rfl⟩ := Multiset.mem_map.mp hn
  exact (h c hc).value

/-- Fewer coins are worth no more. -/
theorem worth_mono {a b : Multiset Coin} (hle : a ≤ b) (h : ∀ c ∈ b, c.Sound) :
    worth a ≤ worth b := by
  obtain ⟨d, rfl⟩ := Multiset.le_iff_exists_add.mp hle
  rw [worth_add]
  exact le_add_of_nonneg_right
    (worth_nonneg fun c hc => h c (Multiset.mem_add.mpr (.inr hc)))

theorem worth_flatMap {α : Type} (as : List α) (f : α → List Coin) :
    worth ↑(as.flatMap f) = (as.map fun a => worth ↑(f a)).sum := by
  induction as with
  | nil => rfl
  | cons a as ih =>
    rw [List.flatMap_cons, ← Multiset.coe_add, worth_add, ih, List.map_cons, List.sum_cons]

section

variable {core : Core} {tx : Transaction} {height isCb mtp : UInt32}

/-- Coins that are created have the values of their outputs, and an index that is no null. -/
theorem sound_of_mem_createdCoins (hvalues : ∀ v ∈ tx.vout.map TxOut.nValue, 0 ≤ v.toInt)
    {c : Coin} (hc : c ∈ createdCoins core tx height isCb mtp) : c.Sound := by
  obtain ⟨v, o, hv, -, rfl⟩ := mem_createdCoins hc
  refine ⟨hvalues _ (List.mem_map_of_mem (List.mem_of_getElem? hv)), fun heq => ?_⟩
  have hlt := (List.getElem?_eq_some_iff.mp hv).1
  have hmax := tx.vout_lt
  have hnat := congrArg UInt32.toNat heq
  rw [UInt32.toNat_ofNat', Nat.mod_eq_of_lt (hlt.trans hmax)] at hnat
  have hnull : (0xffffffff : UInt32).toNat = 2 ^ 32 - 1 := rfl
  omega

/-- The spendable outputs are worth no more than all of them. -/
theorem worth_createdCoins_le (hvalues : ∀ v ∈ tx.vout.map TxOut.nValue, 0 ≤ v.toInt) :
    worth ↑(createdCoins core tx height isCb mtp) ≤ sumInts (tx.vout.map TxOut.nValue) := by
  rw [worth_coe, createdCoins]
  generalize tx.vout = vout at hvalues ⊢
  generalize 0 = k
  induction vout generalizing k with
  | nil => exact le_refl _
  | cons o vout ih =>
    obtain ⟨ho, hrest⟩ := List.forall_mem_cons.mp hvalues
    have hle := ih hrest (k + 1)
    rw [List.zipIdx_cons, List.filterMap_cons, List.map_cons, sumInts_cons]
    split
    · exact hle.trans (le_add_of_nonneg_left ho)
    · rename_i c hc
      dsimp only at hc
      split at hc
      · cases hc
      · cases hc
        rw [List.map_cons, sumInts_cons]
        exact add_le_add_right hle _

end

/-! ## A block -/

section

variable [DecidableEq H] {hs : Hashing H} {core : Core} {w : BlockWitness H} {mtp : UInt32}
  {chunks : Chunks H} {r : BlockResult H} {cb : Transaction} {views : List (TxView H)}
  {s : LoopState H} {stump : Stump H} {v : TxView H} {ti : ℕ}

omit [DecidableEq H] in
/-- The coins behind a transaction's inputs are worth what its prevouts say. -/
theorem TxView.worth_coins (hv : v.Fits core w ti) (hok : v.OkFrom hs core w mtp chunks 0) :
    worth ↑(v.coins core) = sumInts (prevoutValues core v.prevouts.1) := by
  obtain ⟨coin, hinput⟩ := hok 0 _ le_rfl (List.getElem?_eq_getElem hv.pos)
  have hspent : (v.spent core).length ≤ v.tx.vin.length := hinput.length.le
  have hzip : (v.tx.vin.zip (v.spent core)).length ≤ v.inputs.length := by
    rw [List.length_zip, hv.length]
    exact Nat.min_le_left _ _
  rw [worth_coe]
  congr 1
  calc (v.coins core).map Coin.value
      = (((v.inputs.zip (v.tx.vin.zip (v.spent core))).map Prod.snd).map Prod.snd).map
          TxOut.nValue := by
        rw [TxView.coins, List.map_map, List.map_map, List.map_map]
        rfl
    _ = (v.spent core).map TxOut.nValue := by
        rw [List.map_snd_zip hzip, List.map_snd_zip hspent]

omit [DecidableEq H] in
/-- A transaction whose coins are at real outpoints is no coinbase. -/
theorem TxView.not_coinbase (hshape : core.CoinbaseShape) (hv : v.Fits core w ti)
    (hok : v.OkFrom hs core w mtp chunks 0) (hsound : ∀ c ∈ v.coins core, c.Sound) :
    core.isCoinBase v.tx = false := by
  rw [← Bool.not_eq_true]
  intro hcoinbase
  obtain ⟨txin, hvin, hnull⟩ := hshape _ hcoinbase
  have hout := v.outpoints_coins hv hok
  rw [hvin, List.map_singleton] at hout
  obtain ⟨c, hc, heq⟩ := List.map_eq_singleton_iff.mp hout
  have hmem : c ∈ v.coins core := hc ▸ List.mem_singleton_self c
  exact (hsound c hmem).outpoint ((Prod.mk.inj heq).2.trans hnull)

/-- A transaction of the block has passed `check_tx`. -/
theorem Validated.checked (houts : core.ChecksOutputs)
    (hval : Validated hs core w mtp chunks r cb views s stump) (hv : v ∈ views) :
    core.unserializeTx v.raw.1 = some v.tx ∧
      checkTx core v.raw.1 v.prevouts.1 = some (1, v.fee core) ∧
      ∀ x ∈ v.tx.vout.map TxOut.nValue, 0 ≤ x.toInt := by
  obtain ⟨ti, hfit⟩ := hval.viewed.fits v hv
  obtain ⟨inp, coin, -, hfirst, hinput⟩ := (hval.passed v hv).first hfit
  have hpass := (hinput.check hfirst).1
  obtain ⟨hcheck, -⟩ := checkTx_ok houts hfit.tx hpass
  exact ⟨hfit.tx, hpass, (houts v.tx hcheck _ (List.prefix_refl _)).1⟩

/-- The fee of a transaction is what its coins are worth beyond its outputs. -/
theorem Validated.fee (houts : core.ChecksOutputs) (hshape : core.CoinbaseShape)
    (hval : Validated hs core w mtp chunks r cb views s stump) (hv : v ∈ views)
    (hsound : ∀ c ∈ v.coins core, c.Sound) :
    0 ≤ (v.fee core).toInt ∧
      (v.fee core).toInt + sumInts (v.tx.vout.map TxOut.nValue) = worth ↑(v.coins core) := by
  obtain ⟨ti, hfit⟩ := hval.viewed.fits v hv
  have hok := hval.passed v hv
  obtain ⟨htx, hpass, -⟩ := hval.checked houts hv
  obtain ⟨-, -, hfee⟩ := checkTx_ok houts htx hpass
  obtain ⟨hnonneg, heq⟩ := hfee (v.not_coinbase hshape hfit hok hsound)
  rw [outputValues, htx, Option.elim_some] at heq
  exact ⟨hnonneg, heq.trans (v.worth_coins hfit hok).symm⟩

/-- The pairs of the witness are those of the views. -/
theorem Validated.zip_eq (hval : Validated hs core w mtp chunks r cb views s stump) :
    w.txs.zip w.txPrevouts = views.map fun v => (v.raw, v.prevouts) := by
  have hraws := hval.viewed.raws
  have hprevouts := hval.viewed.prevouts_eq hval.prevouts
  rw [List.drop_zero] at hraws hprevouts
  rw [hraws, hprevouts, List.zip_map']

/-- The fees as the block check takes them from its witness. -/
theorem Validated.fees_eq (hval : Validated hs core w mtp chunks r cb views s stump) :
    w.fees core = views.map (TxView.fee core) := by
  rw [BlockWitness.fees, hval.zip_eq, List.map_map]
  rfl

/-- The coinbase has passed `check_tx`, and its value is exact. -/
theorem Validated.coinbase_checked (houts : core.ChecksOutputs)
    (hval : Validated hs core w mtp chunks r cb views s stump) :
    (∀ x ∈ cb.vout.map TxOut.nValue, 0 ≤ x.toInt) ∧
      sumInts (cb.vout.map TxOut.nValue) ≤ MAX_MONEY.toInt ∧
      r.coinbaseVal.toInt = sumInts (cb.vout.map TxOut.nValue) ∧
      NoneOverflows (checkTxAdditions core w.coinbaseTx [0]) ∧
      NoneOverflows (additionsFrom 0 (outputValues core w.coinbaseTx)) := by
  obtain ⟨fee, hpass⟩ := hval.cbCheck
  obtain ⟨hcheck, hno, -⟩ := checkTx_ok houts hval.coinbase hpass
  obtain ⟨hnonneg, hmax, hfold, hall⟩ := outputValues_checked houts hval.coinbase hcheck
  have hvalues : outputValues core w.coinbaseTx = cb.vout.map TxOut.nValue := by
    rw [outputValues, hval.coinbase, Option.elim_some]
  have hvalue := hval.coinbaseVal
  rw [coinbaseValue, hval.coinbase] at hvalue
  have hvalue : coinbaseValueLoop 0 cb.vout = r.coinbaseVal := Option.some.inj hvalue
  rw [hvalues] at hnonneg hmax hfold
  refine ⟨hnonneg, hmax, ?_, hno, hall⟩
  rw [← hvalue, coinbaseValueLoop_eq (hvalues ▸ hall), hfold]

/-- What a block creates are coins, worth no more than its outputs. -/
theorem Validated.sound_outputCoins (houts : core.ChecksOutputs)
    (hval : Validated hs core w mtp chunks r cb views s stump) :
    ∀ c ∈ outputCoins core w mtp cb views, c.Sound := by
  intro c hc
  rcases List.mem_append.mp hc with hc | hc
  · exact sound_of_mem_createdCoins (hval.coinbase_checked houts).1 hc
  · obtain ⟨v, hv, hc⟩ := List.mem_flatMap.mp hc
    exact sound_of_mem_createdCoins (hval.checked houts hv).2.2 hc

/-- What the block creates is worth no more than the outputs of all its transactions. -/
theorem Validated.worth_outputCoins_le (houts : core.ChecksOutputs)
    (hval : Validated hs core w mtp chunks r cb views s stump) :
    worth ↑(outputCoins core w mtp cb views) ≤ sumInts (cb.vout.map TxOut.nValue) +
      (views.map fun v => sumInts (v.tx.vout.map TxOut.nValue)).sum := by
  rw [outputCoins, ← Multiset.coe_add, worth_add, worth_flatMap]
  apply add_le_add
  · exact worth_createdCoins_le (hval.coinbase_checked houts).1
  · apply List.sum_le_sum
    intro v hv
    exact worth_createdCoins_le (hval.checked houts hv).2.2

/-- All fees together are what the spent coins are worth beyond the outputs. -/
theorem Validated.sum_fees (houts : core.ChecksOutputs) (hshape : core.CoinbaseShape)
    (hval : Validated hs core w mtp chunks r cb views s stump)
    (hsound : ∀ c ∈ spentCoins core views, c.Sound) :
    (∀ fee ∈ w.fees core, 0 ≤ fee.toInt) ∧ sumInts (w.fees core) +
      (views.map fun v => sumInts (v.tx.vout.map TxOut.nValue)).sum =
        worth ↑(spentCoins core views) := by
  have hfee (v : TxView H) (hv : v ∈ views) := hval.fee houts hshape hv
    fun c hc => hsound c (List.mem_flatMap_of_mem hv hc)
  constructor
  · intro fee hmem
    rw [hval.fees_eq] at hmem
    obtain ⟨v, hv, rfl⟩ := List.mem_map.mp hmem
    exact (hfee v hv).1
  · rw [hval.fees_eq, sumInts, List.map_map, spentCoins, worth_flatMap, ← List.sum_map_add]
    congr 1
    exact List.map_congr_left fun v hv => (hfee v hv).2

/-- No sum runs over while the fees together are below 2^63, and then the totals are exact. -/
theorem Validated.noneOverflows (houts : core.ChecksOutputs)
    (hval : Validated hs core w mtp chunks r cb views s stump) (hsubsidy : r.subsidyOk = true)
    (hnonneg : ∀ fee ∈ w.fees core, 0 ≤ fee.toInt) (hroom : sumInts (w.fees core) < 2 ^ 63) :
    NoneOverflows (moneyAdditions core w r) ∧ r.totalFee.toInt = sumInts (w.fees core) := by
  have hzero : (0 : Int64).toInt = 0 := rfl
  obtain ⟨hfold, hfees⟩ := foldl_add_exact (s := 0) hzero.ge hnonneg (by omega)
  obtain ⟨-, -, -, hcb, hvalue⟩ := hval.coinbase_checked houts
  have hbound := hval.subsidyOk
  rw [hsubsidy] at hbound
  obtain ⟨-, -, hlast⟩ := subsidyOk_spec hbound.symm
  constructor
  · refine .append ?_ (.append hfees (.append hcb (.append hvalue ?_)))
    · intro p hp
      rw [hval.zip_eq] at hp
      obtain ⟨q, hq, hp⟩ := List.mem_flatMap.mp hp
      obtain ⟨v, hv, rfl⟩ := List.mem_map.mp hq
      obtain ⟨htx, hpass, -⟩ := hval.checked houts hv
      exact (checkTx_ok houts htx hpass).2.1 p hp
    · exact .cons hlast fun p hp => by cases hp
  · rw [hval.totalFee, ← hval.fees_eq, hfold, hzero, zero_add]

/-- **A block leaves no more than there was and the subsidy**, and no sum of its check runs over. -/
theorem Extends.value (hleaf : hs.LeafInjective) (hnode : hs.NodeInjective)
    (hshape : core.CoinbaseShape) (houts : core.ChecksOutputs) {b : Boundary H} {height : UInt32}
    (hval : Validated hs core w mtp chunks r cb views s stump) (he : Extends core b height w r)
    {coins : List Coin} (hcoins : Stump.Holds hs b.stump coins) (hsound : ∀ c ∈ coins, c.Sound)
    (hroom : worth ↑coins ≤ 2 ^ 62) :
    ∃ coins' : List Coin, Stump.Holds hs (b.next height r).stump coins' ∧
      (∀ c ∈ coins', c.Sound) ∧ worth ↑coins' ≤ worth ↑coins + (blockSubsidy core w.height).toInt ∧
      NoneOverflows (moneyAdditions core w r) := by
  obtain ⟨coins', hholds, hle⟩ := he.conserves hleaf hnode hval hcoins
  have hall : ∀ c ∈ (↑coins + ↑(outputCoins core w mtp cb views) : Multiset Coin), c.Sound := by
    intro c hc
    rcases Multiset.mem_add.mp hc with hc | hc
    · exact hsound c hc
    · exact hval.sound_outputCoins houts c hc
  have hleft (c : Coin) (hc : c ∈ (↑coins' + (↑(spentCoins core views) +
      ↑(overwrittenCoins core w cb)) : Multiset Coin)) : c.Sound :=
    hall c (Multiset.mem_of_le hle hc)
  have hsound' : ∀ c ∈ coins', c.Sound := fun c hc => hleft c (Multiset.mem_add.mpr (.inl hc))
  have hspent : ∀ c ∈ spentCoins core views, c.Sound := fun c hc =>
    hleft c (Multiset.mem_add.mpr (.inr (Multiset.mem_add.mpr (.inl hc))))
  have hover : 0 ≤ worth ↑(overwrittenCoins core w cb) := worth_nonneg fun c hc =>
    hleft c (Multiset.mem_add.mpr (.inr (Multiset.mem_add.mpr (.inr hc))))
  have hworth := worth_mono hle hall
  rw [worth_add, worth_add, worth_add] at hworth
  have hkept : 0 ≤ worth ↑coins' := worth_nonneg hsound'
  have houtputs := hval.worth_outputCoins_le houts
  obtain ⟨hnonneg, hfees⟩ := hval.sum_fees houts hshape hspent
  obtain ⟨-, hcbMax, hcbVal, -⟩ := hval.coinbase_checked houts
  have hmax := maxMoney_toInt
  -- the fees are worth no more than what was held and what the coinbase pays
  have hbelow : sumInts (w.fees core) < 2 ^ 63 := by omega
  have hsubsidy := (blockValid_iff.mp he.valid).2.2.2.1
  obtain ⟨hno, htotal⟩ := hval.noneOverflows houts hsubsidy hnonneg hbelow
  have hbound := hval.subsidyOk
  rw [hsubsidy] at hbound
  obtain ⟨-, hpaid, -⟩ := subsidyOk_spec hbound.symm
  rw [hval.subsidy, hcbVal, htotal] at hpaid
  exact ⟨coins', hholds, hsound', by omega, hno⟩

end

end Guest
end Hazync
