import Hazync.Smt.Roots

/-!
# The per-block BIP30 transition (`coinbase-smt/src/bip30.rs`)

A block inserts its coinbase txid with the count of its spendable outputs, after a proof that the
txid is absent, and takes one off the count of the coinbase behind each coinbase output it
spends. Each proof is against the root its step starts from. On a root that is the root of a map
the transition is one of the map (`applyBlock_sound`), whatever the proofs are.

## Why counts

BIP30 forbids a transaction whose txid is that of one with unspent outputs. Since coinbases have
carried their height this can matter for old coinbases only, so it is enough to know, for each
coinbase, how many of its outputs are left. A block's own coinbase must not be in the map; that is
the check, and it is a proof of absence. Two blocks of the chain break the rule and are exempt.
There the prior count is given with the update, and is overwritten.

The counts live in the tree as non-zero numbers, and a key whose count reaches zero is taken out. So
a spend is an update from `n` to `n - 1`, or from 1 to nothing. The proofs of a block are for the
roots one after the other, in the order in which the block is applied: the insert first, then each
spend.

## The counts after a block

The transition says what each step does. What it comes to for one key is in `foldl_decrement`: as
many are taken off as there are spends of that key, and what is left is `left n k`. The arithmetic
is that of `u32`, where a count of zero that was stored would wrap. `period` is there to say so, and
the tree never holds one.
-/

namespace Hazync
namespace Smt

open ByteStrings

variable {H : Type}

/-- One coinbase-output spend. -/
structure Spend (H : Type) where
  coinbaseTxid : Bytes32
  currentCount : UInt32
  proof : Proof H
  deriving DecidableEq

/-- Everything the transition needs for one block. -/
structure BlockUpdate (H : Type) where
  coinbaseTxid : Bytes32
  coinbaseOutputs : UInt32
  absenceProof : Proof H
  /-- `Some(prior_count)` at the two grandfathered blocks only. -/
  overwrite : Option UInt32
  spends : List (Spend H)

inductive Bip30Error
  | duplicateUnspentCoinbase
  | badProof
  | spendFromEmpty
  | overwriteFromEmpty
  deriving DecidableEq

/-- A count as the tree stores it: zero is absent. -/
def stored (n : UInt32) : Option UInt32 := if n = 0 then none else some n

variable [DecidableEq H] (hs : Hashing H)

/-- One round of the decrement loop. -/
def applySpend (cur : H) (s : Spend H) : Except Bip30Error H :=
  if s.currentCount = 0 then .error .spendFromEmpty
  else
    match apply hs cur s.coinbaseTxid (some s.currentCount) (stored (s.currentCount - 1))
      s.proof with
    | none => .error .badProof
    | some r => .ok r

/-- The check and the insert. -/
def applyCoinbase (root : H) (u : BlockUpdate H) : Except Bip30Error H :=
  match u.overwrite with
  | none =>
    if ¬ verify hs root u.coinbaseTxid none u.absenceProof then .error .duplicateUnspentCoinbase
    else
      match apply hs root u.coinbaseTxid none (stored u.coinbaseOutputs) u.absenceProof with
      | none => .error .badProof
      | some r => .ok r
  | some prior =>
    if prior = 0 then .error .overwriteFromEmpty
    else
      match apply hs root u.coinbaseTxid (some prior) (stored u.coinbaseOutputs)
        u.absenceProof with
      | none => .error .badProof
      | some r => .ok r

/-- The coinbase first, then the spends one after the other. -/
def applyBlock (root : H) (u : BlockUpdate H) : Except Bip30Error H := do
  let cur ← applyCoinbase hs root u
  u.spends.foldlM (applySpend hs) cur

omit [DecidableEq H]

/-! ## The transition of the map -/

/-- One output of the coinbase `key` is spent. -/
def Counts.decrement (m : Counts) (key : Bytes32) : Counts :=
  Function.update m key ((m key).bind fun n => stored (n - 1))

/-- A block's coinbase enters with `outputs` unspent outputs, then each spend takes one off. -/
def Counts.transition (m : Counts) (coinbase : Bytes32) (outputs : UInt32)
    (spends : List Bytes32) : Counts :=
  spends.foldl Counts.decrement (Function.update m coinbase (stored outputs))

/-- What a list of spends asks of the map it starts from. -/
def SpendsFrom (m : Counts) : List (Spend H) → Prop
  | [] => True
  | s :: spends => s.currentCount ≠ 0 ∧ m s.coinbaseTxid = some s.currentCount ∧
      SpendsFrom (m.decrement s.coinbaseTxid) spends

/-- The conditions on the spends, one by one: each count is that of its txid once the coinbase is
    in and the spends before it are out. -/
theorem spendsFrom_iff {m : Counts} {spends : List (Spend H)} :
    SpendsFrom m spends ↔ ∀ i s, spends[i]? = some s → s.currentCount ≠ 0 ∧
      ((spends.take i).map Spend.coinbaseTxid).foldl Counts.decrement m s.coinbaseTxid =
        some s.currentCount := by
  induction spends generalizing m with
  | nil => exact ⟨fun _ i s h => (nomatch h), fun _ => trivial⟩
  | cons s spends ih =>
    rw [SpendsFrom, ih]
    constructor
    · rintro ⟨hzero, hcount, hrest⟩ i s' hs'
      cases i with
      | zero =>
        obtain rfl := Option.some.inj hs'
        exact ⟨hzero, hcount⟩
      | succ i => exact hrest i s' hs'
    · intro hall
      obtain ⟨hzero, hcount⟩ := hall 0 s rfl
      exact ⟨hzero, hcount, fun i s' hs' => hall (i + 1) s' hs'⟩

/-- What the transition asks of the map a block starts from. -/
structure Admissible (m : Counts) (u : BlockUpdate H) : Prop where
  /-- Absent when nothing is overwritten, else exactly the claimed count. -/
  coinbase : m u.coinbaseTxid = u.overwrite
  overwrite : u.overwrite ≠ some 0
  spends : SpendsFrom (Function.update m u.coinbaseTxid (stored u.coinbaseOutputs)) u.spends

/-! ### Counts after a run -/

/-- How many decrements take a count off the map. A count of 0, which no tree holds, would wrap. -/
def period (n : UInt32) : ℕ := if n = 0 then 2 ^ 32 else n.toNat

/-- One decrement less. -/
theorem period_pred {n : UInt32} (h : n ≠ 1) : period n = period (n - 1) + 1 := by
  have hne : n - 1 ≠ 0 := by grind
  rw [period, period, if_neg hne]
  split
  · rename_i h0
    subst h0
    rfl
  · rename_i h0
    have : 1 ≤ n := by grind
    rw [UInt32.toNat_sub_of_le _ _ this]
    have := UInt32.pos_iff_ne_zero.mpr h0
    have : 0 < n.toNat := UInt32.lt_iff_toNat_lt.mp this
    show n.toNat = n.toNat - 1 + 1
    omega

/-- The number of decrements is the count, below the wrap. -/
theorem ofNat_period (n : UInt32) : UInt32.ofNat (period n) = n := by
  rw [period]
  split
  · rename_i h0
    subst h0
    rfl
  · exact UInt32.ofNat_toNat

/-- There is at least one. -/
theorem period_pos (n : UInt32) : 0 < period n := by
  rw [period]
  split
  · decide
  · rename_i h0
    exact Nat.pos_of_ne_zero fun h => h0 (UInt32.toNat_inj.mp h)

/-- What is left of a count after `k` decrements. -/
def left (n : UInt32) (k : ℕ) : Option UInt32 :=
  if period n ≤ k then none else some (UInt32.ofNat (period n - k))

/-- Before any of them. -/
theorem left_zero (n : UInt32) : left n 0 = some n := by
  rw [left, if_neg (Nat.not_le.mpr (period_pos n)), Nat.sub_zero, ofNat_period]

/-- After one of them, and the others. -/
theorem left_succ (n : UInt32) (k : ℕ) :
    left n (k + 1) = (stored (n - 1)).bind fun n' => left n' k := by
  by_cases hn : n = 1
  · subst hn
    exact if_pos (Nat.le_add_left 1 k)
  · have hstored : stored (n - 1) = some (n - 1) := if_neg fun h => hn (by grind)
    rw [hstored, Option.bind_some, left, left, period_pred hn]
    simp only [Nat.add_le_add_iff_right, Nat.add_sub_add_right]

/-- A run of decrements, key by key. -/
theorem foldl_decrement (m : Counts) (spends : List Bytes32) (t : Bytes32) :
    spends.foldl Counts.decrement m t = (m t).bind fun n => left n (spends.count t) := by
  induction spends generalizing m with
  | nil =>
    rw [List.foldl_nil, List.count_nil]
    simp only [left_zero, Option.bind_fun_some]
  | cons s spends ih =>
    rw [List.foldl_cons, ih]
    by_cases hst : s = t
    · subst hst
      rw [Counts.decrement, Function.update_self, List.count_cons_self, Option.bind_assoc]
      simp only [left_succ]
    · rw [Counts.decrement, Function.update_of_ne (Ne.symm hst), List.count_cons_of_ne hst]

/-- And never more than there are numbers. -/
theorem period_le (n : UInt32) : period n ≤ 2 ^ 32 := by
  rw [period]
  split
  · exact le_rfl
  · exact n.toNat_lt.le

/-- More decrements leave the same only where there is nothing left. -/
theorem left_eq_left_iff {n : UInt32} {j k : ℕ} (h : j < k) :
    left n j = left n k ↔ period n ≤ j := by
  constructor
  · intro heq
    by_contra hlt
    rw [left, left, if_neg hlt] at heq
    split at heq
    · cases heq
    · have hmod := congrArg UInt32.toNat (Option.some.inj heq)
      have hle := period_le n
      rw [UInt32.toNat_ofNat', UInt32.toNat_ofNat'] at hmod
      omega
  · intro hle
    rw [left, left, if_pos hle, if_pos (hle.trans h.le)]
/-- Two runs of decrements, the first among the second, leave the same map only if the second has
    no more of what there is left to take off. -/
theorem foldl_decrement_eq_iff {m : Counts} {as bs : List Bytes32}
    (hsub : ∀ t, as.count t ≤ bs.count t) :
    as.foldl Counts.decrement m = bs.foldl Counts.decrement m ↔
      ∀ t, as.count t < bs.count t → ∀ n, m t = some n → period n ≤ as.count t := by
  constructor
  · intro heq t hlt n hn
    have ht := congrFun heq t
    rw [foldl_decrement, foldl_decrement, hn, Option.bind_some, Option.bind_some] at ht
    exact (left_eq_left_iff hlt).mp ht
  · intro hall
    funext t
    rw [foldl_decrement, foldl_decrement]
    rcases (hsub t).eq_or_lt with hcount | hlt
    · rw [hcount]
    · cases hn : m t with
      | none => rfl
      | some n => exact (left_eq_left_iff hlt).mpr (hall t hlt n hn)

/-! ## What an accepted update is -/

variable [DecidableEq H] {hs}

/-- An accepted spend is of a count that is there, and takes one off. -/
theorem applySpend_sound (hnode : NodeInjective hs) (hslot : SlotInjective hs) {m : Counts}
    {s : Spend H} {r : H} (h : applySpend hs (mapRoot hs m) s = .ok r) :
    m s.coinbaseTxid = some s.currentCount ∧ s.currentCount ≠ 0 ∧
      r = mapRoot hs (m.decrement s.coinbaseTxid) := by
  rw [applySpend] at h
  split at h
  · cases h
  rename_i hzero
  split at h
  · cases h
  rename_i r' happly
  cases h
  obtain ⟨hcount, rfl⟩ := apply_sound hnode hslot happly
  refine ⟨hcount.symm, hzero, ?_⟩
  rw [Counts.decrement, ← hcount, Option.bind_some]

/-- An accepted coinbase was absent, or overwrites what it says. -/
theorem applyCoinbase_sound (hnode : NodeInjective hs) (hslot : SlotInjective hs) {m : Counts}
    {u : BlockUpdate H} {r : H} (h : applyCoinbase hs (mapRoot hs m) u = .ok r) :
    m u.coinbaseTxid = u.overwrite ∧ u.overwrite ≠ some 0 ∧
      r = mapRoot hs (Function.update m u.coinbaseTxid (stored u.coinbaseOutputs)) := by
  rw [applyCoinbase] at h
  cases hover : u.overwrite with
  | none =>
    simp only [hover] at h
    split at h
    · cases h
    split at h
    · cases h
    rename_i happly
    cases h
    obtain ⟨hcount, rfl⟩ := apply_sound hnode hslot happly
    exact ⟨hcount.symm, (Option.some_ne_none 0).symm, rfl⟩
  | some prior =>
    simp only [hover] at h
    split at h
    · cases h
    rename_i hprior
    split at h
    · cases h
    rename_i happly
    cases h
    obtain ⟨hcount, rfl⟩ := apply_sound hnode hslot happly
    exact ⟨hcount.symm, fun hzero => hprior (Option.some.inj hzero), rfl⟩

/-- So each of the spends, from the map that the ones before it left. -/
theorem applySpends_sound (hnode : NodeInjective hs) (hslot : SlotInjective hs) {m : Counts}
    {spends : List (Spend H)} {r : H}
    (h : spends.foldlM (applySpend hs) (mapRoot hs m) = .ok r) :
    SpendsFrom m spends ∧
      r = mapRoot hs ((spends.map Spend.coinbaseTxid).foldl Counts.decrement m) := by
  induction spends generalizing m with
  | nil =>
    cases h
    exact ⟨trivial, rfl⟩
  | cons s spends ih =>
    rw [List.foldlM_cons] at h
    cases hstep : applySpend hs (mapRoot hs m) s with
    | error e => simp [hstep, bind, Except.bind] at h
    | ok r₁ =>
      obtain ⟨hcount, hzero, rfl⟩ := applySpend_sound hnode hslot hstep
      rw [hstep] at h
      obtain ⟨hrest, hr⟩ := ih h
      exact ⟨⟨hzero, hcount, hrest⟩, hr⟩

/-- **The transition of the root is the transition of the map**, for any proofs it accepts. -/
theorem applyBlock_sound (hnode : NodeInjective hs) (hslot : SlotInjective hs) {m : Counts}
    {u : BlockUpdate H} {r : H} (h : applyBlock hs (mapRoot hs m) u = .ok r) :
    Admissible m u ∧ r = mapRoot hs (m.transition u.coinbaseTxid u.coinbaseOutputs
      (u.spends.map Spend.coinbaseTxid)) := by
  rw [applyBlock] at h
  cases hcb : applyCoinbase hs (mapRoot hs m) u with
  | error e => simp [hcb, bind, Except.bind] at h
  | ok r₁ =>
    obtain ⟨hcount, hzero, rfl⟩ := applyCoinbase_sound hnode hslot hcb
    rw [hcb] at h
    obtain ⟨hspends, hr⟩ := applySpends_sound hnode hslot h
    exact ⟨⟨hcount, hzero, hspends⟩, hr⟩

end Smt
end Hazync
