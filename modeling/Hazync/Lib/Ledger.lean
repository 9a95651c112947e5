import Mathlib.Algebra.Order.Group.Multiset
import Mathlib.Data.List.Nodup
import Mathlib.Tactic.Abel

/-!
# Sequential spending, and spending in a batch

A ledger is a multiset of coins. Transactions are applied one after the other: the coins a
transaction spends have to be there and go, then the coins it creates enter. `connect_of_batch`
is the other way to get there: take the coins that no transaction of the batch creates out of the
ledger all at once, set off the others against what the batch creates, and add what is left.

## Two orders

A block's transactions are meant one after the other: each spends coins that are there, perhaps
because an earlier one of the block has made them. An accumulator that is updated once for a block
works differently. Coins that are made and spent within the block never get into it. It deletes the
others, all at the start, and adds at the end what remains. That both come to the same ledger is not
so in general. A batch could spend a coin before it is made, or twice. The conditions of
`connect_of_batch` exclude that: no coin is made twice, none that is made is spent twice, and where
one is spent it has been made by an earlier transaction.

Coins are arbitrary here, and a ledger is a multiset of them, so that the same coin may be in it
more than once. Removing one is then removing one of its copies. The results are equations between
multisets, and the proofs move terms from side to side.
-/

namespace Ledger

variable {α : Type*}

/-- The coins a transaction spends, and the coins it creates. -/
structure Tx (α : Type*) where
  ins : List α
  outs : List α

variable [DecidableEq α]

/-- The coin has to be there, and one of it goes. -/
def spend (u : Multiset α) (a : α) : Option (Multiset α) :=
  if a ∈ u then some (u.erase a) else none

/-- One after the other. -/
def spendAll (u : Multiset α) (as : List α) : Option (Multiset α) := as.foldlM spend u

/-- The inputs first, then the outputs. -/
def connectTx (u : Multiset α) (tx : Tx α) : Option (Multiset α) := do
  let u ← spendAll u tx.ins
  some (u + tx.outs)

/-- Transaction by transaction. -/
def connect (u : Multiset α) (txs : List (Tx α)) : Option (Multiset α) := txs.foldlM connectTx u

/-! ## What a run of spends does -/

/-- A coin just added can be spent. -/
theorem spend_cons (u : Multiset α) (a : α) : spend (a ::ₘ u) a = some u := by
  rw [spend, if_pos (Multiset.mem_cons_self a u), Multiset.erase_cons_head]

/-- Spending takes away one coin and nothing else. -/
theorem spend_eq_some {u v : Multiset α} {a : α} : spend u a = some v ↔ u = a ::ₘ v := by
  constructor
  · intro h
    rw [spend] at h
    split at h
    · rename_i hmem
      rw [← Option.some.inj h, Multiset.cons_erase hmem]
    · cases h
  · rintro rfl
    exact spend_cons v a

/-- Spending one by one succeeds exactly when the coins are there together. -/
theorem spendAll_eq_some {u v : Multiset α} {as : List α} :
    spendAll u as = some v ↔ u = ↑as + v := by
  induction as generalizing u with
  | nil =>
    rw [spendAll, List.foldlM_nil, Multiset.coe_nil, zero_add]
    exact Option.some_inj
  | cons a as ih =>
    rw [spendAll, List.foldlM_cons, ← Multiset.cons_coe, Multiset.cons_add]
    constructor
    · intro h
      obtain ⟨u', hstep, h⟩ := Option.bind_eq_some_iff.mp h
      rw [spend_eq_some.mp hstep, ih.mp h]
    · rintro rfl
      rw [spend_cons]
      exact ih.mpr rfl

/-- What a transaction does to the ledger. -/
theorem connectTx_eq_some {u v : Multiset α} {tx : Tx α} :
    connectTx u tx = some v ↔ ∃ u', u = ↑tx.ins + u' ∧ v = u' + ↑tx.outs := by
  constructor
  · intro h
    obtain ⟨u', hspend, h⟩ := Option.bind_eq_some_iff.mp h
    exact ⟨u', spendAll_eq_some.mp hspend, (Option.some.inj h).symm⟩
  · rintro ⟨u', hu, rfl⟩
    rw [connectTx, spendAll_eq_some.mpr hu]
    rfl

theorem connect_cons {u : Multiset α} {tx : Tx α} {txs : List (Tx α)} :
    connect u (tx :: txs) = (connectTx u tx).bind fun u' => connect u' txs := List.foldlM_cons

/-- No coin is lost, and none is spent that was neither there nor created. -/
theorem connect_conserves {u v : Multiset α} {txs : List (Tx α)} (h : connect u txs = some v) :
    u + ↑(txs.flatMap Tx.outs) = ↑(txs.flatMap Tx.ins) + v := by
  induction txs generalizing u with
  | nil =>
    obtain rfl := Option.some.inj h
    rw [List.flatMap_nil, List.flatMap_nil, add_comm]
  | cons tx txs ih =>
    rw [connect_cons] at h
    obtain ⟨u₁, hstep, h⟩ := Option.bind_eq_some_iff.mp h
    obtain ⟨u', rfl, rfl⟩ := connectTx_eq_some.mp hstep
    have htail := ih h
    rw [add_assoc] at htail
    rw [List.flatMap_cons, List.flatMap_cons, ← Multiset.coe_add, ← Multiset.coe_add, add_assoc,
      add_assoc, htail]

/-! ## Batches -/

/-- The inputs of a batch that spend a coin of `created`, and those that do not. -/
def internal (created : List α) (ins : List α) : List α := ins.filter (· ∈ created)

/-- The other inputs, which spend what was there before. -/
def external (created : List α) (ins : List α) : List α := ins.filter (· ∉ created)

/-- The coins of `created` that are not spent. -/
def unspent (created spent : List α) : List α := created.filter (· ∉ spent)

/-- Every coin of `created` that a transaction spends is in `done` or an earlier output. -/
def Earlier (created : List α) : List α → List (Tx α) → Prop
  | _, [] => True
  | done, tx :: txs => internal created tx.ins ⊆ done ∧ Earlier created (done ++ tx.outs) txs

/-- Every input is one or the other. -/
theorem coe_internal_add_external (created ins : List α) :
    (internal created ins : Multiset α) + external created ins = ins := by
  have h := Multiset.filter_add_not (· ∈ created) (ins : Multiset α)
  rwa [Multiset.filter_coe, Multiset.filter_coe] at h

theorem internal_append (created xs ys : List α) :
    internal created (xs ++ ys) = internal created xs ++ internal created ys :=
  List.filter_append _ _

theorem external_append (created xs ys : List α) :
    external created (xs ++ ys) = external created xs ++ external created ys :=
  List.filter_append _ _

/-- Without repetitions, what is spent and what is not make up what there was. -/
theorem coe_eq_spent_add_unspent {created spent : List α} (hcreated : created.Nodup)
    (hspent : spent.Nodup) (hsub : spent ⊆ created) :
    (created : Multiset α) = spent + unspent created spent := by
  have hin : (created.filter (· ∈ spent)).Perm spent := by
    rw [List.perm_ext_iff_of_nodup (hcreated.filter _) hspent]
    intro a
    rw [List.mem_filter, decide_eq_true_eq]
    exact ⟨And.right, fun ha => ⟨hsub ha, ha⟩⟩
  have h := Multiset.filter_add_not (· ∈ spent) (created : Multiset α)
  rw [Multiset.filter_coe, Multiset.filter_coe, Multiset.coe_eq_coe.mpr hin] at h
  exact h.symm

/-- New coins that are not among the spent ones stay unspent. -/
theorem unspent_append {created outs spent : List α} (hnew : ∀ a ∈ outs, a ∉ spent) :
    unspent (created ++ outs) spent = unspent created spent ++ outs := by
  rw [unspent, List.filter_append, List.filter_eq_self.mpr fun a ha => decide_eq_true (hnew a ha)]
  rfl

/-- One transaction of a batch, its external inputs taken from the ledger and the others from
what the batch has created and not spent. -/
theorem connectTx_of_batch (rest : Multiset α) {created done spent : List α} {tx : Tx α}
    (hdone : done.Nodup) (honce : (spent ++ internal created tx.ins).Nodup) (hspent : spent ⊆ done)
    (hearlier : internal created tx.ins ⊆ done) :
    connectTx ((external created tx.ins : Multiset α) + rest +
        (unspent done spent : Multiset α)) tx =
      some (rest + unspent done (spent ++ internal created tx.ins) + tx.outs) := by
  refine connectTx_eq_some.mpr ⟨_, ?_, rfl⟩
  have hnow := coe_eq_spent_add_unspent hdone (List.Nodup.of_append_left honce) hspent
  have hthen := coe_eq_spent_add_unspent hdone honce (List.append_subset.mpr ⟨hspent, hearlier⟩)
  rw [hnow, ← Multiset.coe_add, add_assoc] at hthen
  rw [← coe_internal_add_external created tx.ins, add_left_cancel hthen]
  abel

/-- **A batch is its transactions one by one**, when no created coin comes twice or is spent
twice, and none is spent before it is there. -/
theorem connect_of_batch (rest : Multiset α) {created done spent : List α} {txs : List (Tx α)}
    (hcreated : (done ++ txs.flatMap Tx.outs).Nodup)
    (honce : (spent ++ internal created (txs.flatMap Tx.ins)).Nodup) (hspent : spent ⊆ done)
    (hearlier : Earlier created done txs) :
    connect ((external created (txs.flatMap Tx.ins) : Multiset α) + rest +
        (unspent done spent : Multiset α)) txs =
      some (rest + unspent (done ++ txs.flatMap Tx.outs)
        (spent ++ internal created (txs.flatMap Tx.ins))) := by
  induction txs generalizing done spent with
  | nil => simp [connect, external, internal]
  | cons tx txs ih =>
    obtain ⟨hnow, hlater⟩ := hearlier
    rw [List.flatMap_cons, ← List.append_assoc] at hcreated
    rw [List.flatMap_cons, internal_append, ← List.append_assoc] at honce
    have hdone := List.Nodup.of_append_left hcreated
    have hstep := connectTx_of_batch ((external created (txs.flatMap Tx.ins) : Multiset α) + rest)
      (List.Nodup.of_append_left hdone) (List.Nodup.of_append_left honce) hspent hnow
    have hsub : spent ++ internal created tx.ins ⊆ done :=
      List.append_subset.mpr ⟨hspent, hnow⟩
    have hrest := ih hcreated honce (fun a ha => List.mem_append_left _ (hsub ha)) hlater
    rw [unspent_append fun a ha hmem => List.disjoint_of_nodup_append hdone (hsub hmem) ha,
      ← Multiset.coe_add, ← add_assoc] at hrest
    rw [List.flatMap_cons, List.flatMap_cons, external_append, internal_append, connect_cons,
      ← Multiset.coe_add, add_assoc (external created tx.ins : Multiset α), hstep,
      Option.bind_some, hrest, List.append_assoc, List.append_assoc]

end Ledger
