import Hazync.Guest.Witness
import Hazync.Smt.Transition

/-!
# The bridge's step of the coinbase SMT (`smt_advance`, `prover/host/src/main.rs`)

The bridge proves the coinbase absent, inserts it, and proves and decrements each spend, in the
guest's order; and it records what each key it touches held before, which is what a rewind puts
back. `smtAdvance_ok` says both: the guest accepts the witness with the root of the tree at the end,
and the record is right, so that it undoes the step (`undoPrior_ok`).

A proof in the tree is of the tree at that moment, like one in the accumulator: each spend is proved
against the tree that the spend before it has left. `Counts` is the abstract tree, a count for each
txid; the bridge's cache of it and the guest's roots are related in `Hazync.Smt`.

The record is made before each write and only once for a key, so it holds the earliest value. That
makes the order of the undo irrelevant, which is as well, since a rewind goes through it from the
front.
-/

namespace Hazync
namespace Bridge

open ByteStrings
open Smt (Counts Spend stored)
open Guest (SmtWitness)

variable {H : Type} [DecidableEq H] (hs : Hashing H)

/-- What the loop over the spends has so far: the spends, the record, and the tree. -/
structure SmtStep (H : Type) where
  spends : List (Spend H)
  prior : List (Bytes32 × Option UInt32)
  smt : Smt H

/-- One spend. `none` is the panic of a coinbase held at zero. -/
def advanceSpend (acc : SmtStep H) (t : Bytes32) : Option (SmtStep H) :=
  let cur := (acc.smt.get t).getD 0
  if cur > 0 then
    some
      { spends := acc.spends ++ [⟨t, cur, acc.smt.prove hs t⟩]
        prior := if acc.prior.any fun p => p.1 = t then acc.prior
          else acc.prior ++ [(t, acc.smt.get t)]
        smt := acc.smt.insert hs t (cur - 1) }
  else none

/-- The coinbase goes in; one without spendable outputs takes a duplicate out. -/
def enterCoinbase (smt : Smt H) (coinbaseTxid : Bytes32) (coinbaseOutputs : UInt32)
    (grandfathered : Bool) : Smt H :=
  if coinbaseOutputs > 0 then smt.insert hs coinbaseTxid coinbaseOutputs
  else if grandfathered then smt.remove hs coinbaseTxid
  else smt

/-- `smt_overwrite`; `none` is the panic of a duplicate that the tree does not hold. -/
def overwriteOf (smt : Smt H) (coinbaseTxid : Bytes32) (grandfathered : Bool) :
    Option (Option UInt32) :=
  if grandfathered then (smt.get coinbaseTxid).map some else some none

/-- `smt_advance`; `none` is a panic. -/
def smtAdvance (smt : Smt H) (coinbaseTxid : Bytes32) (coinbaseOutputs : UInt32)
    (coinbaseSpends : List Bytes32) (grandfathered : Bool) :
    Option (SmtWitness H × List (Bytes32 × Option UInt32) × Smt H) := do
  let smtOverwrite ← overwriteOf smt coinbaseTxid grandfathered
  let acc ← coinbaseSpends.foldlM (advanceSpend hs)
    { spends := []
      prior := [(coinbaseTxid, smt.get coinbaseTxid)]
      smt := enterCoinbase hs smt coinbaseTxid coinbaseOutputs grandfathered }
  some
    ({ coinbaseTxid := coinbaseTxid
       coinbaseOutputs := coinbaseOutputs
       absenceProof := smt.prove hs coinbaseTxid
       spends := acc.spends
       smtOverwrite := smtOverwrite }, acc.prior, acc.smt)

/-- The SMT part of a rewind: every touched key goes back to what it held. -/
def undoPrior (smt : Smt H) (prior : List (Bytes32 × Option UInt32)) : Smt H :=
  prior.foldl (fun smt p => match p.2 with
    | some v => smt.insert hs p.1 v
    | none => smt.remove hs p.1) smt

variable {hs} {m : Counts}

/-- The record has every key at which the map changed, with what it held. -/
structure Records (m : Counts) (prior : List (Bytes32 × Option UInt32)) (m' : Counts) : Prop where
  held : ∀ p ∈ prior, p.2 = m p.1
  rest : ∀ k, k ∉ prior.map Prod.fst → m' k = m k

omit [DecidableEq H] in
theorem stored_of_pos {n : UInt32} (h : n > 0) : stored n = some n :=
  if_neg (UInt32.pos_iff_ne_zero.mp h)

/-- Recording a key before it changes keeps the record. A key that is in it already has the earlier
    value. -/
theorem Records.record {prior : List (Bytes32 × Option UInt32)} {m' : Counts}
    (h : Records m prior m') (k : Bytes32) (v : Option UInt32) :
    Records m (if prior.any fun p => p.1 = k then prior else prior ++ [(k, m' k)])
      (Function.update m' k v) := by
  by_cases hmem : k ∈ prior.map Prod.fst
  · have hany : (prior.any fun p => p.1 = k) = true := by
      obtain ⟨p, hp, hk⟩ := List.mem_map.mp hmem
      exact List.any_eq_true.mpr ⟨p, hp, decide_eq_true hk⟩
    rw [if_pos hany]
    refine ⟨h.held, fun l hl => ?_⟩
    have hlk : l ≠ k := fun heq => hl (heq ▸ hmem)
    rw [Function.update_of_ne hlk, h.rest l hl]
  · have hany : ¬ (prior.any fun p => p.1 = k) = true := by
      intro hany
      obtain ⟨p, hp, hk⟩ := List.any_eq_true.mp hany
      exact hmem (List.mem_map.mpr ⟨p, hp, of_decide_eq_true hk⟩)
    rw [if_neg hany]
    refine ⟨fun p hp => ?_, fun l hl => ?_⟩
    · rcases List.mem_append.mp hp with hp | hp
      · exact h.held p hp
      · obtain rfl := List.mem_singleton.mp hp
        exact h.rest k hmem
    · rw [List.map_append, List.mem_append, not_or, List.map_singleton, List.mem_singleton] at hl
      rw [Function.update_of_ne hl.2, h.rest l hl.1]

/-- One spend, taken apart: the count is there, the proof is of the tree as it stands, and the count
    goes down by one. -/
theorem advanceSpend_ok {acc acc' : SmtStep H} {t : Bytes32}
    (h : advanceSpend hs acc t = some acc') (hcached : acc.smt.Cached hs)
    (hrec : Records m acc.prior acc.smt.get) :
    ∃ cur, cur ≠ 0 ∧ acc.smt.get t = some cur ∧
      acc'.spends = acc.spends ++ [⟨t, cur, acc.smt.prove hs t⟩] ∧
      acc'.smt = acc.smt.insert hs t (cur - 1) ∧
      acc'.smt.get = acc.smt.get.decrement t ∧ Records m acc'.prior acc'.smt.get := by
  dsimp only [advanceSpend] at h
  rw [Option.ite_none_right_eq_some] at h
  obtain ⟨hpos, heq⟩ := h
  cases hget : acc.smt.get t with
  | none =>
    rw [hget] at hpos
    exact absurd hpos (by decide)
  | some cur =>
    rw [hget, Option.getD_some] at hpos heq
    have hsmt : (acc.smt.insert hs t (cur - 1)).get = acc.smt.get.decrement t := by
      rw [hcached.get_insert, Counts.decrement, hget, Option.bind_some]
    cases heq
    refine ⟨cur, UInt32.pos_iff_ne_zero.mp hpos, rfl, rfl, rfl, hsmt, ?_⟩
    have hrecord := hrec.record t (stored (cur - 1))
    rw [hget] at hrecord
    rw [hcached.get_insert]
    exact hrecord

/-- The loop over the spends, taken apart. -/
theorem advanceSpends_ok {ts : List Bytes32} {acc acc' : SmtStep H}
    (h : ts.foldlM (advanceSpend hs) acc = some acc') (hcached : acc.smt.Cached hs)
    (hrec : Records m acc.prior acc.smt.get) :
    ∃ spends, acc'.spends = acc.spends ++ spends ∧ spends.map Spend.coinbaseTxid = ts ∧
      Smt.SpendProofs hs acc.smt spends ∧ Smt.SpendsFrom acc.smt.get spends ∧
      acc'.smt.Cached hs ∧ acc'.smt.get = ts.foldl Counts.decrement acc.smt.get ∧
      Records m acc'.prior acc'.smt.get := by
  induction ts generalizing acc with
  | nil =>
    cases h
    exact ⟨[], (List.append_nil _).symm, rfl, trivial, trivial, hcached, rfl, hrec⟩
  | cons t ts ih =>
    rw [List.foldlM_cons] at h
    obtain ⟨acc₁, hstep, h⟩ := Option.bind_eq_some_iff.mp h
    obtain ⟨cur, hzero, hget, hspends₁, hsmt₁, hget₁, hrec₁⟩ := advanceSpend_ok hstep hcached hrec
    have hcached₁ : acc₁.smt.Cached hs := hsmt₁ ▸ (hcached.insert t (cur - 1)).2
    obtain ⟨spends, hspends, hmap, hproofs, hfrom, hcached', hget', hrec'⟩ := ih h hcached₁ hrec₁
    refine ⟨⟨t, cur, acc.smt.prove hs t⟩ :: spends, ?_, ?_, Smt.spendProofs_cons (hsmt₁ ▸ hproofs),
      ⟨hzero, hget, hget₁ ▸ hfrom⟩, hcached', ?_, hrec'⟩
    · rw [hspends, hspends₁, List.append_assoc, List.singleton_append]
    · rw [List.map_cons, hmap]
    · rw [hget', hget₁, List.foldl_cons]

/-- The tree once the coinbase is in. One that is new goes in with its count, one that repeats
    replaces what is there, and one without spendable outputs takes it out. -/
theorem enterCoinbase_ok {smt : Smt H} (hcached : smt.Cached hs) {coinbase : Bytes32}
    {outputs : UInt32} {grandfathered : Bool}
    (habsent : grandfathered = false → smt.get coinbase = none) :
    (enterCoinbase hs smt coinbase outputs grandfathered).Cached hs ∧
      (enterCoinbase hs smt coinbase outputs grandfathered).get =
        Function.update smt.get coinbase (stored outputs) := by
  rw [enterCoinbase]
  by_cases hpos : outputs > 0
  · rw [if_pos hpos]
    exact ⟨(hcached.insert _ _).2, hcached.get_insert _ _⟩
  · have hzero : outputs = 0 := by
      by_contra hne
      exact hpos (UInt32.pos_iff_ne_zero.mpr hne)
    rw [if_neg hpos, stored, if_pos hzero]
    cases grandfathered with
    | true => exact ⟨(hcached.remove _).2, (hcached.remove _).1⟩
    | false =>
      refine ⟨hcached, ?_⟩
      rw [← habsent rfl, Function.update_eq_self]
      rfl

/-- What the guest makes of the witness. -/
def update (wit : SmtWitness H) : Smt.BlockUpdate H where
  coinbaseTxid := wit.coinbaseTxid
  coinbaseOutputs := wit.coinbaseOutputs
  absenceProof := wit.absenceProof
  overwrite := wit.smtOverwrite
  spends := wit.spends

/-- **The bridge's SMT step.** The guest accepts the witness and arrives at the bridge's own root,
    and the record holds what the tree held before. -/
theorem smtAdvance_ok {smt smt' : Smt H} {coinbase : Bytes32} {outputs : UInt32}
    {spends : List Bytes32} {grandfathered : Bool} {wit : SmtWitness H}
    {prior : List (Bytes32 × Option UInt32)} (hcached : smt.Cached hs)
    (habsent : grandfathered = false → smt.get coinbase = none)
    (h : smtAdvance hs smt coinbase outputs spends grandfathered = some (wit, prior, smt')) :
    wit.coinbaseTxid = coinbase ∧ wit.coinbaseOutputs = outputs ∧
      wit.spends.map Spend.coinbaseTxid = spends ∧
      wit.smtOverwrite.isSome = grandfathered ∧
      Smt.applyBlock hs smt.root (update wit) = .ok smt'.root ∧ smt'.Cached hs ∧
      smt'.get = smt.get.transition coinbase outputs spends ∧
      Records smt.get prior smt'.get := by
  obtain ⟨overwrite, hoverwrite, h⟩ := Option.bind_eq_some_iff.mp h
  obtain ⟨acc, hacc, h⟩ := Option.bind_eq_some_iff.mp h
  cases h
  obtain ⟨hcached₁, hget₁⟩ := enterCoinbase_ok hcached habsent
  -- what was under the coinbase txid is put down first
  have hrec : Records smt.get [(coinbase, smt.get coinbase)]
      (enterCoinbase hs smt coinbase outputs grandfathered).get := by
    rw [hget₁]
    refine ⟨fun p hp => ?_, fun k hk => ?_⟩
    · rw [List.mem_singleton.mp hp]
    · rw [List.map_singleton, List.mem_singleton] at hk
      exact Function.update_of_ne hk _ _
  obtain ⟨new, hnew, hmap, hproofs, hfrom, hcached', hget', hrec'⟩ :=
    advanceSpends_ok hacc hcached₁ hrec
  rw [List.nil_append] at hnew
  -- the count that is overwritten is claimed only where BIP30 was waived
  have hover : smt.get coinbase = overwrite ∧ overwrite.isSome = grandfathered := by
    cases grandfathered with
    | false =>
      cases hoverwrite
      exact ⟨habsent rfl, rfl⟩
    | true =>
      obtain ⟨n, hn, rfl⟩ := Option.map_eq_some_iff.mp hoverwrite
      exact ⟨hn, rfl⟩
  obtain ⟨hcount, hisSome⟩ := hover
  have hzero : overwrite ≠ some 0 := hcount ▸ hcached.nonzero coinbase
  have henter : enterCoinbase hs smt coinbase outputs grandfathered =
      smt.insert hs coinbase outputs :=
    hcached₁.eq_of_get (hcached.insert _ _).2 (hget₁.trans (hcached.get_insert _ _).symm)
  have htransition : acc.smt.get = smt.get.transition coinbase outputs spends :=
    hget'.trans (congrArg (spends.foldl Counts.decrement) hget₁)
  -- the guest's check is complete for a witness read off the tree
  have haccept : Smt.applyBlock hs smt.root (update
      { coinbaseTxid := coinbase, coinbaseOutputs := outputs,
        absenceProof := smt.prove hs coinbase, spends := acc.spends, smtOverwrite := overwrite }) =
      .ok acc.smt.root := by
    rw [hcached'.root, htransition, ← hmap, ← hnew]
    refine Smt.applyBlock_complete hcached ⟨by dsimp only [update], ?_⟩ ⟨hcount, hzero, ?_⟩
    · exact henter ▸ hnew ▸ hproofs
    · exact hget₁ ▸ hnew ▸ hfrom
  exact ⟨rfl, rfl, hnew ▸ hmap, hisSome, haccept, hcached', htransition, hrec'⟩

/-- Each coinbase has an output left when its turn comes. -/
def Spendable : Counts → List Bytes32 → Prop
  | _, [] => True
  | m, t :: ts => (∃ n, m t = some n) ∧ Spendable (m.decrement t) ts

theorem advanceSpends_complete {ts : List Bytes32} {acc : SmtStep H}
    (hcached : acc.smt.Cached hs) (h : Spendable acc.smt.get ts) :
    ∃ acc', ts.foldlM (advanceSpend hs) acc = some acc' := by
  induction ts generalizing acc with
  | nil => exact ⟨acc, rfl⟩
  | cons t ts ih =>
    obtain ⟨⟨n, hn⟩, hrest⟩ := h
    have hpos : n > 0 := UInt32.pos_iff_ne_zero.mpr fun h0 =>
      hcached.nonzero t (hn.trans (congrArg some h0))
    have hget : (acc.smt.insert hs t (n - 1)).get = acc.smt.get.decrement t := by
      rw [hcached.get_insert, Counts.decrement, hn, Option.bind_some]
    rw [List.foldlM_cons, advanceSpend, hn, Option.getD_some, if_pos hpos]
    exact ih (hcached.insert t (n - 1)).2 (hget ▸ hrest)

/-- The bridge's step does not panic on a block whose coinbase spends are there to be spent. -/
theorem smtAdvance_complete {smt : Smt H} {coinbase : Bytes32} {outputs : UInt32}
    {spends : List Bytes32} {grandfathered : Bool} (hcached : smt.Cached hs)
    (habsent : grandfathered = false → smt.get coinbase = none)
    (hdup : grandfathered = true → ∃ n, smt.get coinbase = some n)
    (hspends : Spendable (Function.update smt.get coinbase (stored outputs)) spends) :
    ∃ wit prior smt', smtAdvance hs smt coinbase outputs spends grandfathered =
      some (wit, prior, smt') := by
  obtain ⟨hcached₁, hget₁⟩ := enterCoinbase_ok hcached habsent
  have hover : ∃ o, overwriteOf smt coinbase grandfathered = some o := by
    cases grandfathered with
    | false => exact ⟨none, rfl⟩
    | true =>
      obtain ⟨n, hn⟩ := hdup rfl
      exact ⟨some n, by rw [overwriteOf, if_pos rfl, hn, Option.map_some]⟩
  obtain ⟨o, ho⟩ := hover
  have hstart : Spendable (SmtStep.mk [] [(coinbase, smt.get coinbase)]
      (enterCoinbase hs smt coinbase outputs grandfathered)).smt.get spends := hget₁ ▸ hspends
  obtain ⟨acc, hacc⟩ := advanceSpends_complete hcached₁ hstart
  exact ⟨_, _, _, by rw [smtAdvance, ho, Option.bind_eq_bind, Option.bind_some, hacc]; rfl⟩

/-- Putting back what the record says: the keys in it hold their old values, and all others what
    they held. -/
theorem undoPrior_get {prior : List (Bytes32 × Option UInt32)} {smt : Smt H}
    (hcached : smt.Cached hs) (hzero : ∀ p ∈ prior, p.2 ≠ some 0) :
    (undoPrior hs smt prior).Cached hs ∧
      ∀ k, (∀ p ∈ prior, p.1 = k → p.2 = m k) → (k ∉ prior.map Prod.fst → smt.get k = m k) →
        (undoPrior hs smt prior).get k = m k := by
  induction prior generalizing smt with
  | nil => exact ⟨hcached, fun k _ hrest => hrest (List.not_mem_nil)⟩
  | cons p prior ih =>
    obtain ⟨key, held⟩ := p
    -- one write of `held` at `key`, whichever of the two calls makes it
    have hstep : ∃ smt₁ : Smt H, smt₁.Cached hs ∧
        smt₁.get = Function.update smt.get key held ∧
        undoPrior hs smt ((key, held) :: prior) = undoPrior hs smt₁ prior := by
      cases held with
      | none => exact ⟨_, (hcached.remove key).2, (hcached.remove key).1, rfl⟩
      | some v =>
        refine ⟨_, (hcached.insert key v).2, ?_, rfl⟩
        have hv : v ≠ 0 := fun hv => hzero _ List.mem_cons_self (congrArg some hv)
        rw [hcached.get_insert, stored, if_neg hv]
    obtain ⟨smt₁, hcached₁, hget₁, heq⟩ := hstep
    obtain ⟨hcached', hall⟩ := ih hcached₁ fun p hp => hzero p (List.mem_cons_of_mem _ hp)
    rw [heq]
    refine ⟨hcached', fun k hheld hrest => hall k (fun p hp => hheld p (List.mem_cons_of_mem _ hp))
      fun hk => ?_⟩
    rw [hget₁]
    by_cases hkey : k = key
    · subst hkey
      rw [Function.update_self]
      exact hheld _ List.mem_cons_self rfl
    · rw [Function.update_of_ne hkey]
      refine hrest fun hmem => ?_
      rw [List.map_cons, List.mem_cons] at hmem
      exact hmem.elim hkey hk

/-- **The record puts the tree back**, cache and root included. -/
theorem undoPrior_ok {smt smt' : Smt H} {prior : List (Bytes32 × Option UInt32)}
    (hcached : smt.Cached hs) (hcached' : smt'.Cached hs)
    (hrec : Records smt.get prior smt'.get) : undoPrior hs smt' prior = smt := by
  have hzero : ∀ p ∈ prior, p.2 ≠ some 0 := fun p hp => hrec.held p hp ▸ hcached.nonzero p.1
  obtain ⟨hback, hget⟩ := undoPrior_get (m := smt.get) hcached' hzero
  refine hback.eq_of_get hcached (funext fun k => hget k (fun p hp hk => ?_) (hrec.rest k))
  rw [hrec.held p hp, hk]

end Bridge
end Hazync
