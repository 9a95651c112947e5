import Hazync.Smt.Bip30
import Hazync.Smt.History

/-!
# The BIP30 transition, both ways

The soundness of `applyBlock` for any proofs is in `Hazync.Smt.Bip30`. Here is the other direction: with
proofs taken from a full tree that is stepped as the block goes, every block whose counts are the
map's is accepted, with the root of the tree at the end.

## Why there are always proofs

The transition takes its proofs from the block's witness, and refuses the block if one of them does
not fit. Whoever proves a valid block must be able to give them. Each proof is against the root at
its step, so they come from a tree that is stepped along: the absence of the coinbase before
anything, then the tree with the coinbase in it, then for each spend the tree after the spends
before it. `ProofsOf` says this of an update, and the host does it so.

Both directions together say when a block is accepted: exactly where its counts are those of the
map. This has no condition on the hash in the one direction, and injectivity on nodes and leaves in
the other.
-/

namespace Hazync
namespace Smt

open ByteStrings

variable {H : Type} [DecidableEq H] {hs : Hashing H} {m : Counts} {t : Smt H} {u : BlockUpdate H}

variable (hs) in
/-- Each spend's proof is the tree's, which is then stepped to the next count. -/
def SpendProofs : Smt H → List (Spend H) → Prop
  | _, [] => True
  | t, s :: spends => s.proof = t.prove hs s.coinbaseTxid ∧
      SpendProofs (t.insert hs s.coinbaseTxid (s.currentCount - 1)) spends

/-- The first spend, and the others on the tree after it. -/
theorem spendProofs_cons {key : Bytes32} {cur : UInt32} {spends : List (Spend H)}
    (h : SpendProofs hs (t.insert hs key (cur - 1)) spends) :
    SpendProofs hs t (⟨key, cur, t.prove hs key⟩ :: spends) := by
  rw [SpendProofs]
  exact ⟨by dsimp only, h⟩

variable (hs) in
/-- A block's proofs are those of the tree `t`, stepped in the order of the transition. -/
structure ProofsOf (t : Smt H) (u : BlockUpdate H) : Prop where
  absence : u.absenceProof = t.prove hs u.coinbaseTxid
  spends : SpendProofs hs (t.insert hs u.coinbaseTxid u.coinbaseOutputs) u.spends

/-- The map after a count was set. -/
theorem Cached.get_insert (h : t.Cached hs) (key : Bytes32) (value : UInt32) :
    (t.insert hs key value).get = Function.update t.get key (stored value) :=
  (h.insert key value).1

/-- The coinbase is accepted with the tree's proof. -/
theorem applyCoinbase_complete (h : t.Cached hs)
    (habsence : u.absenceProof = t.prove hs u.coinbaseTxid)
    (hcount : t.get u.coinbaseTxid = u.overwrite) (hzero : u.overwrite ≠ some 0) :
    applyCoinbase hs t.root u = .ok (t.insert hs u.coinbaseTxid u.coinbaseOutputs).root := by
  have hroot : (t.insert hs u.coinbaseTxid u.coinbaseOutputs).root =
      mapRoot hs (Function.update t.get u.coinbaseTxid (stored u.coinbaseOutputs)) := by
    rw [(h.insert _ _).2.root, h.get_insert]
  have happly := h.apply_prove u.coinbaseTxid (stored u.coinbaseOutputs)
  have hverify := h.verify_prove u.coinbaseTxid
  rw [hcount] at happly hverify
  rw [applyCoinbase, habsence, hroot]
  cases hover : u.overwrite with
  | none =>
    rw [hover] at happly hverify
    simp only [hverify, happly, not_true_eq_false, if_false]
  | some prior =>
    rw [hover] at happly hzero
    have hprior : prior ≠ 0 := fun hp => hzero (congrArg some hp)
    simp only [happly, if_neg hprior]

/-- So is a spend. -/
theorem applySpend_complete {s : Spend H} (h : t.Cached hs)
    (hproof : s.proof = t.prove hs s.coinbaseTxid) (hzero : s.currentCount ≠ 0)
    (hcount : t.get s.coinbaseTxid = some s.currentCount) :
    applySpend hs t.root s = .ok (t.insert hs s.coinbaseTxid (s.currentCount - 1)).root := by
  have hroot : (t.insert hs s.coinbaseTxid (s.currentCount - 1)).root =
      mapRoot hs (Function.update t.get s.coinbaseTxid (stored (s.currentCount - 1))) := by
    rw [(h.insert _ _).2.root, h.get_insert]
  have happly := h.apply_prove s.coinbaseTxid (stored (s.currentCount - 1))
  rw [hcount] at happly
  rw [applySpend, if_neg hzero, hproof, happly, hroot]

/-- So is one spend after the other. -/
theorem applySpends_complete {spends : List (Spend H)} (h : t.Cached hs)
    (hproofs : SpendProofs hs t spends) (hspends : SpendsFrom t.get spends) :
    spends.foldlM (applySpend hs) t.root =
      .ok (mapRoot hs ((spends.map Spend.coinbaseTxid).foldl Counts.decrement t.get)) := by
  induction spends generalizing t with
  | nil =>
    rw [List.foldlM_nil, h.root]
    rfl
  | cons s spends ih =>
    obtain ⟨hproof, hproofs⟩ := hproofs
    obtain ⟨hzero, hcount, hspends⟩ := hspends
    have hget : (t.insert hs s.coinbaseTxid (s.currentCount - 1)).get =
        t.get.decrement s.coinbaseTxid := by
      rw [h.get_insert, Counts.decrement, hcount, Option.bind_some]
    rw [List.foldlM_cons, applySpend_complete h hproof hzero hcount]
    refine (ih (h.insert _ _).2 hproofs (hget ▸ hspends)).trans ?_
    rw [hget]
    rfl

/-- With the tree's own proofs an admissible block is accepted. -/
theorem applyBlock_complete (h : t.Cached hs) (hproofs : ProofsOf hs t u)
    (hadm : Admissible t.get u) :
    applyBlock hs t.root u = .ok (mapRoot hs (t.get.transition u.coinbaseTxid u.coinbaseOutputs
      (u.spends.map Spend.coinbaseTxid))) := by
  have hget := h.get_insert u.coinbaseTxid u.coinbaseOutputs
  rw [applyBlock, applyCoinbase_complete h hproofs.absence hadm.coinbase hadm.overwrite]
  refine (applySpends_complete (h.insert _ _).2 hproofs.spends (hget ▸ hadm.spends)).trans ?_
  rw [hget]
  rfl

/-- **The BIP30 transition is the transition of the map.** Whatever the proofs, an accepted block
    names the map's counts at each step and moves the root to that of the map it leaves; and the
    proofs of a tree stepped in that order get every such block accepted. -/
theorem applyBlock_correct (hnode : NodeInjective hs) (hslot : SlotInjective hs) (m : Counts)
    (u : BlockUpdate H) :
    (∀ r, applyBlock hs (mapRoot hs m) u = .ok r →
      m u.coinbaseTxid = u.overwrite ∧ u.overwrite ≠ some 0 ∧
        (∀ i s, u.spends[i]? = some s → s.currentCount ≠ 0 ∧
          m.transition u.coinbaseTxid u.coinbaseOutputs
            ((u.spends.take i).map Spend.coinbaseTxid) s.coinbaseTxid = some s.currentCount) ∧
        r = mapRoot hs (m.transition u.coinbaseTxid u.coinbaseOutputs
          (u.spends.map Spend.coinbaseTxid))) ∧
    ∀ ops, (run hs ops).get = m → ProofsOf hs (run hs ops) u →
      m u.coinbaseTxid = u.overwrite → u.overwrite ≠ some 0 →
      (∀ i s, u.spends[i]? = some s → s.currentCount ≠ 0 ∧
        m.transition u.coinbaseTxid u.coinbaseOutputs
          ((u.spends.take i).map Spend.coinbaseTxid) s.coinbaseTxid = some s.currentCount) →
      applyBlock hs (mapRoot hs m) u = .ok (mapRoot hs (m.transition u.coinbaseTxid
        u.coinbaseOutputs (u.spends.map Spend.coinbaseTxid))) := by
  refine ⟨fun r h => ?_, fun ops hm hproofs hcount hzero hspends => ?_⟩
  · obtain ⟨hadm, hr⟩ := applyBlock_sound hnode hslot h
    exact ⟨hadm.coinbase, hadm.overwrite, spendsFrom_iff.mp hadm.spends, hr⟩
  · subst hm
    have h : (run hs ops).Cached hs := cached_run ops
    rw [← h.root]
    exact applyBlock_complete h hproofs ⟨hcount, hzero, spendsFrom_iff.mpr hspends⟩

/-- A third coinbase enters with two outputs, and an output of the first is spent. -/
def thirdCoinbase (t : Smt Bytes) : BlockUpdate Bytes where
  coinbaseTxid := .replicate 32 2
  coinbaseOutputs := 2
  absenceProof := t.prove idealHashing (.replicate 32 2)
  overwrite := none
  spends := [⟨.replicate 32 0, 3,
    (t.insert idealHashing (.replicate 32 2) 2).prove idealHashing (.replicate 32 0)⟩]

/-- Its proofs are the tree's. -/
theorem proofsOf_thirdCoinbase (t : Smt Bytes) : ProofsOf idealHashing t (thirdCoinbase t) :=
  { absence := by rw [thirdCoinbase]
    spends := by
      rw [thirdCoinbase]
      exact spendProofs_cons trivial }

theorem applyBlock_correct_thirdCoinbase :
    applyBlock idealHashing (mapRoot idealHashing twoCoinbases.get?)
        (thirdCoinbase (run idealHashing [.fromEntries twoCoinbases.entries])) =
      .ok (mapRoot idealHashing (Counts.transition twoCoinbases.get? (.replicate 32 2) 2
        [.replicate 32 0])) := by
  have hget : (run idealHashing [.fromEntries twoCoinbases.entries]).get = twoCoinbases.get? :=
    congrArg SortedMap.get? (leaves_fromEntries twoCoinbases_ne_zero)
  have hfirst : twoCoinbases.get? (.replicate 32 2) = none := by decide
  refine (applyBlock_correct idealHashing_pairInjective idealHashing_slotInjective _ _).2 _ hget
    (proofsOf_thirdCoinbase _) hfirst nofun fun i s hs => ?_
  cases i with
  | zero =>
    obtain rfl := Option.some.inj hs
    exact ⟨by decide, by decide⟩
  | succ i => cases hs

end Smt
end Hazync
