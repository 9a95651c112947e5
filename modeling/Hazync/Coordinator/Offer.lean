import Hazync.Coordinator.Covered

/-!
# The block the chain needs is on offer (`claim`)

Every block up to the frontier is covered, so the scan passes over those and comes to the block
after the frontier, if that is not covered. If it is, and the frontier snapshot had seen what covers
it, the block goes out again. A claim that repeats the nonce of one the key holds is the exception:
it gets the block it was given before.

## Never stuck

The frontier moves over what is covered, if it seams. Where the block after it is covered by a proof
that does not seam, the scan would pass over it and the chain would wait for ever. `blocked` is the
source's answer to that: the block goes out again although it is covered, once the snapshot is
settled. Together the two give the block after the frontier in either case (`Lawful.offered_next`).

What is needed is that everything below is covered, which holds of every state that the coordinator
comes to by itself (`WellFormed.covered`), and that the block can be served at all: a witness for
it, below the tip.
-/

namespace Hazync
namespace Coordinator

variable {cfg : Config} {out : Outside} {s : State} {db : Db}

/-- Steps of the coordinator by itself: no proof comes from a peer. -/
def Local (_ : State) : Event → Prop
  | .adopt .. => False
  | _ => True

theorem folds_of_local {e : Event} (h : Local s e) : Folds s e := by
  cases e with
  | adopt => cases h
  | _ => trivial

theorem lawful_of_local {trace : List (State × Event × State)}
    (h : BoardRun cfg out Local trace s) : Lawful s :=
  h.invariant (fun _ hs => lawful_empty hs) fun _ _ _ hs hstep =>
    hs.step hstep.1 (folds_of_local hstep.2)

/-- The request is one that `claim` answers with a block: its handle and its signature hold, it does
    not repeat a claim that the key holds, and the key is below its cap. -/
structure Admitted (cfg : Config) (out : Outside) (db : Db) (req : ClaimRequest) (now : Time)
    (signed : Bool) : Prop where
  handle : out.handleRefused db.sponsorKeys req.handle req.pubkey = false
  /-- The signature holds, or there is none and none is required. -/
  auth : claimSigned cfg out req now = .ok signed
  /-- The nonce is not that of a claim the key still holds. -/
  fresh : claimByNonce cfg db req now = none
  cap : ¬ capped cfg db req.pubkey signed now

/-- An admitted claim gets the block that is offered. -/
theorem Admitted.claim_eq {req : ClaimRequest} {amb : Ambient} {signed : Bool} {h : ℕ}
    (hreq : Admitted cfg out db req amb.now signed)
    (hoffered : offered cfg db req.pubkey signed amb = some h) :
    (claim cfg out db req amb).1 = .offer (toString h) := by
  rw [claim, hreq.handle, if_neg Bool.false_ne_true, hreq.auth]
  dsimp only
  rw [hreq.fresh]
  dsimp only
  rw [if_neg hreq.cap, hoffered]

/-- What a claim hands out: the block of a claim it repeats, or the one that is offered to it. -/
theorem claim_offer {req : ClaimRequest} {amb : Ambient} {rid : String}
    (h : (claim cfg out db req amb).1 = .offer rid) :
    (∃ again, claimByNonce cfg db req amb.now = some again ∧ rid = again.id) ∨
      ∃ signed n, offered cfg db req.pubkey signed amb = some n ∧ rid = toString n := by
  obtain ⟨-, hrange, -⟩ | ⟨again, hagain, heq⟩ | ⟨signed, n, hgranted, heq⟩ :=
    claim_answers cfg out db req amb
  · rw [h] at hrange
    cases hrange
  · rw [heq] at h
    cases h
    exact .inl ⟨again, hagain, rfl⟩
  · rw [heq] at h
    cases h
    exact .inr ⟨signed, n, hgranted.offered, rfl⟩

/-- The scan hands out nothing that is covered. -/
theorem scan_not_covered {pubkey : String} {signed : Bool} {amb : Ambient} {n : ℕ}
    (h : scan cfg db pubkey signed amb = some n) : ¬ db.covered n := by
  have := List.find?_some h
  exact (of_decide_eq_true this).1

theorem Lawful.wellFormed (hs : Lawful s) : WellFormed s.db.vranges := fun v hv => (hs.ids v hv).1

/-- The block after the frontier is offered, covered or not. If it is not covered the scan comes to
    it first, since all below is. -/
theorem Lawful.offered_next (hs : Lawful s) {pubkey : String} {signed : Bool} {amb : Ambient}
    (hfr : amb.frHi = (frontierChain s.db.vranges).hi) (hceiling : amb.frHi + 1 < amb.ceiling)
    (hwitness : amb.witness (amb.frHi + 1) = true)
    (hfree : ¬ withheld cfg s.db pubkey signed amb.now (amb.frHi + 1))
    (hsettled : s.db.coverSettled cfg (amb.frHi + 1) amb.frTaken) :
    offered cfg s.db pubkey signed amb = some (amb.frHi + 1) := by
  by_cases hcovered : s.db.covered (amb.frHi + 1)
  · exact if_pos ⟨hceiling, hcovered, hfree, hwitness, hsettled⟩
  · rw [offered, if_neg fun hblocked => hcovered hblocked.2.1, scan, List.find?_range'_eq_some]
    refine ⟨decide_eq_true ⟨hcovered, hfree, hwitness⟩, ?_, ?_⟩
    · rw [List.mem_range'_1]
      omega
    · intro n hn hlt
      have hcov : s.db.covered n := hs.wellFormed.covered hn (by omega)
      simp [hcov]

/-- **The block the chain needs is always on offer**: in every state that claims, beats and submits
    lead to, with a snapshot that has seen all that is on record. And what a claim gets is the block
    of a claim it repeats, the block after the frontier, or one that nothing covers. -/
theorem next_block_on_offer {trace : List (State × Event × State)}
    (h : BoardRun cfg out Local trace s) (amb : Ambient)
    (hfr : amb.frHi = (frontierChain s.db.vranges).hi) :
    (∀ req signed, Admitted cfg out s.db req amb.now signed →
      amb.frHi + 1 < amb.ceiling → amb.witness (amb.frHi + 1) = true →
      ¬ s.db.held cfg amb.now (amb.frHi + 1) →
      ¬ lapsed cfg s.db req.pubkey signed amb.now (amb.frHi + 1) →
      (∀ v ∈ s.db.vranges, v.lo ≤ amb.frHi + 1 → amb.frHi + 1 ≤ v.hi →
        v.ts.unbotD 0 ≤ amb.frTaken - cfg.frontierSettle) →
      (claim cfg out s.db req amb).1 = .offer (toString (amb.frHi + 1))) ∧
    ∀ req rid, (claim cfg out s.db req amb).1 = .offer rid →
      (∃ again, claimByNonce cfg s.db req amb.now = some again ∧ rid = again.id) ∨
        rid = toString (amb.frHi + 1) ∨ ∃ n, rid = toString n ∧ ¬ s.db.covered n := by
  have hs := lawful_of_local h
  constructor
  · intro req signed hreq hceiling hwitness hheld hlapsed hsettled
    refine hreq.claim_eq (hs.offered_next hfr hceiling hwitness ?_ ?_)
    · exact fun hwithheld => hwithheld.elim hheld hlapsed
    · rintro ⟨v, hv, hlo, hhi, hlt⟩
      exact absurd hlt (not_lt.mpr (hsettled v hv hlo hhi))
  · intro req rid hoffer
    obtain hagain | ⟨signed, n, hn, rfl⟩ := claim_offer hoffer
    · exact .inl hagain
    · rw [offered] at hn
      split at hn
      · cases hn
        exact .inr (.inl rfl)
      · exact .inr (.inr ⟨n, rfl, scan_not_covered hn⟩)

/-! ## A proof that does not seam -/

def sampleClaim (pubkey nonce : String) : ClaimRequest := ⟨pubkey, "anon", some nonce, none⟩

/-- At `now`, on a board without a frontier, with witnesses up to block 99. -/
def sampleAmbient (now : Time) : Ambient := ⟨now, now, 0, 100, fun n => n < 100⟩

/-- A submit of Alice's, and the board once it is through. -/
def sampleSubmit (n : UInt8) : Submission :=
  ⟨toString n.toNat, "alice", "anon", sampleReceipt n n, none, false⟩

def recorded (db : Db) (n : UInt8) (m : VRange) : Db :=
  let sub := sampleSubmit n
  acceptSubmit (openRow db sub.rid n.toNat n.toNat)
    { sub with row := some { id := sub.rid, lo := n.toNat, hi := n.toNat }, cleared := true } m 0

/-- The steps of a submit of one block that is accepted as `m`. -/
theorem submit_run {trace : List (State × Event × State)} {db : Db} {log : List String}
    (h : BoardRun sampleConfig sampleOutside Local trace ⟨db, [], [], log⟩) (n : UInt8) {m : VRange}
    (hparse : parseAnyRange 100 (sampleSubmit n).rid = some (n.toNat, n.toNat))
    (hpos : n.toNat ≠ 0)
    (hr : KeyedTable.find RangeRow.id (sampleSubmit n).rid
      (openRow db (sampleSubmit n).rid n.toNat n.toNat).ranges =
        some { id := (sampleSubmit n).rid, lo := n.toNat, hi := n.toNat })
    (hm : m.lo = n.toNat ∧ m.hi = n.toNat) (hnone : db.sponsorships = []) :
    ∃ trace, BoardRun sampleConfig sampleOutside Local trace
      ⟨recorded db n m, [], [], log ++ [(sampleSubmit n).rid]⟩ := by
  have hcheck : submitCheck db 100 (sampleSubmit n).rid :=
    ⟨_, hparse, hpos, (if_pos rfl).symm, fun hlt => absurd hlt (lt_irrefl _)⟩
  have hhold : ¬ holdRefusal (openRow db (sampleSubmit n).rid n.toNat n.toNat) n.toNat n.toNat
      (sampleSubmit n).pubkey := by
    rintro ⟨sp, hsp, -⟩
    rw [openRow, hnone] at hsp
    cases hsp
  have hhost : ∀ m' ∈ some m, sampleOutside.proves (sampleReceipt n n) m' := by
    rintro m' h'
    cases h'
    exact ⟨n, n, rfl, hm.1, hm.2, UInt8.le_refl n⟩
  have hverify : verifyReceipt (some m) n.toNat n.toNat = some m := by
    rw [verifyReceipt, Option.filter_some, if_pos]
    simp [hm.1, hm.2]
  have hopen : ∀ r' ∈ KeyedTable.find RangeRow.id (sampleSubmit n).rid
      (openRow db (sampleSubmit n).rid n.toNat n.toNat).ranges, r'.status ≠ .verified := by
    intro r' hr'
    rw [Option.mem_def, hr] at hr'
    cases hr'
    simp
  have hchecked := h.snoc ⟨.check hcheck rfl rfl, trivial⟩
  have hread := hchecked.snoc ⟨.read (List.mem_singleton_self _) rfl hparse hr (by simp), trivial⟩
  simp only [List.erase_cons_head] at hread
  have hcleared := hread.snoc ⟨.clear (List.mem_singleton_self _) rfl hhold, trivial⟩
  simp only [List.erase_cons_head] at hcleared
  have hrecorded := hcleared.snoc
    ⟨.commit (List.mem_singleton_self _) rfl rfl hhost hverify ⟨hopen, hhold⟩ 0, trivial⟩
  simp only [List.erase_cons_head] at hrecorded
  exact ⟨_, hrecorded⟩

/-- Block 1 is the frontier, and what covers block 2 does not seam to it. -/
def unseamedDb : Db :=
  recorded (recorded (initDb 0 1) 1 (firstBlock 1 "1" 0).toVRange) 2 (sampleRange 2 2)

theorem unseamedDb_run : ∃ trace, BoardRun sampleConfig sampleOutside Local trace
    ⟨unseamedDb, [], [], ["1", "2"]⟩ := by
  obtain ⟨trace, h⟩ := submit_run (.nil ⟨0, 1, rfl⟩) 1 (m := (firstBlock 1 "1" 0).toVRange)
    (by decide +kernel) (by decide) (by decide +kernel) (by decide) rfl
  obtain ⟨trace', h'⟩ := submit_run h 2 (m := sampleRange 2 2) (by decide +kernel) (by decide)
    (by decide +kernel) (by decide) (by decide +kernel)
  exact ⟨trace', h'⟩

/-- So Bob gets block 2, proof or not. -/
theorem next_block_on_offer_unseamed : unseamedDb.covered 2 ∧
    (claim sampleConfig sampleOutside unseamedDb (sampleClaim "bob" "b")
      { sampleAmbient 700 with frHi := 1 }).1 = .offer "2" := by
  obtain ⟨trace, hrun⟩ := unseamedDb_run
  have hfr : 1 = (frontierChain unseamedDb.vranges).hi := by decide +kernel
  have hreq : Admitted sampleConfig sampleOutside unseamedDb (sampleClaim "bob" "b") 700 false := by
    constructor <;> decide +kernel
  refine ⟨by decide +kernel, (next_block_on_offer hrun { sampleAmbient 700 with frHi := 1 } hfr).1
    (sampleClaim "bob" "b") false hreq (by decide) (by decide) ?_ ?_ ?_⟩
  · decide +kernel
  · decide +kernel
  · decide +kernel

/-! ## Two claims, and one of them again -/

def claimedRow (n : ℕ) (pubkey nonce : String) : RangeRow where
  id := toString n
  lo := n
  hi := n
  status := .claimed
  assignee := some pubkey
  claimedAt := some 0
  claimNonce := some nonce
  claimSigned := some false

/-- Alice holds block 1 and Bob block 2. -/
def bothClaimed : Db :=
  { initDb 0 1 with ranges := [claimedRow 1 "alice" "a", claimedRow 2 "bob" "b"] }

theorem bothClaimed_run : ∃ trace, BoardRun sampleConfig sampleOutside Local trace
    ⟨bothClaimed, [], [], []⟩ := by
  have hstart : BoardRun sampleConfig sampleOutside Local [] emptyBoard := .nil ⟨0, 1, rfl⟩
  have halice := hstart.snoc ⟨.claim (sampleClaim "alice" "a") (sampleAmbient 0), trivial⟩
  have hbob := halice.snoc ⟨.claim (sampleClaim "bob" "b") (sampleAmbient 0), trivial⟩
  have hdb : (claim sampleConfig sampleOutside (claim sampleConfig sampleOutside emptyBoard.db
      (sampleClaim "alice" "a") (sampleAmbient 0)).2 (sampleClaim "bob" "b") (sampleAmbient 0)).2 =
      bothClaimed := by decide +kernel
  rw [← hdb]
  exact ⟨_, hbob⟩

/-- When both claims have lapsed, Bob's first claim, sent again, still gets block 2, though block 1 is
    free and he is below his cap. -/
theorem repeated_claim : ∃ trace, BoardRun sampleConfig sampleOutside Local trace
      ⟨bothClaimed, [], [], []⟩ ∧ (frontierChain bothClaimed.vranges).hi = 0 ∧
    (¬ bothClaimed.held sampleConfig 700 1 ∧ ¬ lapsed sampleConfig bothClaimed "bob" false 700 1 ∧
      ¬ bothClaimed.covered 1 ∧ ¬ capped sampleConfig bothClaimed "bob" false 700) ∧
    (claim sampleConfig sampleOutside bothClaimed (sampleClaim "bob" "b") (sampleAmbient 700)).1 =
      .offer "2" := by
  obtain ⟨trace, hrun⟩ := bothClaimed_run
  refine ⟨trace, hrun, rfl, ?_, ?_⟩
  · decide +kernel
  · decide +kernel

end Coordinator
end Hazync
