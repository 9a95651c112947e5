import Hazync.Coordinator.Board

/-!
# What a step can do to the tables

A step puts at most one range on record, and what it leaves in `ranges` it found there, or is the
row of a claim, of a submit that had none, or of the range it put on record. The invariants of the
board are derived from these two facts.

## One step, seen from the tables

The steps are written as the source has them, by who does what. The invariants ask something else:
where does this row come from, and what has happened to that one. So the steps are turned around
here once. For `vranges` it is simple: a step adds one row, in the place of any of the same id, or
none (`Step.vranges_cases`). For `ranges` there are four origins (`Step.ranges_cases`): the row was
there, with the same range and not more verified than it was; a claim has put it in; a submit had no
row and was given one; or it came with a proof.

`claim` and `beat` have long bodies with many refusals. What others need of them is what an accepted
one has passed, which are `Granted` and `Renews`, with a field for each check.
-/

namespace Hazync
namespace Coordinator

open ByteStrings KeyedTable

variable {cfg : Config} {out : Outside} {db : Db} {s s' : State} {e : Event}

/-! ## The operations -/

/-- A claim that is not signed as it has to be is refused. -/
theorem claimSigned_error {req : ClaimRequest} {now : Time} {e : Reply}
    (h : claimSigned cfg out req now = .error e) :
    (e.code = 400 ∨ e.code = 403) ∧ e.range = none := by
  rw [claimSigned.eq_def] at h
  split at h
  · cases h
    exact ⟨.inl rfl, rfl⟩
  · split at h
    · cases h
      exact ⟨.inl rfl, rfl⟩
    · split at h
      · cases h
        exact ⟨.inl rfl, rfl⟩
      · split at h
        · cases h
        · cases h
          exact ⟨.inr rfl, rfl⟩
  · split at h
    · cases h
      exact ⟨.inr rfl, rfl⟩
    · cases h

/-- A claim whose answer is a new row: it is signed as its key says, the key is below its cap, and
    the block is neither held nor withheld from it. -/
structure Granted (cfg : Config) (out : Outside) (db : Db) (req : ClaimRequest) (amb : Ambient)
    (signed : Bool) (h : ℕ) : Prop where
  auth : claimSigned cfg out req amb.now = .ok signed
  /-- It does not repeat a claim that the key holds. -/
  fresh : claimByNonce cfg db req amb.now = none
  cap : ¬ capped cfg db req.pubkey signed amb.now
  /-- And this is the block that the scan, or the re-offer, comes to. -/
  offered : offered cfg db req.pubkey signed amb = some h

/-- The row of a claim that is granted. -/
def grantedRow (req : ClaimRequest) (amb : Ambient) (signed : Bool) (h : ℕ) : RangeRow where
  id := toString h
  lo := h
  hi := h
  status := .claimed
  assignee := some req.pubkey
  claimedAt := some amb.now
  claimNonce := req.nonce
  claimSigned := some signed

/-- How a claim answers: it is refused, it repeats a claim, or it is granted a block. -/
theorem claim_answers (cfg : Config) (out : Outside) (db : Db) (req : ClaimRequest) (amb : Ambient) :
    ((claim cfg out db req amb).1.code ≠ 200 ∧ (claim cfg out db req amb).1.range = none ∧
      (claim cfg out db req amb).2 = db) ∨
    (∃ again, claimByNonce cfg db req amb.now = some again ∧
      claim cfg out db req amb = (.offer again.id, db)) ∨
    ∃ signed n, Granted cfg out db req amb signed n ∧ claim cfg out db req amb = (.offer (toString n),
      { db with ranges := replace RangeRow.id (grantedRow req amb signed n) db.ranges }) := by
  rw [claim]
  split
  · exact .inl ⟨(by decide : (400 : ℕ) ≠ 200), rfl, rfl⟩
  · split
    · rename_i e he
      obtain ⟨hcode, hrange⟩ := claimSigned_error he
      refine .inl ⟨fun h => ?_, hrange, rfl⟩
      obtain hcode | hcode := hcode
      · exact absurd (hcode.symm.trans h) (by decide)
      · exact absurd (hcode.symm.trans h) (by decide)
    · rename_i signed hauth
      split
      · rename_i again hagain
        exact .inr (.inl ⟨again, hagain, rfl⟩)
      · rename_i hfresh
        split
        · exact .inl ⟨(by decide : (429 : ℕ) ≠ 200), rfl, rfl⟩
        · rename_i hcap
          split
          · exact .inl ⟨(by decide : (409 : ℕ) ≠ 200), rfl, rfl⟩
          · rename_i n hoffered
            exact .inr (.inr ⟨signed, n, ⟨hauth, hfresh, hcap, hoffered⟩, rfl⟩)

theorem claim_cases (cfg : Config) (out : Outside) (db : Db) (req : ClaimRequest) (amb : Ambient) :
    (claim cfg out db req amb).2 = db ∨ ∃ row : RangeRow, row.id = toString row.lo ∧
      row.hi = row.lo ∧ row.status = .claimed ∧
      (claim cfg out db req amb).2 = { db with ranges := replace RangeRow.id row db.ranges } := by
  obtain ⟨-, -, heq⟩ | ⟨again, -, heq⟩ | ⟨signed, n, -, heq⟩ := claim_answers cfg out db req amb
  · exact .inl heq
  · exact .inl (by rw [heq])
  · exact .inr ⟨grantedRow req amb signed n, rfl, rfl, rfl, by rw [heq]⟩

/-- A beat that is accepted, and the row it renews: it is signed as its key says and not long ago, and
    the row is of a claim of that key that is younger than `CLAIM_MAX`. -/
structure Renews (cfg : Config) (out : Outside) (db : Db) (rid pubkey sig : String) (ts : ℤ)
    (chainTip : ℕ) (now : Time) (r : RangeRow) : Prop where
  /-- The id is of a range. -/
  parsed : parseAnyRange chainTip rid ≠ none
  prompt : |now - ts| ≤ cfg.beatSkew
  /-- Over the id and the time, so that a beat is of this range and cannot be kept for later. -/
  signed : out.verifySig pubkey sig (utf8 (rid ++ ":" ++ toString ts)) = true
  /-- There is a row of the id. -/
  found : find RangeRow.id rid db.ranges = some r
  claimed : r.status = .claimed
  /-- Its assignee is the key that has signed. -/
  key : r.assignee.getD "" = pubkey
  /-- It was claimed less than `CLAIM_MAX` ago, or its time is not known. -/
  young : now - cfg.claimMax ≤ r.claimedAt.getD now

/-- What a beat does: nothing, or it renews the row of a claim of its key. -/
theorem beat_accepted (cfg : Config) (out : Outside) (db : Db) (rid pubkey sig : String) (ts : ℤ)
    (chainTip : ℕ) (now : Time) :
    beat cfg out db rid pubkey sig ts chainTip now = db ∨
      (∃ r, Renews cfg out db rid pubkey sig ts chainTip now r) ∧
      beat cfg out db rid pubkey sig ts chainTip now = { db with
        ranges := update RangeRow.id rid (fun r => { r with lastBeat := some now }) db.ranges } := by
  rw [beat]
  split
  · exact .inl rfl
  · rename_i hrequest
    rw [not_or, not_or, not_lt, not_not] at hrequest
    obtain ⟨hparsed, hprompt, hsigned⟩ := hrequest
    cases hr : find RangeRow.id rid db.ranges with
    | none => exact .inl rfl
    | some r =>
      dsimp only
      split
      · exact .inl rfl
      · rename_i hrow
        rw [not_or, not_or, not_not, not_not, not_lt] at hrow
        obtain ⟨hclaimed, hkey, hyoung⟩ := hrow
        exact .inr ⟨⟨r, hparsed, hprompt, hsigned, hr, hclaimed, hkey, hyoung⟩, rfl⟩

theorem beat_cases (cfg : Config) (out : Outside) (db : Db) (rid pubkey sig : String) (ts : ℤ)
    (chainTip : ℕ) (now : Time) :
    beat cfg out db rid pubkey sig ts chainTip now = db ∨
      beat cfg out db rid pubkey sig ts chainTip now = { db with
        ranges := update RangeRow.id rid (fun r => { r with lastBeat := some now }) db.ranges } :=
  (beat_accepted cfg out db rid pubkey sig ts chainTip now).imp_right And.right

/-- A claim puts nothing on record. -/
theorem claim_vranges (req : ClaimRequest) (amb : Ambient) :
    (claim cfg out db req amb).2.vranges = db.vranges := by
  obtain h | ⟨row, -, -, -, h⟩ := claim_cases cfg out db req amb
  · rw [h]
  · rw [h]

/-- Nor does a beat. -/
theorem beat_vranges (rid pubkey sig : String) (ts : ℤ) (chainTip : ℕ) (now : Time) :
    (beat cfg out db rid pubkey sig ts chainTip now).vranges = db.vranges := by
  obtain h | h := beat_cases cfg out db rid pubkey sig ts chainTip now
  · rw [h]
  · rw [h]

/-- The row is of the same range, and not verified unless the other is. -/
def SameRange (r r' : RangeRow) : Prop :=
  r.id = r'.id ∧ r.lo = r'.lo ∧ r.hi = r'.hi ∧ (r'.status = .verified → r.status = .verified)

/-- A row is of its own range. -/
theorem SameRange.refl (r : RangeRow) : SameRange r r := ⟨rfl, rfl, rfl, id⟩

theorem exists_of_mem_update {rid : String} {f : RangeRow → RangeRow} {rows : List RangeRow}
    {r' : RangeRow} (h : r' ∈ update RangeRow.id rid f rows) (hf : ∀ r, SameRange r (f r)) :
    ∃ r ∈ rows, SameRange r r' := by
  obtain ⟨hr, -⟩ | ⟨r, hr, -, rfl⟩ := mem_update.mp h
  · exact ⟨r', hr, .refl r'⟩
  · exact ⟨r, hr, hf r⟩

/-- A failure is counted in a row of the same range. -/
theorem exists_of_mem_recordFailure {rid : String} {env : Bool} {r' : RangeRow}
    (h : r' ∈ (recordFailure cfg db rid env).ranges) : ∃ r ∈ db.ranges, SameRange r r' := by
  rw [recordFailure] at h
  split at h
  · exact ⟨r', h, .refl r'⟩
  · refine exists_of_mem_update h fun r => ⟨rfl, rfl, rfl, ?_⟩
    intro hstatus
    dsimp only at hstatus
    split at hstatus
    · cases hstatus
    · exact hstatus

/-- And puts nothing on record. -/
theorem recordFailure_vranges {rid : String} {env : Bool} :
    (recordFailure cfg db rid env).vranges = db.vranges := by
  rw [recordFailure]
  split <;> rfl

/-! ## The steps -/

/-- The range an event puts on record, and under which id. -/
def Event.recorded : Event → Option (String × VRange)
  | .quiet => none
  | .commit sub _ m => some (sub.rid, m)
  | .adopt _ v _ _ _ m => some (v.rid, m)

/-- **At most one range goes on record in a step**, in the place of any of the same id. -/
theorem Step.vranges_cases (h : Step cfg out s e s') :
    (e.recorded = none ∧ s'.db.vranges = s.db.vranges ∧ s'.log = s.log) ∨
      ∃ v : VRow, e.recorded = some (v.id, v.toVRange) ∧
        s'.db.vranges = replace VRow.id v s.db.vranges ∧ s'.log = s.log ++ [v.id] := by
  cases h with
  | claim req amb => exact .inl ⟨rfl, claim_vranges req amb, rfl⟩
  | beat rid pubkey sig ts chainTip now =>
    exact .inl ⟨rfl, beat_vranges rid pubkey sig ts chainTip now, rfl⟩
  | commit hsub hrow hcleared hhost hm hfree now => exact .inr ⟨_, rfl, rfl, rfl⟩
  | adopt hp htodo hlimit hhost hvisit now => exact .inr ⟨_, rfl, rfl, rfl⟩
  | fail hsub hrow hcleared hfree env => exact .inl ⟨rfl, recordFailure_vranges, rfl⟩
  | _ => exact .inl ⟨rfl, rfl, rfl⟩

/-- What went on record is there. -/
theorem Step.recorded_mem (h : Step cfg out s e s') {rid : String} {m : VRange}
    (hrec : e.recorded = some (rid, m)) : ∃ x ∈ s'.db.vranges, x.id = rid ∧ x.toVRange = m := by
  obtain ⟨hnone, -, -⟩ | ⟨v, hv, hvranges, -⟩ := h.vranges_cases
  · rw [hnone] at hrec
    cases hrec
  · rw [hv] at hrec
    obtain ⟨rfl, rfl⟩ := Prod.mk.inj (Option.some.inj hrec)
    exact ⟨v, hvranges ▸ mem_replace.mpr (.inl rfl), rfl, rfl⟩

/-- An id that is on record stays on record. -/
theorem Step.id_kept (h : Step cfg out s e s') {x : VRow} (hx : x ∈ s.db.vranges) :
    ∃ x' ∈ s'.db.vranges, x'.id = x.id := by
  obtain ⟨-, hv, -⟩ | ⟨v, -, hv, -⟩ := h.vranges_cases
  · exact ⟨x, hv ▸ hx, rfl⟩
  · obtain hx' | hid := mem_replace_of_mem VRow.id v hx
    · exact ⟨x, hv ▸ hx', rfl⟩
    · exact ⟨v, hv ▸ mem_replace.mpr (.inl rfl), hid.symm⟩

/-- **Where a row of `ranges` comes from.** -/
theorem Step.ranges_cases (h : Step cfg out s e s') {r' : RangeRow} (hr' : r' ∈ s'.db.ranges) :
    (∃ r ∈ s.db.ranges, SameRange r r') ∨
      (r'.id = toString r'.lo ∧ r'.hi = r'.lo ∧ r'.status = .claimed) ∨
      (∃ sub ∈ s.submits, ∃ tip, r'.id = sub.rid ∧
        parseAnyRange tip sub.rid = some (r'.lo, r'.hi) ∧ r'.status = .opened) ∨
      (∃ sub r₀ m, e = .commit sub r₀ m ∧
        ∃ r ∈ s.db.ranges, r.id = sub.rid ∧ r'.id = r.id ∧ r'.lo = r.lo ∧ r'.hi = r.hi) ∨
      ∃ p v receipt m, e = .adopt p v receipt r'.lo r'.hi m ∧ r'.id = v.rid := by
  cases h with
  | claim req amb =>
    obtain h | ⟨row, hid, hhi, hstatus, h⟩ :=
      claim_cases cfg out s.db req amb
    · rw [h] at hr'
      exact .inl ⟨r', hr', .refl r'⟩
    · rw [h] at hr'
      obtain rfl | ⟨hr, -⟩ := mem_replace.mp hr'
      · exact .inr (.inl ⟨hid, hhi, hstatus⟩)
      · exact .inl ⟨r', hr, .refl r'⟩
  | beat rid pubkey sig ts chainTip now =>
    obtain h | h := beat_cases cfg out s.db rid pubkey sig ts chainTip now
    · rw [h] at hr'
      exact .inl ⟨r', hr', .refl r'⟩
    · rw [h] at hr'
      exact .inl (exists_of_mem_update hr' fun r => ⟨rfl, rfl, rfl, id⟩)
  | @read sub r chainTip lo hi hsub hrow hparse hr hstatus =>
    obtain hr | ⟨rfl, -⟩ := mem_ignore.mp hr'
    · exact .inl ⟨r', hr, .refl r'⟩
    · exact .inr (.inr (.inl ⟨sub, hsub, chainTip, rfl, hparse, rfl⟩))
  | @commit sub r host m hsub hrow hcleared hhost hm hfree now =>
    obtain ⟨hr, -⟩ | ⟨r₀, hr₀, hid, rfl⟩ := mem_update.mp hr'
    · exact .inl ⟨r', hr, .refl r'⟩
    · exact .inr (.inr (.inr (.inl ⟨sub, r, m, rfl, r₀, hr₀, hid, rfl, rfl, rfl⟩)))
  | fail hsub hrow hcleared hfree env => exact .inl (exists_of_mem_recordFailure hr')
  | @adopt p v todo chainTip lo hi receipt host m hp htodo hlimit hhost hvisit now =>
    obtain rfl | ⟨hr, -⟩ := mem_replace.mp hr'
    · exact .inr (.inr (.inr (.inr ⟨p, v, receipt, m, rfl, rfl⟩)))
    · exact .inl ⟨r', hr, .refl r'⟩
  | _ => exact .inl ⟨r', hr', .refl r'⟩

end Coordinator
end Hazync
