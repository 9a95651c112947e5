import Hazync.Coordinator.Steps

/-!
# The board under a clock

A claim and a beat read the clock before they wait for the lock, so the time they act with is no
later than the one at which they act. Between the steps the clock moves on. A failed submit
says here what it failed by, and `hazync-unpark.py` is a step of its own; the other steps are those
of the board.

## One step, and what it writes

`WorldStep` has the six kinds of steps that touch `ranges`, with the board's own steps as one of
them. `RowWrite` says what each leaves in the table, in terms of the four operations on keyed
tables: a row put in place of another, a row changed, a row put in where there is none, and nothing.
`WorldStep.write` connects the two, once; what is proved later about rows is by cases on `RowWrite`.

Most of these writes are no matter to a claim. `Moved` is what they have in common: rows of the same
claims, not beaten, some of them gone where a verified row took their place. So a proof about claims
has three cases (`WorldStep.rows`).
-/

namespace Hazync
namespace Coordinator

open KeyedTable

/-! ## `is_env_failure` -/

/-- `_ENV_ERR` -/
def ENV_ERR : List String :=
  ["out of memory", "oom", "cudaerror", "cuda error", "hash_rows", "illegal memory access",
    "allocation failed", "no cuda-capable device", "received signal", "keyboardinterrupt",
    "systemexit"]

/-- `str.lower` of a character, as far as it can give letters of ASCII. -/
def lowerChar (c : Char) : List Char :=
  if c = '\u212a' then ['k'] else if c = '\u0130' then ['i', '\u0307'] else [c.toLower]

/-- `is_env_failure`: the note has one of the texts, whatever the case of its letters. Two
    characters outside ASCII have an ASCII letter among the lower case that `str.lower` makes of
    them. -/
def isEnvFailure (err : String) : Bool :=
  ENV_ERR.any fun s => s.toList <:+: err.toList.flatMap lowerChar

/-- The note of a submit that fails. -/
def failureNote (sigOk : Bool) (note : String) : String :=
  if sigOk then note else "signature invalid"

/-- `(note or "")[:500]` -/
def cutNote (note : String) : String := String.ofList (note.toList.take 500)

/-! ## `hazync-unpark.py` -/

/-- `unpark`, for one id. -/
def unpark (db : Db) (rid : String) : Db :=
  { db with
    ranges := update RangeRow.id rid
      (fun r => if r.status = .failed then { r with status := .opened, attempts := 0 } else r)
      db.ranges }

/-! ## Steps -/

variable (cfg : Config) (out : Outside)

/-- What a claim has read of the tables that others write without the lock. -/
structure SponsorsSeen where
  sponsorships : List Sponsorship
  sponsorKeys : List (String × Option ℕ)

/-- The tables as the claim reads them: `ranges` and `vranges` are written under the lock only, which
    it holds. -/
def Db.withSponsors (db : Db) (seen : SponsorsSeen) : Db :=
  { db with sponsorships := seen.sponsorships, sponsorKeys := seen.sponsorKeys }

/-- The board at a moment. -/
structure World where
  st : State
  clock : Time

/-- What happens in a step. -/
inductive Act where
  | tick (t : Time)
  | claim (req : ClaimRequest) (amb : Ambient) (seen : SponsorsSeen)
  | beat (rid pubkey sig : String) (ts : ℤ) (chainTip : ℕ) (now : Time)
  | fail (sub : Submission) (sigOk : Bool) (note : String)
  | unpark (rid : String)
  | other (e : Event)

/-- What the other steps do to `ranges`: nothing, a row put in for a submit that had none, or a
    range that goes on record. -/
def Plain (s : State) (e : Event) (s' : State) : Prop :=
  s'.db.ranges = s.db.ranges ∨ (∃ rid lo hi, s'.db = openRow s.db rid lo hi) ∨ e ≠ .quiet

/-- One thing that happens, or time that passes. The step of a claim is its commit. What it has read
    of the sponsorships may be out of date by then, so it is any here: what a claim can have read is a
    matter of how it is served (`ServeStep`). -/
inductive WorldStep : World → Act → World → Prop
  | tick {w : World} {t : Time} (h : w.clock ≤ t) : WorldStep w (.tick t) { w with clock := t }
  | claim {w : World} (req : ClaimRequest) (amb : Ambient) (seen : SponsorsSeen) (hnow : amb.now ≤ w.clock) :
      WorldStep w (.claim req amb seen)
        { w with st := { w.st with db := { w.st.db with
            ranges := (claim cfg out (w.st.db.withSponsors seen) req amb).2.ranges } } }
  | beat {w : World} (rid pubkey sig : String) (ts : ℤ) (chainTip : ℕ) {now : Time}
      (hnow : now ≤ w.clock) :
      WorldStep w (.beat rid pubkey sig ts chainTip now)
        { w with st := { w.st with db := beat cfg out w.st.db rid pubkey sig ts chainTip now } }
  | fail {w : World} {sub : Submission} {r : RangeRow} (hsub : sub ∈ w.st.submits)
      (hrow : sub.row = some r) (hcleared : sub.cleared = true)
      (hfree : committable w.st.db sub r) (sigOk : Bool) (note : String) :
      WorldStep w (.fail sub sigOk note)
        { w with st := { w.st with
            db := recordFailure cfg w.st.db sub.rid
              (isEnvFailure (cutNote (failureNote sigOk note)))
            submits := w.st.submits.erase sub } }
  | unpark {w : World} (rid : String) :
      WorldStep w (.unpark rid) { w with st := { w.st with db := unpark w.st.db rid } }
  | other {w : World} {e : Event} {s' : State} (h : Step cfg out w.st e s')
      (hplain : Plain w.st e s') : WorldStep w (.other e) { w with st := s' }

/-- The empty board, at any time. -/
def World.Empty (w : World) : Prop := w.st.Empty

/-- A run of steps that all meet `ok`, from the empty board. -/
abbrev WorldRun (ok : World → Act → Prop) : List (World × Act × World) → World → Prop :=
  Runs.Run World.Empty fun w a w' => WorldStep cfg out w a w' ∧ ok w a

section

variable {cfg out} {w : World} {db : Db}

theorem WorldStep.claim_eq {req : ClaimRequest} {amb : Ambient} {seen : SponsorsSeen}
    {rows : List RangeRow} (hnow : amb.now ≤ w.clock)
    (h : (Coordinator.claim cfg out (w.st.db.withSponsors seen) req amb).2.ranges = rows) :
    WorldStep cfg out w (.claim req amb seen)
      { w with st := { w.st with db := { w.st.db with ranges := rows } } } :=
  h ▸ .claim req amb seen hnow

theorem WorldStep.fail_eq {sub : Submission} {submits : List Submission} {r : RangeRow}
    (hsub : sub ∈ w.st.submits) (hrow : sub.row = some r) (hcleared : sub.cleared = true)
    (hfree : committable w.st.db sub r) {sigOk : Bool} {note : String}
    (h : recordFailure cfg w.st.db sub.rid (isEnvFailure (cutNote (failureNote sigOk note))) = db)
    (hsubmits : w.st.submits.erase sub = submits) :
    WorldStep cfg out w (.fail sub sigOk note)
      { w with st := { w.st with db := db, submits := submits } } :=
  h ▸ hsubmits ▸ .fail hsub hrow hcleared hfree sigOk note

theorem WorldStep.beat_eq {rid pubkey sig : String} {ts : ℤ} {chainTip : ℕ} {now : Time}
    (hnow : now ≤ w.clock)
    (h : Coordinator.beat cfg out w.st.db rid pubkey sig ts chainTip now = db) :
    WorldStep cfg out w (.beat rid pubkey sig ts chainTip now)
      { w with st := { w.st with db := db } } :=
  h ▸ .beat rid pubkey sig ts chainTip hnow

end

/-! ## What the steps write -/

variable {cfg out}

/-- A failure of the block that counts against the row of this id. -/
def failsBlock (rid : String) : Act → Bool
  | .fail sub sigOk note => sub.rid = rid ∧ isEnvFailure (cutNote (failureNote sigOk note)) = false
  | _ => false

/-- The row, with one failure more. -/
def RangeRow.countFailure (cfg : Config) (r : RangeRow) : RangeRow :=
  { r with
    attempts := r.attempts + 1
    status := if cfg.maxAttempts ≤ r.attempts + 1 ∧ r.status ≠ .verified then .failed else r.status }

/-- The row, if it was parked, put back. -/
def RangeRow.unparked (r : RangeRow) : RangeRow :=
  if r.status = .failed then { r with status := .opened, attempts := 0 } else r

/-- What a step leaves in `ranges`. -/
inductive RowWrite (cfg : Config) (out : Outside) (w : World) : Act → List RangeRow → Prop
  | same {a : Act} (h : ∀ rid, failsBlock rid a = false) : RowWrite cfg out w a w.st.db.ranges
  | grant {req : ClaimRequest} {amb : Ambient} {seen : SponsorsSeen} {signed : Bool} {n : ℕ}
      (hnow : amb.now ≤ w.clock) (h : Granted cfg out (w.st.db.withSponsors seen) req amb signed n)
      (hrange : (claim cfg out (w.st.db.withSponsors seen) req amb).1.range = some (toString n)) :
      RowWrite cfg out w (.claim req amb seen)
        (replace RangeRow.id (grantedRow req amb signed n) w.st.db.ranges)
  | renew {rid pubkey sig : String} {ts : ℤ} {chainTip : ℕ} {now : Time} (hnow : now ≤ w.clock)
      (h : ∃ r, Renews cfg out w.st.db rid pubkey sig ts chainTip now r) :
      RowWrite cfg out w (.beat rid pubkey sig ts chainTip now)
        (update RangeRow.id rid (fun r => { r with lastBeat := some now }) w.st.db.ranges)
  | count {sub : Submission} {sigOk : Bool} {note : String}
      (henv : isEnvFailure (cutNote (failureNote sigOk note)) = false) :
      RowWrite cfg out w (.fail sub sigOk note)
        (update RangeRow.id sub.rid (RangeRow.countFailure cfg) w.st.db.ranges)
  | unpark (rid : String) :
      RowWrite cfg out w (.unpark rid) (update RangeRow.id rid RangeRow.unparked w.st.db.ranges)
  | opened {e : Event} (rid : String) (lo hi : ℕ) :
      RowWrite cfg out w (.other e) (ignore RangeRow.id { id := rid, lo := lo, hi := hi } w.st.db.ranges)
  | verify {e : Event} (rid : String) :
      RowWrite cfg out w (.other e)
        (update RangeRow.id rid (fun r => { r with status := .verified }) w.st.db.ranges)
  | adopt {e : Event} {row : RangeRow} (h : row.status = .verified) :
      RowWrite cfg out w (.other e) (replace RangeRow.id row w.st.db.ranges)

/-- What a step leaves in `ranges`, by the constructor of the step. -/
theorem WorldStep.write {w w' : World} {a : Act} (h : WorldStep cfg out w a w') :
    RowWrite cfg out w a w'.st.db.ranges := by
  cases h with
  | tick h => exact .same fun _ => rfl
  | claim req amb seen hnow =>
    dsimp only
    -- only a claim that is granted writes a row
    obtain ⟨-, -, heq⟩ | ⟨again, -, heq⟩ | ⟨signed, n, hgranted, heq⟩ :=
      claim_answers cfg out (w.st.db.withSponsors seen) req amb
    · rw [heq]
      exact .same fun _ => rfl
    · rw [heq]
      exact .same fun _ => rfl
    · have hrange : (Coordinator.claim cfg out (w.st.db.withSponsors seen) req amb).1.range =
          some (toString n) := by
        rw [heq]
        rfl
      rw [heq]
      exact .grant hnow hgranted hrange
  | @beat rid pubkey sig ts chainTip now hnow =>
    dsimp only
    obtain heq | ⟨hr, heq⟩ := beat_accepted cfg out w.st.db rid pubkey sig ts chainTip now
    · rw [heq]
      exact .same fun _ => rfl
    · rw [heq]
      exact .renew hnow hr
  | @fail sub r hsub hrow hcleared hfree sigOk note =>
    dsimp only
    -- a failure of the worker's own environment is not counted
    rw [recordFailure]
    split
    · rename_i henv
      refine .same fun rid => decide_eq_false fun h => ?_
      rw [henv] at h
      cases h.2
    · rename_i henv
      exact .count (Bool.not_eq_true _ ▸ henv)
  | unpark rid => exact .unpark rid
  | @other e s' h hplain =>
    dsimp only
    -- the other events open a range, record a receipt, or leave the rows
    obtain heq | ⟨rid, lo, hi, heq⟩ | hrecorded := hplain
    · rw [heq]
      exact .same fun _ => rfl
    · rw [heq]
      exact .opened rid lo hi
    · cases h with
      | @commit sub r host m hsub hrow hcleared hhost hm hfree now => exact .verify sub.rid
      | adopt hp htodo hlimit hhost hvisit now => exact .adopt rfl
      | _ => exact absurd rfl hrecorded

theorem WorldStep.clock_le {w w' : World} {a : Act} (h : WorldStep cfg out w a w') :
    w.clock ≤ w'.clock := by
  cases h with
  | tick h => exact h
  | _ => exact le_rfl

theorem WorldStep.clock_eq {w w' : World} {a : Act} (h : WorldStep cfg out w a w')
    (ha : ∀ t, a ≠ .tick t) : w'.clock = w.clock := by
  cases h with
  | tick => exact absurd rfl (ha _)
  | _ => rfl

/-! ## Rows of the same claim -/

/-- The row is of the same claim, which may have been proven or parked since. -/
structure SameClaim (r r' : RangeRow) : Prop where
  id : r'.id = r.id
  lo : r'.lo = r.lo
  hi : r'.hi = r.hi
  assignee : r'.assignee = r.assignee
  claimedAt : r'.claimedAt = r.claimedAt
  claimNonce : r'.claimNonce = r.claimNonce
  claimSigned : r'.claimSigned = r.claimSigned
  /-- No row becomes claimed by this. -/
  claimed : r'.status = .claimed → r.status = .claimed
  /-- A claimed row ends verified or failed, or goes on. -/
  settled : r.status = .claimed → r'.status = .claimed ∨ r'.status = .verified ∨ r'.status = .failed

theorem SameClaim.refl (r : RangeRow) : SameClaim r r :=
  ⟨rfl, rfl, rfl, rfl, rfl, rfl, rfl, fun h => h, .inl⟩

/-- The table with its rows changed by `f` to rows of the same claims, those that `keep` does not
    keep taken out, and with the rows `extra`, which are not claimed. A row that was taken out was
    replaced by a verified one. -/
structure Moved (t t' extra : List RangeRow) (keep : RangeRow → Bool) (f : RangeRow → RangeRow) :
    Prop where
  /-- The rows that are kept, each changed, and the new ones after them. -/
  split : t' = (t.filter keep).map f ++ extra
  same : ∀ r ∈ t, SameClaim r (f r)
  /-- What is changed is not when the claim was last beaten. -/
  beat : ∀ r ∈ t, (f r).lastBeat = r.lastBeat
  /-- A new row is no claim. -/
  extra_status : ∀ x ∈ extra, x.status ≠ .claimed
  /-- And it has no kept row's id. -/
  extra_id : ∀ x ∈ extra, ∀ r ∈ t, keep r = true → r.id ≠ x.id
  /-- `INSERT OR REPLACE`: a row that is gone has made way for a verified one of its id. -/
  dropped : ∀ r ∈ t, keep r = false → ∃ x ∈ extra, x.id = r.id ∧ x.status = .verified

variable {t t' extra : List RangeRow} {keep : RangeRow → Bool} {f : RangeRow → RangeRow}

theorem moved_map (h : ∀ r ∈ t, SameClaim r (f r)) (hbeat : ∀ r ∈ t, (f r).lastBeat = r.lastBeat) :
    Moved t (t.map f) [] (fun _ => true) f where
  split := by rw [List.filter_true, List.append_nil]
  same := h
  beat := hbeat
  extra_status x hx := absurd hx List.not_mem_nil
  extra_id x hx := absurd hx List.not_mem_nil
  dropped r _ hr := by cases hr

theorem moved_refl (t : List RangeRow) : Moved t t [] (fun _ => true) id where
  split := by rw [List.filter_true, List.map_id, List.append_nil]
  same r _ := .refl r
  beat _ _ := rfl
  extra_status x hx := absurd hx List.not_mem_nil
  extra_id x hx := absurd hx List.not_mem_nil
  dropped r _ hr := by cases hr

theorem moved_update {rid : String} {g : RangeRow → RangeRow} (h : ∀ r ∈ t, SameClaim r (g r))
    (hbeat : ∀ r ∈ t, (g r).lastBeat = r.lastBeat) :
    Moved t (update RangeRow.id rid g t) [] (fun _ => true)
      (fun r => if r.id = rid then g r else r) := by
  refine moved_map (fun r hr => ?_) fun r hr => ?_
  · split
    · exact h r hr
    · exact .refl r
  · split
    · exact hbeat r hr
    · rfl

/-- A verified row in place of those of its id. -/
theorem moved_replace {row : RangeRow} (h : row.status = .verified) :
    Moved t (replace RangeRow.id row t) [row] (fun r => r.id ≠ row.id) id where
  split := by rw [List.map_id, replace]
  same r _ := .refl r
  beat _ _ := rfl
  extra_status x hx := by
    rw [List.mem_singleton.mp hx, h]
    exact Status.noConfusion
  extra_id x hx r _ hr := by
    rw [List.mem_singleton.mp hx]
    exact of_decide_eq_true hr
  dropped r _ hr := ⟨row, List.mem_singleton_self row, (not_not.mp (of_decide_eq_false hr)).symm, h⟩

/-- A row that is put in for a submit: it is no claim, and nothing else changes. -/
theorem moved_ignore (row : RangeRow) (h : row.status ≠ .claimed) :
    ∃ extra, Moved t (ignore RangeRow.id row t) extra (fun _ => true) id := by
  rw [ignore]
  split
  · exact ⟨[], moved_refl t⟩
  · rename_i hnew
    refine ⟨[row], ?_, fun r _ => .refl r, fun _ _ => rfl, ?_, ?_, fun r _ hr => by cases hr⟩
    · rw [List.filter_true, List.map_id]
    · intro x hx
      rw [List.mem_singleton.mp hx]
      exact h
    · intro x hx r hr _ hid
      rw [List.mem_singleton.mp hx] at hid
      exact hnew ⟨r, hr, hid⟩

theorem sameClaim_countFailure (cfg : Config) (r : RangeRow) : SameClaim r (r.countFailure cfg) := by
  refine ⟨rfl, rfl, rfl, rfl, rfl, rfl, rfl, fun hclaimed => ?_, fun hclaimed => ?_⟩
  · rw [RangeRow.countFailure] at hclaimed
    dsimp only at hclaimed
    split at hclaimed
    · cases hclaimed
    · exact hclaimed
  · rw [RangeRow.countFailure]
    dsimp only
    split
    · exact .inr (.inr rfl)
    · exact .inl hclaimed

theorem sameClaim_unparked (r : RangeRow) : SameClaim r r.unparked := by
  rw [RangeRow.unparked]
  split
  · rename_i hfailed
    refine ⟨rfl, rfl, rfl, rfl, rfl, rfl, rfl, fun h => Status.noConfusion h, fun hclaimed => ?_⟩
    rw [hfailed] at hclaimed
    cases hclaimed
  · exact .refl r

theorem unparked_lastBeat (r : RangeRow) : r.unparked.lastBeat = r.lastBeat := by
  rw [RangeRow.unparked]
  split
  · rfl
  · rfl

/-- **What a step does to the rows**: a claim may put one in, a beat may renew one, and no other
    step makes a row a claim. -/
theorem WorldStep.rows {w w' : World} {a : Act} (h : WorldStep cfg out w a w') :
    (∃ req amb seen signed n, a = .claim req amb seen ∧ amb.now ≤ w.clock ∧ w'.clock = w.clock ∧
      Granted cfg out (w.st.db.withSponsors seen) req amb signed n ∧
      w'.st.db.ranges = replace RangeRow.id (grantedRow req amb signed n) w.st.db.ranges) ∨
    (∃ rid pubkey sig ts chainTip now, a = .beat rid pubkey sig ts chainTip now ∧ now ≤ w.clock ∧
      w'.clock = w.clock ∧ (∃ r, Renews cfg out w.st.db rid pubkey sig ts chainTip now r) ∧
      w'.st.db.ranges =
        update RangeRow.id rid (fun r => { r with lastBeat := some now }) w.st.db.ranges) ∨
    w.clock ≤ w'.clock ∧ ∃ extra keep f, Moved w.st.db.ranges w'.st.db.ranges extra keep f := by
  have hle := h.clock_le
  have hclock := h.clock_eq
  have hwrite := h.write
  generalize w'.st.db.ranges = t' at hwrite ⊢
  cases hwrite with
  | same => exact .inr (.inr ⟨hle, [], _, _, moved_refl _⟩)
  | @grant req amb seen signed n hnow hgranted _ =>
    exact .inl ⟨req, amb, seen, signed, n, rfl, hnow, hclock fun _ => Act.noConfusion, hgranted, rfl⟩
  | @renew rid pubkey sig ts chainTip now hnow hr =>
    exact .inr (.inl ⟨rid, pubkey, sig, ts, chainTip, now, rfl, hnow,
      hclock fun _ => Act.noConfusion, hr, rfl⟩)
  | count =>
    exact .inr (.inr ⟨hle, [], _, _,
      moved_update (fun r _ => sameClaim_countFailure cfg r) fun _ _ => rfl⟩)
  | unpark rid =>
    exact .inr (.inr ⟨hle, [], _, _,
      moved_update (fun r _ => sameClaim_unparked r) fun r _ => unparked_lastBeat r⟩)
  | opened rid lo hi =>
    obtain ⟨extra, hextra⟩ := moved_ignore (t := w.st.db.ranges)
      { id := rid, lo := lo, hi := hi } Status.noConfusion
    exact .inr (.inr ⟨hle, extra, _, _, hextra⟩)
  | verify rid =>
    exact .inr (.inr ⟨hle, [], _, _, moved_update (fun r _ => ⟨rfl, rfl, rfl, rfl, rfl, rfl, rfl,
      fun h => Status.noConfusion h, fun _ => .inr (.inl rfl)⟩) fun _ _ => rfl⟩)
  | adopt hrow => exact .inr (.inr ⟨hle, _, _, _, moved_replace hrow⟩)

end Coordinator
end Hazync
