import Hazync.Coordinator.ClaimCap

/-!
# Failures are counted, and park a range (`record_submission_failure`)

Only a failed submit raises the count of a row, by one, and only if its note is not one of the box.
A signature that does not hold is a failure of the block. The row is parked when the count comes to
`MAX_ATTEMPTS`. A claim puts in a row of its own, with no count: where the row it takes out had
failures, they are gone.

## Why a count is not a number of failures

`attempts` is a column of the row, and a row of `ranges` does not live as long as its block. A claim
puts in a fresh one, an unpark resets it, a commit replaces it with the row of the proof. So the
count is the number of failures since the last of these, and `Restarts` says which steps they are.
Between them the number is exact: the row has what it had, and one for each failed submit of the
block whose note is not one of the box.

What a note is counts too. A submit fails with the text of the verifier, cut to the length of the
column, and `isEnvFailure` looks for the words of a box that is out of memory or has lost its card.
Where the signature does not hold there is no verifier and no such word in the note, so the block is
charged for a failure of the sender's (`unsigned_submits_park`).
-/

namespace Hazync
namespace Coordinator

open KeyedTable

variable {cfg : Config} {out : Outside} {db : Db} {w w' : World} {a : Act} {r : RangeRow}

/-! ## What restarts a count -/

/-- The step takes the row's count: a claim takes a block that has failures or is verified, or the
    row was parked and is put back. -/
def Restarts (cfg : Config) (out : Outside) (w : World) (rid : String) : Act → Prop
  | .claim req amb seen => claimByNonce cfg w.st.db req amb.now = none ∧
      (claim cfg out (w.st.db.withSponsors seen) req amb).1.range = some rid ∧
      ∃ r ∈ w.st.db.ranges, r.id = rid ∧ (r.attempts ≠ 0 ∨ r.status = .verified)
  | .unpark rid' => rid' = rid ∧ ∃ r ∈ w.st.db.ranges, r.id = rid ∧ r.status = .failed
  | _ => False

/-- The failures of the block in a run: the failed submits that are charged to it. -/
def blockFailures (rid : String) (trace : List (World × Act × World)) : ℕ :=
  trace.countP fun x => failsBlock rid x.2.1

/-- A row that is verified takes no failure: a late submit of the same block does it no harm. -/
theorem countFailure_verified (h : r.status = .verified) : (r.countFailure cfg).status = .verified := by
  rw [RangeRow.countFailure]
  dsimp only
  rw [if_neg fun hpark => hpark.2 h, h]

theorem unparked_of_ne (h : r.status ≠ .failed) : r.unparked = r := if_neg h

/-- How a row goes through a step. -/
structure Counted (rid : String) (fails : ℕ) (r r' : RangeRow) : Prop where
  /-- The row is still that of the id. -/
  id : r'.id = rid
  /-- Once verified a row stays so. -/
  verified : r.status = .verified → r'.status = .verified
  /-- The failures that the step records, and nothing else, are added to its attempts. -/
  attempts : r'.status ≠ .verified → r'.attempts = r.attempts + fails

theorem counted_refl (r : RangeRow) : Counted r.id 0 r r := ⟨rfl, fun h => h, fun _ => rfl⟩

/-- Through two stretches of a run the failures add up. -/
theorem Counted.trans {r' r'' : RangeRow} {n n' : ℕ} {rid : String} (h : Counted rid n r r')
    (h' : Counted rid n' r' r'') : Counted rid (n + n') r r'' where
  id := h'.id
  verified hr := h'.verified (h.verified hr)
  attempts hr := by
    have hr' : r'.status ≠ .verified := fun hv => hr (h'.verified hv)
    rw [h'.attempts hr, h.attempts hr', Nat.add_assoc]

/-- **A failure of the block counts one**, and nothing else does, while no step restarts the
count. -/
theorem WorldStep.counted (h : WorldStep cfg out w a w') (hr : r ∈ w.st.db.ranges)
    (hkeep : ¬ Restarts cfg out w r.id a) :
    ∃ r' ∈ w'.st.db.ranges, Counted r.id (if failsBlock r.id a then 1 else 0) r r' := by
  have hwrite := h.write
  generalize w'.st.db.ranges = t' at hwrite ⊢
  cases hwrite with
  | same h =>
    rw [h]
    exact ⟨r, hr, counted_refl r⟩
  | @grant req amb seen signed n hnow hgranted hrange =>
    obtain hmem | hid := mem_replace_of_mem RangeRow.id (grantedRow req amb signed n) hr
    · exact ⟨r, hmem, counted_refl r⟩
    -- the claim restarts no count, so it is of a row that has none and is not verified
    · have hfresh : r.attempts = 0 ∧ r.status ≠ .verified := by
        by_contra hcon
        rw [not_and_or, not_not] at hcon
        exact hkeep ⟨hgranted.fresh, hid ▸ hrange, r, hr, rfl, hcon⟩
      refine ⟨_, mem_replace.mpr (.inl rfl), hid.symm, fun hv => absurd hv hfresh.2, fun _ => ?_⟩
      rw [hfresh.1]
      rfl
  | @renew rid pubkey sig ts tip now hnow hfound =>
    obtain ⟨-, hmem⟩ | ⟨-, hmem⟩ := exists_mem_update rid _ hr
    · exact ⟨_, hmem, rfl, fun h => h, fun _ => rfl⟩
    · exact ⟨r, hmem, counted_refl r⟩
  -- the one write that counts
  | @count sub sigOk note henv =>
    obtain ⟨hid, hmem⟩ | ⟨hid, hmem⟩ := exists_mem_update sub.rid (RangeRow.countFailure cfg) hr
    · have hfails : failsBlock r.id (.fail sub sigOk note) = true := decide_eq_true ⟨hid.symm, henv⟩
      rw [if_pos hfails]
      exact ⟨_, hmem, rfl, countFailure_verified, fun _ => rfl⟩
    · have hfails : ¬ failsBlock r.id (.fail sub sigOk note) = true :=
        fun h => hid (of_decide_eq_true h).1.symm
      rw [if_neg hfails]
      exact ⟨r, hmem, counted_refl r⟩
  | unpark rid =>
    obtain ⟨hid, hmem⟩ | ⟨-, hmem⟩ := exists_mem_update rid RangeRow.unparked hr
    · rw [unparked_of_ne fun hfailed => hkeep ⟨hid.symm, r, hr, rfl, hfailed⟩] at hmem
      exact ⟨r, hmem, counted_refl r⟩
    · exact ⟨r, hmem, counted_refl r⟩
  | opened rid lo hi => exact ⟨r, mem_ignore.mpr (.inl hr), counted_refl r⟩
  -- a verified row is counted no more
  | verify rid =>
    obtain ⟨-, hmem⟩ | ⟨-, hmem⟩ := exists_mem_update rid _ hr
    · exact ⟨_, hmem, rfl, fun _ => rfl, fun h => absurd rfl h⟩
    · exact ⟨r, hmem, counted_refl r⟩
  | @adopt e row hrow =>
    obtain hmem | hid := mem_replace_of_mem RangeRow.id row hr
    · exact ⟨r, hmem, counted_refl r⟩
    · exact ⟨row, mem_replace.mpr (.inl rfl), hid.symm, fun _ => hrow, fun h => absurd hrow h⟩

/-- **The attempts of a row are what they were and the failures since**, by induction on the run:
    none of its steps restarts the count. -/
theorem counted_run (hr : r ∈ w.st.db.ranges) {trace : List (World × Act × World)}
    (h : Runs.Run (· = w) (WorldStep cfg out) trace w')
    (hkeep : ∀ x ∈ trace, ¬ Restarts cfg out x.1 r.id x.2.1) :
    ∃ r' ∈ w'.st.db.ranges, Counted r.id (blockFailures r.id trace) r r' := by
  induction h with
  | nil h =>
    subst h
    exact ⟨r, hr, counted_refl r⟩
  | @snoc trace s s' a hrun hstep ih =>
    obtain ⟨r', hr', hcounted⟩ := ih fun x hx => hkeep x (List.mem_append_left _ hx)
    have hlast := hkeep _ (List.mem_append_right _ (List.mem_singleton_self (s, a, s')))
    rw [← hcounted.id] at hlast
    obtain ⟨r'', hr'', hcounted'⟩ := hstep.counted hr' hlast
    rw [hcounted.id] at hcounted'
    refine ⟨r'', hr'', ?_⟩
    rw [blockFailures, List.countP_append, List.countP_singleton]
    exact hcounted.trans hcounted'

/-! ## The count parks the row -/

/-- A row that is not verified is parked as its count says. -/
def ParkedAt (cfg : Config) (r : RangeRow) : Prop :=
  r.status ≠ .verified → (r.status = .failed ↔ 0 < r.attempts ∧ cfg.maxAttempts ≤ r.attempts)

theorem parkedAt_fresh (hstatus : r.status ≠ .failed) (hattempts : r.attempts = 0) :
    ParkedAt cfg r := by
  intro _
  rw [hattempts]
  exact ⟨fun h => absurd h hstatus, fun h => absurd h.1 (lt_irrefl 0)⟩

/-- One more failure parks the row when it is the `maxAttempts`-th, and leaves a row that is parked
    as it is. -/
theorem ParkedAt.countFailure (h : ParkedAt cfg r) : ParkedAt cfg (r.countFailure cfg) := by
  intro hstatus
  rw [RangeRow.countFailure] at hstatus ⊢
  dsimp only at hstatus ⊢
  by_cases hmax : cfg.maxAttempts ≤ r.attempts + 1
  · by_cases hverified : r.status = .verified
    · rw [if_neg fun hpark => hpark.2 hverified] at hstatus
      exact absurd hverified hstatus
    · rw [if_pos ⟨hmax, hverified⟩]
      exact ⟨fun _ => ⟨Nat.succ_pos _, hmax⟩, fun _ => rfl⟩
  · -- below the cap the row is as it was, and it was not parked
    rw [if_neg fun hpark => hmax hpark.1] at hstatus ⊢
    rw [h hstatus]
    omega

theorem ParkedAt.unparked (h : ParkedAt cfg r) : ParkedAt cfg r.unparked := by
  rw [RangeRow.unparked]
  split
  · exact parkedAt_fresh Status.noConfusion rfl
  · exact h

/-- **A step keeps every row parked as its count says.** This needs no condition: the steps that
    restart a count put the row back in the same breath. -/
theorem WorldStep.parked (h : WorldStep cfg out w a w')
    (hw : ∀ r ∈ w.st.db.ranges, ParkedAt cfg r) : ∀ r ∈ w'.st.db.ranges, ParkedAt cfg r := by
  have hwrite := h.write
  generalize w'.st.db.ranges = t' at hwrite ⊢
  intro x hx
  cases hwrite with
  | same => exact hw x hx
  | grant =>
    obtain rfl | ⟨hx, -⟩ := mem_replace.mp hx
    · exact parkedAt_fresh Status.noConfusion rfl
    · exact hw x hx
  | renew =>
    obtain ⟨hx, -⟩ | ⟨r, hr, -, rfl⟩ := mem_update.mp hx
    · exact hw x hx
    · exact hw r hr
  | count =>
    obtain ⟨hx, -⟩ | ⟨r, hr, -, rfl⟩ := mem_update.mp hx
    · exact hw x hx
    · exact (hw r hr).countFailure
  | unpark =>
    obtain ⟨hx, -⟩ | ⟨r, hr, -, rfl⟩ := mem_update.mp hx
    · exact hw x hx
    · exact (hw r hr).unparked
  | opened =>
    obtain hx | ⟨rfl, -⟩ := mem_ignore.mp hx
    · exact hw x hx
    · exact parkedAt_fresh Status.noConfusion rfl
  | verify =>
    obtain ⟨hx, -⟩ | ⟨r, hr, -, rfl⟩ := mem_update.mp hx
    · exact hw x hx
    · exact fun h => absurd rfl h
  | adopt hrow =>
    obtain rfl | ⟨hx, -⟩ := mem_replace.mp hx
    · exact fun h => absurd hrow h
    · exact hw x hx

theorem parked_empty (h : w.Empty) : ∀ r ∈ w.st.db.ranges, ParkedAt cfg r := by
  obtain ⟨seed, rangeSize, heq⟩ := h
  intro r hr
  rw [heq] at hr
  obtain ⟨i, -, rfl⟩ := List.mem_map.mp hr
  exact parkedAt_fresh Status.noConfusion rfl

/-- **Failures of the block add up in its row, and park it**, from any state of any run and through
any steps that do not restart the count, until the row is verified; and then it stays verified. -/
theorem failures_park {trace seg : List (World × Act × World)}
    (h : WorldRun cfg out (fun _ _ => True) trace w)
    (hseg : Runs.Run (· = w) (WorldStep cfg out) seg w') (hr : r ∈ w.st.db.ranges)
    (hkeep : ∀ x ∈ seg, ¬ Restarts cfg out x.1 r.id x.2.1) :
    ∃ r' ∈ w'.st.db.ranges, r'.id = r.id ∧ (r.status = .verified → r'.status = .verified) ∧
      (r'.status ≠ .verified → r'.attempts = r.attempts + blockFailures r.id seg ∧
        (r'.status = .failed ↔ 0 < r'.attempts ∧ cfg.maxAttempts ≤ r'.attempts)) := by
  have hw : ∀ r ∈ w.st.db.ranges, ParkedAt cfg r :=
    h.invariant (p := fun w => ∀ r ∈ w.st.db.ranges, ParkedAt cfg r) (fun _ hw => parked_empty hw)
      fun _ _ _ hw hstep => hstep.1.parked hw
  have hw' : ∀ r ∈ w'.st.db.ranges, ParkedAt cfg r :=
    hseg.invariant (p := fun w => ∀ r ∈ w.st.db.ranges, ParkedAt cfg r) (fun _ heq => heq ▸ hw)
      fun _ _ _ hw hstep => hstep.parked hw
  obtain ⟨r', hr', hcounted⟩ := counted_run hr hseg hkeep
  exact ⟨r', hr', hcounted.id, hcounted.verified,
    fun hstatus => ⟨hcounted.attempts hstatus, hw' r' hr' hstatus⟩⟩

/-! ## Submits whose signature does not hold -/

/-- A submit of block 1 with nothing in it. -/
def emptySubmit (row : Option RangeRow) (cleared : Bool) : Submission :=
  ⟨"1", "mallory", "anon", [], row, cleared⟩

/-- The board with these rows and submits. -/
def submitAt (rows : List RangeRow) (submits : List Submission) : World :=
  ⟨⟨{ initDb 0 1 with ranges := rows }, submits, [], []⟩, 0⟩

def blockOne : RangeRow := { id := "1", lo := 1, hi := 1 }

/-- Each failed submit has a signature that does not hold. -/
def Unsigned (_ : World) : Act → Prop
  | .fail _ sigOk _ => sigOk = false
  | _ => True

/-- A submit of block 1 comes as far as its last check, whatever the row is: the signature is not
    looked at before that. -/
theorem submit_cleared {trace : List (World × Act × World)} {rows : List RangeRow} {row : RangeRow}
    (h : WorldRun sampleConfig sampleOutside Unsigned trace (submitAt rows []))
    (hopen : ignore RangeRow.id blockOne rows = [row]) (hid : row.id = "1")
    (hstatus : row.status ≠ .verified) : ∃ trace,
      WorldRun sampleConfig sampleOutside Unsigned trace
        (submitAt [row] [emptySubmit (some row) true]) := by
  have hcheck := h.snoc ⟨.other (.check (show submitCheck _ 100 (emptySubmit none false).rid from
    ⟨(1, 1), by decide, by decide, by decide, fun h => absurd h (by decide)⟩) rfl rfl) (.inl rfl),
    trivial⟩
  have hfound : find RangeRow.id "1" (ignore RangeRow.id blockOne rows) = some row := by
    rw [hopen, find, List.find?_cons_of_pos (by exact decide_eq_true hid)]
  have hread := hcheck.snoc ⟨.other (.read (List.mem_singleton_self _) rfl
    (by decide : parseAnyRange 100 "1" = some (1, 1)) hfound hstatus) (.inr (.inl ⟨_, _, _, rfl⟩)),
    trivial⟩
  have hclear := hread.snoc ⟨.other (.clear (List.mem_cons_self) rfl (by
    rintro ⟨sp, hsp, -⟩
    exact absurd hsp List.not_mem_nil)) (.inl rfl), trivial⟩
  have hopened : openRow { initDb 0 1 with ranges := rows } "1" 1 1 =
      { initDb 0 1 with ranges := [row] } := congrArg (fun t => { initDb 0 1 with ranges := t }) hopen
  refine ⟨_, hclear.to ?_⟩
  simp [submitAt, emptySubmit, hopened]

/-- A signature that does not hold is not a failure of the box. -/
theorem unsigned_counts (note : String) : isEnvFailure (cutNote (failureNote false note)) = false := by
  rw [failureNote, if_neg Bool.false_ne_true]
  decide +kernel

/-- The submit fails. -/
theorem submit_fails {row : RangeRow} (hid : row.id = "1") (hstatus : row.status ≠ .verified) :
    WorldStep sampleConfig sampleOutside (submitAt [row] [emptySubmit (some row) true])
      (.fail (emptySubmit (some row) true) false "")
      (submitAt [row.countFailure sampleConfig] []) := by
  have hfree : committable (submitAt [row] [emptySubmit (some row) true]).st.db
      (emptySubmit (some row) true) row := by
    refine ⟨fun r hr => ?_, fun ⟨sp, hsp, _⟩ => absurd hsp List.not_mem_nil⟩
    rw [List.mem_singleton.mp (mem_of_find hr).1]
    exact hstatus
  have hupdate : update RangeRow.id "1" (RangeRow.countFailure sampleConfig) [row] =
      [row.countFailure sampleConfig] := by
    rw [update, List.map_singleton, if_pos hid]
  refine .fail_eq (List.mem_singleton_self _) rfl rfl hfree ?_ (List.erase_cons_head _ _)
  rw [unsigned_counts]
  exact congrArg (fun t => { initDb 0 1 with ranges := t }) hupdate

/-- Three submits of block 1 whose signatures do not hold. -/
theorem unsigned_run : ∃ trace, WorldRun sampleConfig sampleOutside Unsigned trace
    (submitAt [{ blockOne with status := .failed, attempts := 3 }] []) := by
  have hstart : WorldRun sampleConfig sampleOutside Unsigned [] (submitAt [] []) := .nil ⟨0, 1, rfl⟩
  obtain ⟨trace₁, h₁⟩ := submit_cleared hstart rfl rfl Status.noConfusion
  have hfail₁ := h₁.snoc ⟨submit_fails rfl Status.noConfusion, rfl⟩
  obtain ⟨trace₂, h₂⟩ := submit_cleared hfail₁ rfl rfl (by decide)
  have hfail₂ := h₂.snoc ⟨submit_fails rfl (by decide), rfl⟩
  obtain ⟨trace₃, h₃⟩ := submit_cleared hfail₂ rfl rfl (by decide)
  exact ⟨_, h₃.snoc ⟨submit_fails rfl (by decide), rfl⟩⟩

/-- One of them counts one. -/
theorem failures_park_one : ∃ r' ∈ (submitAt [blockOne.countFailure sampleConfig] []).st.db.ranges,
    r'.id = "1" ∧ (r'.status ≠ .verified → r'.attempts = 1 ∧
      (r'.status = .failed ↔ 0 < r'.attempts ∧ 3 ≤ r'.attempts)) := by
  obtain ⟨trace, h⟩ := submit_cleared (.nil ⟨0, 1, rfl⟩) (rfl : ignore _ _ [] = [blockOne]) rfl
    Status.noConfusion
  have hrun : WorldRun sampleConfig sampleOutside (fun _ _ => True) trace _ :=
    h.mono fun _ _ _ hstep => ⟨hstep.1, trivial⟩
  have hseg : Runs.Run (· = submitAt [blockOne] [emptySubmit (some blockOne) true])
      (WorldStep sampleConfig sampleOutside) _ _ :=
    .snoc (.nil rfl) (submit_fails rfl Status.noConfusion)
  obtain ⟨r', hr', hid, -, hcount⟩ := failures_park hrun hseg (List.mem_singleton_self blockOne)
    fun x hx => by
      rw [List.mem_singleton.mp hx]
      exact id
  exact ⟨r', hr', hid, hcount⟩

/-- The three park block 1, and a claim is answered with it nevertheless. -/
theorem unsigned_submits_park : ∃ trace w,
    WorldRun sampleConfig sampleOutside Unsigned trace w ∧
      (∃ r ∈ w.st.db.ranges, r.id = "1" ∧ r.status = .failed ∧ r.attempts = sampleConfig.maxAttempts) ∧
      (claim sampleConfig sampleOutside w.st.db (sampleClaim "bob" "b") (sampleAmbient 0)).1 =
        .offer "1" := by
  obtain ⟨trace, hrun⟩ := unsigned_run
  exact ⟨trace, _, hrun, ⟨_, List.mem_singleton_self _, rfl, rfl, rfl⟩, by decide +kernel⟩

end Coordinator
end Hazync
