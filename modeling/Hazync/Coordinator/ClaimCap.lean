import Hazync.Coordinator.Clock
import Hazync.Coordinator.Offer

/-!
# How many claims a key holds (`claim`, `beat`)

A row only loses by the passing of time: what is live now was live before. So a claim, which counts
the rows of its key with an older clock, counts no fewer than are live, and the cap it checks is
kept. A beat checks something else: that the row is claimed and not past `CLAIM_MAX`. Where it finds
a row that has lapsed, the row is live again, and no cap was asked.

## Two clocks

The count is made when a claim is granted, and the cap is to hold later as well. `live_mono` makes
the one follow from the other: a row that is live at a later time was live at an earlier one, if
nothing touched it, so a count only falls. What can make it rise are a new claim, which is counted,
and a beat.

A beat sets `last_beat` on a row that is claimed and younger than `CLAIM_MAX`. If the row was live,
it counted already. If it had lapsed, the beat makes it count again, and the key may have claimed
other blocks in between. `RenewsLive` is the condition that no beat that writes does so;
`lapsed_claim_renewed` is a run in which one does.
-/

namespace Hazync
namespace Coordinator

open KeyedTable

variable {cfg : Config} {out : Outside} {db : Db} {w w' : World} {a : Act}
  {t t' extra : List RangeRow} {keep : RangeRow → Bool} {f : RangeRow → RangeRow}
  {r r' : RangeRow} {now later : Time}

/-! ## Liveness and time -/

theorem after_mono {u : Option Time} (h : now ≤ later) (hu : after u later = true) :
    after u now = true := by
  rw [after, Option.any_eq_true] at hu ⊢
  obtain ⟨x, hx, hlt⟩ := hu
  exact ⟨x, hx, decide_eq_true (lt_of_le_of_lt h (of_decide_eq_true hlt))⟩

theorem live_iff : live cfg now r = true ↔ r.status = .claimed ∧
    after (r.lastBeat.or r.claimedAt) (now - cfg.claimTtl) = true ∧
    after r.claimedAt (now - cfg.claimMax) = true ∧
    (r.lastBeat.isSome = true ∨ after r.claimedAt (now - cfg.claimGrace) = true) := by
  rw [live, decide_eq_true_iff]

/-- A claim that is live now was live before. -/
theorem live_mono (h : now ≤ later) (hlive : live cfg later r = true) : live cfg now r = true := by
  rw [live_iff] at hlive ⊢
  obtain ⟨hstatus, hbeat, hmax, hgrace⟩ := hlive
  have hsub (d : Time) : now - d ≤ later - d := sub_le_sub_right h d
  exact ⟨hstatus, after_mono (hsub _) hbeat, after_mono (hsub _) hmax,
    hgrace.imp_right (after_mono (hsub _))⟩

/-- Without a beat, a row of the same claim is live only where the other is. -/
theorem SameClaim.live (h : SameClaim r r') (hbeat : r'.lastBeat = r.lastBeat)
    (hlive : live cfg now r' = true) : live cfg now r = true := by
  rw [live_iff] at hlive ⊢
  rw [hbeat, h.claimedAt] at hlive
  exact ⟨h.claimed hlive.1, hlive.2⟩

theorem live_claimed (h : live cfg now r = true) : r.status = .claimed := (live_iff.mp h).1

/-! ## One row for a claim -/

/-- A claimed row is the only one of its id. A claim replaces the row of its id, and an adoption
    does too, so a beat or a commit touches one row. -/
def OneRow (rows : List RangeRow) : Prop :=
  ∀ r ∈ rows, r.status = .claimed → ∀ r' ∈ rows, r'.id = r.id → r' = r

theorem Moved.mem (h : Moved t t' extra keep f) {x : RangeRow} (hx : x ∈ t') :
    (∃ r ∈ t, keep r = true ∧ f r = x) ∨ x ∈ extra := by
  rw [h.split, List.mem_append, List.mem_map] at hx
  obtain ⟨r, hr, rfl⟩ | hx := hx
  · obtain ⟨hr, hkeep⟩ := List.mem_filter.mp hr
    exact .inl ⟨r, hr, hkeep, rfl⟩
  · exact .inr hx

theorem Moved.oneRow (h : Moved t t' extra keep f) (hone : OneRow t) : OneRow t' := by
  intro x hx hclaimed y hy hid
  obtain ⟨r, hr, hkeep, rfl⟩ | hx := h.mem hx
  · obtain ⟨r', hr', -, rfl⟩ | hy := h.mem hy
    · rw [(h.same r hr).id, (h.same r' hr').id] at hid
      rw [hone r hr ((h.same r hr).claimed hclaimed) r' hr' hid]
    · rw [(h.same r hr).id] at hid
      exact absurd hid.symm (h.extra_id y hy r hr hkeep)
  · exact absurd hclaimed (h.extra_status x hx)

theorem oneRow_replace {row : RangeRow} (hone : OneRow t) :
    OneRow (replace RangeRow.id row t) := by
  intro x hx hclaimed y hy hid
  obtain rfl | ⟨hx, hxid⟩ := mem_replace.mp hx
  · obtain rfl | ⟨-, hyid⟩ := mem_replace.mp hy
    · rfl
    · exact absurd hid hyid
  · obtain rfl | ⟨hy, -⟩ := mem_replace.mp hy
    · exact absurd hid.symm hxid
    · exact hone x hx hclaimed y hy hid

theorem oneRow_renew {rid : String} (hone : OneRow t) :
    OneRow (update RangeRow.id rid (fun r => { r with lastBeat := some now }) t) := by
  intro x hx hclaimed y hy hid
  obtain ⟨hx, hxid⟩ | ⟨r, hr, hrid, rfl⟩ := mem_update.mp hx
  · obtain ⟨hy, -⟩ | ⟨r', -, hrid', rfl⟩ := mem_update.mp hy
    · exact hone x hx hclaimed y hy hid
    · exact absurd (hid.symm.trans hrid') hxid
  · obtain ⟨-, hyid⟩ | ⟨r', hr', -, rfl⟩ := mem_update.mp hy
    · exact absurd (hid.trans hrid) hyid
    · rw [hone r hr hclaimed r' hr' hid]

theorem WorldStep.oneRow (h : WorldStep cfg out w a w') (hone : OneRow w.st.db.ranges) :
    OneRow w'.st.db.ranges := by
  obtain ⟨req, amb, seen, signed, n, -, -, -, -, hrows⟩ | ⟨rid, pubkey, sig, ts, tip, now, -, -, -, -, hrows⟩ |
    ⟨-, extra, keep, f, hmoved⟩ := h.rows
  · exact hrows ▸ oneRow_replace hone
  · exact hrows ▸ oneRow_renew hone
  · exact hmoved.oneRow hone

theorem oneRow_empty (h : w.Empty) : OneRow w.st.db.ranges := by
  obtain ⟨seed, rangeSize, heq⟩ := h
  intro r hr hclaimed
  rw [heq] at hr
  obtain ⟨i, -, rfl⟩ := List.mem_map.mp hr
  cases hclaimed

/-! ## The cap -/

/-- A beat that is accepted finds the claim that it renews live. -/
def RenewsLive (cfg : Config) (out : Outside) (w : World) : Act → Prop
  | .beat rid pubkey sig ts chainTip now => ∀ r,
      Renews cfg out w.st.db rid pubkey sig ts chainTip now r → live cfg w.clock r = true
  | _ => True

/-- No row is live after a step that was not live before, but for that of a granted claim. The
    claim's own fields are compared, so a row that changed hands is not the same claim. -/
theorem WorldStep.live_cases (h : WorldStep cfg out w a w') (hone : OneRow w.st.db.ranges)
    (hok : RenewsLive cfg out w a) (hr' : r' ∈ w'.st.db.ranges) (hlive : live cfg w'.clock r' = true) :
    (∃ r ∈ w.st.db.ranges, live cfg w.clock r = true ∧ SameClaim r r') ∨
      ∃ req amb seen signed n, a = .claim req amb seen ∧
        Granted cfg out (w.st.db.withSponsors seen) req amb signed n ∧
        r' = grantedRow req amb signed n := by
  obtain ⟨req, amb, seen, signed, n, rfl, -, hclock, hgranted, hrows⟩ |
    ⟨rid, pubkey, sig, ts, tip, now, rfl, -, hclock, ⟨r₀, hr₀⟩, hrows⟩ |
    ⟨hclock, extra, keep, f, hmoved⟩ := h.rows
  · rw [hrows] at hr'
    obtain rfl | ⟨hr, -⟩ := mem_replace.mp hr'
    · exact .inr ⟨req, amb, seen, signed, n, rfl, hgranted, rfl⟩
    · exact .inl ⟨r', hr, hclock ▸ hlive, .refl r'⟩
  · rw [hrows] at hr'
    obtain ⟨hr, -⟩ | ⟨r, hr, hid, rfl⟩ := mem_update.mp hr'
    · exact .inl ⟨r', hr, hclock ▸ hlive, .refl r'⟩
    · obtain ⟨hmem, hid₀⟩ := mem_of_find hr₀.found
      obtain rfl := hone r₀ hmem hr₀.claimed r hr (hid.trans hid₀.symm)
      exact .inl ⟨r, hr, hok r hr₀, ⟨rfl, rfl, rfl, rfl, rfl, rfl, rfl, fun h => h, .inl⟩⟩
  · obtain ⟨r, hr, -, rfl⟩ | hx := hmoved.mem hr'
    · have hsame := hmoved.same r hr
      exact .inl ⟨r, hr, live_mono hclock (hsame.live (hmoved.beat r hr) hlive), hsame⟩
    · exact absurd (live_claimed hlive) (hmoved.extra_status r' hx)

/-- The rows that count for a key. -/
def counts (cfg : Config) (key : String) (signed : Bool) (now : Time) (r : RangeRow) : Bool :=
  r.assignee = some key ∧ r.claimSigned.getD false = signed ∧ live cfg now r

theorem openClaims_eq (cfg : Config) (db : Db) (key : String) (signed : Bool) (now : Time) :
    openClaims cfg db key signed now = db.ranges.countP (counts cfg key signed now) := by
  rw [openClaims, List.countP_eq_length_filter]
  rfl

variable {key : String} {signed : Bool}

theorem counts_iff : counts cfg key signed now r = true ↔ r.assignee = some key ∧
    r.claimSigned.getD false = signed ∧ live cfg now r = true := by
  rw [counts, decide_eq_true_iff]

theorem openClaims_mono (h : now ≤ later) :
    openClaims cfg db key signed later ≤ openClaims cfg db key signed now := by
  rw [openClaims_eq, openClaims_eq]
  refine List.countP_mono_left fun r _ hr => ?_
  rw [counts_iff] at hr ⊢
  exact ⟨hr.1, hr.2.1, live_mono h hr.2.2⟩

/-- A table that loses rows, and puts one in. -/
theorem countP_replace_le (p : RangeRow → Bool) (row : RangeRow) (t : List RangeRow) :
    (replace RangeRow.id row t).countP p ≤ t.countP p + if p row then 1 else 0 := by
  rw [replace, List.countP_append, List.countP_singleton]
  exact Nat.add_le_add_right (List.filter_sublist.countP_le) _

/-- Where rows only change in ways that keep them from getting live, no more of them count. -/
theorem Moved.countP_le (h : Moved t t' extra keep f) (hle : now ≤ later) :
    t'.countP (counts cfg key signed later) ≤ t.countP (counts cfg key signed now) := by
  have hextra : extra.countP (counts cfg key signed later) = 0 := by
    rw [List.countP_eq_zero]
    intro x hx hcounts
    exact h.extra_status x hx (live_claimed (counts_iff.mp hcounts).2.2)
  rw [h.split, List.countP_append, hextra, Nat.add_zero, List.countP_map]
  refine (List.countP_mono_left fun r hr hcounts => ?_).trans (List.filter_sublist.countP_le)
  have hmem := List.mem_of_mem_filter hr
  have hsame := h.same r hmem
  obtain ⟨hkey, hsigned, hlive⟩ := counts_iff.mp hcounts
  rw [hsame.assignee] at hkey
  rw [hsame.claimSigned] at hsigned
  exact counts_iff.mpr ⟨hkey, hsigned, live_mono hle (hsame.live (h.beat r hmem) hlive)⟩

/-- A beat of a live row changes nothing in the count. -/
theorem countP_renew_le {rid : String}
    (hlive : ∀ r ∈ t, r.id = rid → r.status = .claimed → live cfg later r = true) :
    (update RangeRow.id rid (fun r => { r with lastBeat := some now }) t).countP
      (counts cfg key signed later) ≤ t.countP (counts cfg key signed later) := by
  rw [update, List.countP_map]
  refine List.countP_mono_left fun r hr hcounts => ?_
  rw [Function.comp_apply] at hcounts
  split at hcounts
  · rename_i hid
    obtain ⟨hkey, hsigned, hcl⟩ := counts_iff.mp hcounts
    have hclaimed : r.status = .claimed := (live_iff.mp hcl).1
    exact counts_iff.mpr ⟨hkey, hsigned, hlive r hr hid hclaimed⟩
  · exact hcounts

/-- **The cap is kept by a step**: a claim is granted below it, by an older clock. -/
theorem WorldStep.cap (h : WorldStep cfg out w a w') (hmax : 0 < cfg.claimOpenMax)
    (hone : OneRow w.st.db.ranges) (hok : RenewsLive cfg out w a) (hkey : key ≠ "")
    (hcap : openClaims cfg w.st.db key signed w.clock ≤ cfg.claimOpenMax) :
    openClaims cfg w'.st.db key signed w'.clock ≤ cfg.claimOpenMax := by
  rw [openClaims_eq] at hcap ⊢
  obtain ⟨req, amb, seen, signed', n, rfl, hnow, hclock, hgranted, hrows⟩ |
    ⟨rid, pubkey, sig, ts, tip, now, rfl, -, hclock, ⟨r₀, hr₀⟩, hrows⟩ |
    ⟨hclock, extra, keep, f, hmoved⟩ := h.rows
  · rw [hrows, hclock]
    refine (countP_replace_le _ _ _).trans ?_
    by_cases hrow : counts cfg key signed w.clock (grantedRow req amb signed' n) = true
    · obtain ⟨hassignee, hsigned, -⟩ := counts_iff.mp hrow
      obtain rfl : req.pubkey = key := Option.some.inj hassignee
      obtain rfl : signed' = signed := hsigned
      have hopen : openClaims cfg w.st.db req.pubkey signed' amb.now < cfg.claimOpenMax :=
        Nat.not_le.mp fun hge => hgranted.cap ⟨hmax, hkey, hge⟩
      have hold : openClaims cfg w.st.db req.pubkey signed' w.clock < cfg.claimOpenMax :=
        lt_of_le_of_lt (openClaims_mono hnow) hopen
      rw [openClaims_eq] at hold
      rw [if_pos hrow]
      exact hold
    · rw [if_neg hrow]
      exact hcap
  · rw [hrows, hclock]
    refine (countP_renew_le fun r hr hid hcl => ?_).trans hcap
    obtain ⟨hmem, hid₀⟩ := mem_of_find hr₀.found
    obtain rfl := hone r₀ hmem hr₀.claimed r hr (hid.trans hid₀.symm)
    exact hok r hr₀
  · exact (hmoved.countP_le hclock).trans hcap

/-- Rows are one to an id where they are claimed, and no key is above its cap. -/
structure CapKept (cfg : Config) (w : World) : Prop where
  oneRow : OneRow w.st.db.ranges
  cap : ∀ key signed, key ≠ "" → openClaims cfg w.st.db key signed w.clock ≤ cfg.claimOpenMax

theorem capKept_empty (h : w.Empty) : CapKept cfg w := by
  refine ⟨oneRow_empty h, fun key signed _ => ?_⟩
  obtain ⟨seed, rangeSize, heq⟩ := h
  rw [openClaims_eq, heq, List.countP_eq_zero.mpr]
  · exact Nat.zero_le _
  · intro r hr hcounts
    obtain ⟨i, -, rfl⟩ := List.mem_map.mp hr
    exact Status.noConfusion (live_claimed (counts_iff.mp hcounts).2.2)

theorem CapKept.step (hmax : 0 < cfg.claimOpenMax) (hw : CapKept cfg w)
    (h : WorldStep cfg out w a w') (hok : RenewsLive cfg out w a) : CapKept cfg w' :=
  ⟨h.oneRow hw.oneRow, fun key signed hkey => h.cap hmax hw.oneRow hok hkey (hw.cap key signed hkey)⟩

/-- What is offered to a key is not withheld from it. -/
theorem offered_not_withheld {pubkey : String} {amb : Ambient} {n : ℕ}
    (h : offered cfg db pubkey signed amb = some n) :
    ¬ withheld cfg db pubkey signed amb.now n := by
  rw [offered] at h
  split at h
  · rename_i hblocked
    obtain rfl := Option.some.inj h
    exact hblocked.2.2.1
  · have hfound := List.find?_some h
    exact (of_decide_eq_true hfound).2.1

/-- **A key's live claims are capped**, and no claim comes back, in every run in which the beats
    that are accepted find their claims live. -/
theorem claims_capped (hmax : 0 < cfg.claimOpenMax) {trace : List (World × Act × World)}
    (h : WorldRun cfg out (RenewsLive cfg out) trace w) :
    (∀ key signed, key ≠ "" →
      openClaims cfg w.st.db key signed w.clock ≤ cfg.claimOpenMax) ∧
    ∀ x ∈ trace, ∀ r' ∈ x.2.2.st.db.ranges, live cfg x.2.2.clock r' = true →
      (∃ r ∈ x.1.st.db.ranges, live cfg x.1.clock r = true ∧ SameClaim r r') ∨
      ∃ req amb seen signed n, x.2.1 = .claim req amb seen ∧ r' = grantedRow req amb signed n ∧
        ¬ capped cfg x.1.st.db req.pubkey signed amb.now ∧
        ¬ lapsed cfg x.1.st.db req.pubkey signed amb.now n := by
  have hinit : ∀ w : World, w.Empty → CapKept cfg w := fun w hw => capKept_empty hw
  have hstep : ∀ (w : World) (a : Act) (w' : World), CapKept cfg w →
      (WorldStep cfg out w a w' ∧ RenewsLive cfg out w a) → CapKept cfg w' :=
    fun w a w' hw hs => hw.step hmax hs.1 hs.2
  refine ⟨(h.invariant hinit hstep).cap, fun x hx r' hr' hlive => ?_⟩
  obtain ⟨hw, hs, hok⟩ := h.forall_steps hinit hstep x hx
  obtain hold | ⟨req, amb, seen, signed, n, ha, hgranted, hrow⟩ := hs.live_cases hw.oneRow hok hr' hlive
  · exact .inl hold
  · exact .inr ⟨req, amb, seen, signed, n, ha, hrow, hgranted.cap,
      fun hlapsed => offered_not_withheld hgranted.offered (.inr hlapsed)⟩

/-! ## A beat of a claim that has lapsed -/

/-- One live claim for a key. -/
def singleConfig : Config := { sampleConfig with claimOpenMax := 1 }

/-- Every signature holds. -/
def openOutside : Outside := { sampleOutside with verifySig := fun _ _ _ => true }

def aliceClaim (nonce : String) : ClaimRequest := sampleClaim "alice" nonce

/-- Alice's row of block 1, claimed at 0 and last beaten as said, and that of block 2. -/
def aliceRows (lastBeat : Option Time) : List RangeRow :=
  [{ claimedRow 1 "alice" "a" with lastBeat := lastBeat },
    { claimedRow 2 "alice" "b" with claimedAt := some 700 }]

/-- The board with these rows. -/
def boardAt (rows : List RangeRow) (clock : Time) : World :=
  ⟨⟨{ initDb 0 1 with ranges := rows }, [], [], []⟩, clock⟩

theorem boardAt_claim {rows : List RangeRow} (rows' : List RangeRow) {clock : Time}
    {req : ClaimRequest} {amb : Ambient} {seen : SponsorsSeen} (hnow : amb.now ≤ clock)
    (h : (claim cfg out ((boardAt rows clock).st.db.withSponsors seen) req amb).2.ranges = rows') :
    WorldStep cfg out (boardAt rows clock) (.claim req amb seen) (boardAt rows' clock) :=
  .claim_eq hnow h

theorem boardAt_beat {rows : List RangeRow} (rows' : List RangeRow) {clock now : Time}
    {rid pubkey sig : String} {ts : ℤ} {chainTip : ℕ} (hnow : now ≤ clock)
    (h : beat cfg out (boardAt rows clock).st.db rid pubkey sig ts chainTip now =
      (boardAt rows' clock).st.db) :
    WorldStep cfg out (boardAt rows clock) (.beat rid pubkey sig ts chainTip now)
      (boardAt rows' clock) :=
  .beat_eq hnow h

/-- Alice claims block 1 and lets the claim lapse, and claims block 2. -/
theorem alice_run (ok : World → Act → Prop) (hclaim : ∀ w req amb seen, ok w (.claim req amb seen))
    (htick : ∀ w t, ok w (.tick t)) : ∃ trace,
    WorldRun singleConfig openOutside ok trace (boardAt (aliceRows none) 700) := by
  have hstart : WorldRun singleConfig openOutside ok [] (boardAt [] 0) := .nil ⟨0, 1, rfl⟩
  have hfirst := hstart.snoc ⟨boardAt_claim [claimedRow 1 "alice" "a"] (le_refl (0 : Time))
    (by decide +kernel), hclaim _ (aliceClaim "a") (sampleAmbient 0) ⟨[], []⟩⟩
  have hlapse := hfirst.snoc ⟨.tick (show (0 : Time) ≤ 700 by decide), htick _ _⟩
  have hsecond := hlapse.snoc ⟨boardAt_claim (aliceRows none) (le_refl (700 : Time))
    (by decide +kernel), hclaim _ (aliceClaim "b") (sampleAmbient 700) ⟨[], []⟩⟩
  exact ⟨_, hsecond⟩

theorem claims_capped_alice :
    openClaims singleConfig (boardAt (aliceRows none) 700).st.db "alice" false 700 ≤ 1 := by
  obtain ⟨trace, hrun⟩ := alice_run (RenewsLive singleConfig openOutside) (fun _ _ _ _ => trivial)
    fun _ _ => trivial
  exact (claims_capped (by decide) hrun).1 "alice" false (by decide)

/-- But a beat of the claim that lapsed makes it live again: Alice then holds two blocks of one. -/
theorem lapsed_claim_renewed : ∃ trace v w,
    WorldRun singleConfig openOutside (fun _ _ => True) trace w ∧
      (v, Act.beat "1" "alice" "" 700 100 700, w) ∈ trace ∧
      (∃ r ∈ v.st.db.ranges, ∃ r' ∈ w.st.db.ranges, SameClaim r r' ∧
        live singleConfig v.clock r = false ∧ live singleConfig w.clock r' = true) ∧
      singleConfig.claimOpenMax < openClaims singleConfig w.st.db "alice" false w.clock := by
  obtain ⟨trace, hrun⟩ := alice_run (fun _ _ => True) (fun _ _ _ _ => trivial)
    fun _ _ => trivial
  have hbeat : WorldStep singleConfig openOutside (boardAt (aliceRows none) 700)
      (.beat "1" "alice" "" 700 100 700) (boardAt (aliceRows (some 700)) 700) :=
    boardAt_beat _ (le_refl (700 : Time)) (by decide +kernel)
  refine ⟨_, _, _, hrun.snoc ⟨hbeat, trivial⟩, List.mem_append_right _ (List.mem_singleton_self _),
    ⟨claimedRow 1 "alice" "a", List.mem_cons_self, _, List.mem_cons_self, ?_, ?_, ?_⟩, ?_⟩
  · exact ⟨rfl, rfl, rfl, rfl, rfl, rfl, rfl, fun h => h, .inl⟩
  · decide +kernel
  · decide +kernel
  · decide +kernel

end Coordinator
end Hazync
