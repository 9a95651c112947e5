import Hazync.Coordinator.Serving

/-!
# What a claim hands out is held (`claim`, `pick`)

A block of a live claim is held, so neither the scan nor the re-offer of the frontier's blocker comes
to it, nor a pick that has seen the claim, and its row stays as it is until the claim is over. Three
things come in between.

A claim that repeats the nonce of another is answered before any of this: `_claim_by_nonce` asks for a
beat or a claim within `CLAIM_TTL`, but not for `CLAIM_GRACE`, and it does not ask for the holds of
sponsors. A hold that starts while a claim is served, after its `SELECT` of the holds, is not seen. And
a pick that has read the claims before a claim commits answers with its block nevertheless.

## The three conditions

Each of the three is excluded by a condition on what is there before the step. `InTime` has those on
a claim: where the request repeats a claim, the terms of *that* row (`Repeated`, read off its
fields) have to be those of a live claim by the clock at which it is answered, and its block must
not be sold; where it is new, the terms are counted from the time the request came, and the holds of
now must have been there when it read the sponsorships. `Timely` adds the one on a pick.

They ask nothing of what `claim` answers. That the answer is a block which the key holds is
`InTime.granted`, from the definition of `claim`; that it goes on being held is the run lemma
`stands_run`.
-/

namespace Hazync
namespace Coordinator

open KeyedTable

variable {cfg : Config} {out : Outside} {db : Db} {w w' v : World} {a : Act}
  {t t' extra : List RangeRow} {keep : RangeRow → Bool} {f : RangeRow → RangeRow}
  {r r' c c' : RangeRow} {req : ClaimRequest} {amb : Ambient} {now later : Time} {n : ℕ}

/-! ## Rows of claims -/

/-- The id of a claimed row is its block, and it is the only row of that id. -/
structure ClaimRows (rows : List RangeRow) : Prop where
  oneRow : OneRow rows
  ids : ∀ r ∈ rows, r.status = .claimed → r.id = toString r.lo

theorem claimRows_empty (h : w.Empty) : ClaimRows w.st.db.ranges := by
  refine ⟨oneRow_empty h, ?_⟩
  obtain ⟨seed, rangeSize, heq⟩ := h
  intro r hr hclaimed
  rw [heq] at hr
  obtain ⟨i, -, rfl⟩ := List.mem_map.mp hr
  cases hclaimed

theorem Moved.ids (h : Moved t t' extra keep f)
    (hids : ∀ r ∈ t, r.status = .claimed → r.id = toString r.lo) :
    ∀ r ∈ t', r.status = .claimed → r.id = toString r.lo := by
  intro x hx hclaimed
  obtain ⟨r, hr, -, rfl⟩ | hx := h.mem hx
  · have hsame := h.same r hr
    rw [hsame.id, hsame.lo]
    exact hids r hr (hsame.claimed hclaimed)
  · exact absurd hclaimed (h.extra_status x hx)

theorem ClaimRows.step (hw : ClaimRows w.st.db.ranges) (h : WorldStep cfg out w a w') :
    ClaimRows w'.st.db.ranges := by
  refine ⟨h.oneRow hw.oneRow, ?_⟩
  obtain ⟨req, amb, seen, signed, n, -, -, -, -, hrows⟩ |
    ⟨rid, pubkey, sig, ts, tip, now, -, -, -, -, hrows⟩ | ⟨-, extra, keep, f, hmoved⟩ := h.rows
  · intro x hx hclaimed
    rw [hrows] at hx
    obtain rfl | ⟨hx, -⟩ := mem_replace.mp hx
    · rfl
    · exact hw.ids x hx hclaimed
  · intro x hx hclaimed
    rw [hrows] at hx
    obtain ⟨hx, -⟩ | ⟨r, hr, -, rfl⟩ := mem_update.mp hx
    · exact hw.ids x hx hclaimed
    · exact hw.ids r hr hclaimed
  · exact hmoved.ids hw.ids

/-! ## A claim stands until it is over -/

theorem SameClaim.trans (h : SameClaim r r') {x : RangeRow} (h' : SameClaim r' x)
    (hclaimed : r'.status = .claimed) : SameClaim r x where
  id := h'.id.trans h.id
  lo := h'.lo.trans h.lo
  hi := h'.hi.trans h.hi
  assignee := h'.assignee.trans h.assignee
  claimedAt := h'.claimedAt.trans h.claimedAt
  claimNonce := h'.claimNonce.trans h.claimNonce
  claimSigned := h'.claimSigned.trans h.claimSigned
  claimed hx := h.claimed (h'.claimed hx)
  settled _ := h'.settled hclaimed

/-- The claim holds its block: a row of it is live. The row may have been beaten since. -/
def Stands (cfg : Config) (c : RangeRow) (w : World) : Prop :=
  ∃ r ∈ w.st.db.ranges, SameClaim c r ∧ live cfg w.clock r = true

/-- The claim has lapsed or is past `CLAIM_MAX`, or its block is proven or parked. -/
def Over (cfg : Config) (c : RangeRow) (w : World) : Prop :=
  (∃ r ∈ w.st.db.ranges, SameClaim c r ∧ r.status = .claimed ∧ live cfg w.clock r = false) ∨
    ∃ r ∈ w.st.db.ranges, r.id = c.id ∧ (r.status = .verified ∨ r.status = .failed)

/-- A row of a claim that stood says which of the two it is. -/
theorem stands_or_over (hr : r ∈ w.st.db.ranges) (hsame : SameClaim c r)
    (hsettled : r.status = .claimed ∨ r.status = .verified ∨ r.status = .failed) :
    Stands cfg c w ∨ Over cfg c w := by
  obtain hclaimed | hdone := hsettled
  · cases hlive : live cfg w.clock r with
    | true => exact .inl ⟨r, hr, hsame, hlive⟩
    | false => exact .inr (.inl ⟨r, hr, hsame, hclaimed, hlive⟩)
  · exact .inr (.inr ⟨r, hr, hsame.id, hdone⟩)

theorem offered_not_live {pubkey : String} {signed : Bool}
    (h : offered cfg db pubkey signed amb = some n) (hr : r ∈ db.ranges)
    (hlive : live cfg amb.now r = true) : r.lo ≠ n :=
  fun hlo => offered_not_withheld h (.inl (.inl ⟨r, hr, hlive, hlo⟩))

/-- **A claim that stands is not taken over**: after a step it stands still, or it is over. Another
    claim may replace the row of an id only where it offers the block, and it does not offer what is
    held. -/
theorem WorldStep.stands (h : WorldStep cfg out w a w') (hw : ClaimRows w.st.db.ranges)
    (hc : Stands cfg c w) : Stands cfg c w' ∨ Over cfg c w' := by
  obtain ⟨r, hr, hsame, hlive⟩ := hc
  have hclaimed := live_claimed hlive
  obtain ⟨req, amb, seen, signed, n, -, hnow, hclock, hgranted, hrows⟩ |
    ⟨rid, pubkey, sig, ts, tip, now, -, -, hclock, -, hrows⟩ | ⟨-, extra, keep, f, hmoved⟩ := h.rows
  · obtain hmem | hid := mem_replace_of_mem RangeRow.id (grantedRow req amb signed n) hr
    · exact .inl ⟨r, hrows ▸ hmem, hsame, hclock ▸ hlive⟩
    · -- the claim is granted another block than one of a live claim
      rw [hw.ids r hr hclaimed] at hid
      exact absurd (toString_inj hid) (offered_not_live hgranted.offered hr (live_mono hnow hlive))
  · have hmem : (if r.id = rid then { r with lastBeat := some now } else r) ∈ w'.st.db.ranges := by
      rw [hrows]
      exact List.mem_map_of_mem hr
    split at hmem
    · exact stands_or_over hmem (hsame.trans ⟨rfl, rfl, rfl, rfl, rfl, rfl, rfl, fun h => h, .inl⟩
        hclaimed) (.inl hclaimed)
    · exact stands_or_over hmem hsame (.inl hclaimed)
  · cases hkeep : keep r with
    | true =>
      have hmem : f r ∈ w'.st.db.ranges := by
        rw [hmoved.split]
        exact List.mem_append_left _ (List.mem_map_of_mem (List.mem_filter.mpr ⟨hr, hkeep⟩))
      exact stands_or_over hmem (hsame.trans (hmoved.same r hr) hclaimed)
        ((hmoved.same r hr).settled hclaimed)
    | false =>
      obtain ⟨x, hx, hid, hverified⟩ := hmoved.dropped r hr hkeep
      refine .inr (.inr ⟨x, ?_, hid.trans hsame.id, .inl hverified⟩)
      rw [hmoved.split]
      exact List.mem_append_right _ hx

/-! ## What claims and picks answer -/

variable {s s' : Serving} {b : ServeAct} {d : Claiming}

/-- What holds of every state of a run: the rows of claims, and when those under way came. -/
structure Served (s : Serving) : Prop where
  came : Came s
  rows : ClaimRows s.world.st.db.ranges

theorem served_empty (h : s.Empty) : Served s := ⟨came_empty h, claimRows_empty h.1⟩

theorem Served.step (hs : Served s) (h : ServeStep cfg out s b s') : Served s' := by
  refine ⟨hs.came.step h, ?_⟩
  obtain heq | ⟨a, hstep⟩ := h.world_cases hs.came
  · exact heq ▸ hs.rows
  · exact hs.rows.step hstep

theorem ServeStep.stands (h : ServeStep cfg out s b s') (hs : Served s)
    (hc : Stands cfg c s.world) : Stands cfg c s'.world ∨ Over cfg c s'.world := by
  obtain heq | ⟨a, hstep⟩ := h.world_cases hs.came
  · exact .inl (heq ▸ hc)
  · exact hstep.stands hs.rows hc

/-- A sponsor holds the block, having paid or with an invoice open. -/
def Db.sponsored (db : Db) (now : Time) (n : ℕ) : Prop :=
  ∃ sp ∈ db.sponsorships, (sp.holds ∨ sp.pending now) ∧ sp.lo ≤ n ∧ n ≤ sp.hi

instance (db : Db) (now : Time) (n : ℕ) : Decidable (db.sponsored now n) :=
  inferInstanceAs (Decidable (∃ sp ∈ db.sponsorships, _))

/-- The step answers with the block. -/
def Answers (cfg : Config) (out : Outside) (s : Serving) (n : ℕ) : ServeAct → Prop
  | .answer d => (d.reply cfg out s.world).range = some (toString n)
  | .advise p peers busy => pick cfg p.db p.amb peers busy = some n
  | _ => False

/-- The request that the claim was made with, sent again. -/
def Repeats (c : RangeRow) : ServeAct → Prop
  | .answer d => c.assignee = some d.req.pubkey ∧ d.req.nonce ≠ none ∧ c.claimNonce = d.req.nonce
  | _ => False

/-- The row is of a claim that the request repeats, as `_claim_by_nonce` sees it. -/
structure Repeated (cfg : Config) (req : ClaimRequest) (now : Time) (r : RangeRow) : Prop where
  claimed : r.status = .claimed
  /-- The key of the row is the caller's, and there is one. -/
  key : r.assignee = some req.pubkey ∧ req.pubkey ≠ ""
  /-- So is the nonce, and the request has one. -/
  nonce : r.claimNonce = req.nonce ∧ req.nonce ≠ none
  /-- The claim has been beaten, or made, within `CLAIM_TTL`. -/
  ttl : after (r.lastBeat.or r.claimedAt) (now - cfg.claimTtl) = true
  /-- And it was made within `CLAIM_MAX`. -/
  max : after r.claimedAt (now - cfg.claimMax) = true

/-- `_claim_by_nonce` finds a claim that the request repeats, if there is one. -/
theorem claimByNonce_some (h : claimByNonce cfg db req now = some r) :
    r ∈ db.ranges ∧ Repeated cfg req now r := by
  rw [claimByNonce] at h
  split at h
  · cases h
  · rename_i hgiven
    rw [not_or] at hgiven
    have hfound := List.find?_some h
    obtain ⟨hclaimed, hkey, hnonce, httl, hmax⟩ := of_decide_eq_true hfound
    exact ⟨List.mem_of_find?_eq_some h,
      ⟨hclaimed, ⟨hkey, hgiven.2⟩, ⟨hnonce, hgiven.1⟩, httl, hmax⟩⟩

theorem claimByNonce_none (h : claimByNonce cfg db req now = none) (hr : r ∈ db.ranges) :
    ¬ Repeated cfg req now r := by
  intro hrepeated
  rw [claimByNonce, if_neg (not_or.mpr ⟨hrepeated.nonce.2, hrepeated.key.2⟩)] at h
  refine List.find?_eq_none.mp h r hr (decide_eq_true ?_)
  exact ⟨hrepeated.claimed, hrepeated.key.1, hrepeated.nonce.1, hrepeated.ttl, hrepeated.max⟩

theorem pick_not_held {peers busy : ℕ → Bool} (h : pick cfg db amb peers busy = some n) :
    ¬ db.held cfg amb.now n := by
  have hpass {busy : ℕ → Bool} (h : pickFrom cfg db amb peers busy = some n) :
      ¬ db.held cfg amb.now n := by
    have hfound := List.find?_some h
    exact (of_decide_eq_true hfound).2.1
  rw [pick, Option.orElse_eq_some] at h
  obtain h | ⟨-, h⟩ := h
  · exact hpass h
  · exact hpass h

/-! ## The condition -/

/-- A claim is answered in time.

    If it repeats a claim, that claim has not lapsed, by any of the three terms of a live claim, and
    its block is not sold. If it is a new one, none of the terms has run out since it came, and what
    sponsors hold by now was held when it read the sponsorships. -/
structure InTime (cfg : Config) (w : World) (d : Claiming) : Prop where
  /-- A claim that is repeated has been beaten, or is within its grace. -/
  graced : ∀ r ∈ w.st.db.ranges, Repeated cfg d.req d.look.amb.now r →
    r.lastBeat.isSome = true ∨ after r.claimedAt (d.look.amb.now - cfg.claimGrace) = true
  /-- If it was live when the request came, it still is. -/
  prompt : ∀ r ∈ w.st.db.ranges, Repeated cfg d.req d.look.amb.now r →
    live cfg d.look.amb.now r = true → live cfg w.clock r = true
  /-- No sponsor has paid for its block, or is paying. -/
  unsold : ∀ r ∈ w.st.db.ranges, Repeated cfg d.req d.look.amb.now r →
    ∀ sp ∈ w.st.db.sponsorships, (sp.holds ∨ sp.pending w.clock) → ¬ (sp.lo ≤ r.lo ∧ r.lo ≤ sp.hi)
  /-- The terms of a claim that came when the request did. -/
  promptNew : (∀ r ∈ w.st.db.ranges, ¬ Repeated cfg d.req d.look.amb.now r) →
    w.clock - cfg.claimTtl < d.look.amb.now ∧ w.clock - cfg.claimMax < d.look.amb.now ∧
      w.clock - cfg.claimGrace < d.look.amb.now
  /-- The blocks of the holds that there are. -/
  known : (∀ r ∈ w.st.db.ranges, ¬ Repeated cfg d.req d.look.amb.now r) →
    ∀ sp ∈ w.st.db.sponsorships, (sp.holds ∨ sp.pending w.clock) → ∀ n, sp.lo ≤ n → n ≤ sp.hi →
      ∃ sp' ∈ d.seen.sponsorships, (sp'.holds ∨ sp'.pending d.look.amb.now) ∧ sp'.lo ≤ n ∧ n ≤ sp'.hi

/-- Claims are answered in time, and a pick answers before any claim commits that it has not read. -/
def Timely (cfg : Config) (s : Serving) : ServeAct → Prop
  | .answer d => InTime cfg s.world d
  | .advise p _ _ => ∀ r ∈ s.world.st.db.ranges, live cfg s.world.clock r = true →
      ∃ r' ∈ p.db.ranges, live cfg p.amb.now r' = true ∧ r'.lo = r.lo
  | _ => True

/-- **No other request is answered with a block whose claim stands.** A new claim is offered no
    block that is held; a repeated one is answered with its own row; a pick that has read the claim
    passes over its block. -/
theorem ServeStep.repeats (h : ServeStep cfg out s b s') (hs : Served s) (hok : Timely cfg s b)
    (hc : Stands cfg c s.world) (hid : c.id = toString n) (hlo : c.lo = n)
    (hanswers : Answers cfg out s n b) : Repeats c b := by
  obtain ⟨r, hr, hsame, hlive⟩ := hc
  have hclaimed := live_claimed hlive
  cases h with
  | @answer d hclaim hleft =>
    have hnow := hs.came.claim d hclaim
    obtain ⟨-, hrange, -⟩ | ⟨again, hagain, heq⟩ | ⟨signed, m, hgranted, heq⟩ :=
      claim_answers cfg out (s.world.st.db.withSponsors d.seen) d.req d.look.amb
    · rw [Answers, Claiming.reply, hrange] at hanswers
      cases hanswers
    · obtain ⟨hmem, hrepeated⟩ := claimByNonce_some hagain
      rw [Answers, Claiming.reply, heq] at hanswers
      have hagain_id : again.id = r.id := by
        rw [hsame.id, hid]
        exact Option.some.inj hanswers
      obtain rfl := hs.rows.oneRow r hr hclaimed again hmem hagain_id
      exact ⟨hsame.assignee.symm.trans hrepeated.key.1, hrepeated.nonce.2,
        hsame.claimNonce.symm.trans hrepeated.nonce.1⟩
    · rw [Answers, Claiming.reply, heq] at hanswers
      obtain rfl := toString_inj (Option.some.inj hanswers)
      exact absurd (hsame.lo.trans hlo) (offered_not_live hgranted.offered hr (live_mono hnow hlive))
  | @advise p before after hpick hleft peers busy =>
    obtain ⟨r', hr', hlive', hlo'⟩ := hok r hr hlive
    exact absurd (.inl ⟨r', hr', hlive', hlo'.trans (hsame.lo.trans hlo)⟩) (pick_not_held hanswers)
  | _ => cases hanswers

/-- From a claim that stands on: it is over in the end, or stands, and until then its block goes out
    to no other request. By induction along the run, with `WorldStep.stands` for each step. -/
theorem stands_run (hs : Served s) (hc : Stands cfg c s.world) (hid : c.id = toString n)
    (hlo : c.lo = n) {trace : List (Serving × ServeAct × Serving)}
    (h : Runs.Run (· = s) (fun s b s' => ServeStep cfg out s b s' ∧ Timely cfg s b) trace s')
    (hgoing : ∀ x ∈ trace, ¬ Over cfg c x.1.world) :
    Served s' ∧ (Stands cfg c s'.world ∨ Over cfg c s'.world) ∧
      ∀ x ∈ trace, Stands cfg c x.1.world ∧ (Answers cfg out x.1 n x.2.1 → Repeats c x.2.1) := by
  induction h with
  | nil h =>
    subst h
    exact ⟨hs, .inl hc, fun x hx => absurd hx List.not_mem_nil⟩
  | @snoc trace v v' b hrun hstep ih =>
    obtain ⟨hv, hstands, hrepeats⟩ := ih fun x hx => hgoing x (List.mem_append_left _ hx)
    have hstands : Stands cfg c v.world :=
      hstands.resolve_right (hgoing _ (List.mem_append_right _ (List.mem_singleton_self _)))
    refine ⟨hv.step hstep.1, hstep.1.stands hv hstands, fun x hx => ?_⟩
    obtain hx | hx := List.mem_append.mp hx
    · exact hrepeats x hx
    · rw [List.mem_singleton.mp hx]
      exact ⟨hstands, fun hanswers => hstep.1.repeats hv hstep.2 hstands hid hlo hanswers⟩

/-! ## A block that is handed out is held -/

/-- What the claim `d` is answered in `s` is a block that its key holds after the step, and that no
    sponsor holds. In the steps `post` that follow, up to the first from a state in which the claim is
    over, the claim stands, and its block goes out to no other request. -/
def HandedOut (cfg : Config) (out : Outside) (d : Claiming) (s s' : Serving)
    (post : List (Serving × ServeAct × Serving)) : Prop :=
  ∃ c ∈ s'.world.st.db.ranges, c.id = toString c.lo ∧ (d.reply cfg out s.world).range = some c.id ∧
    c.assignee = some d.req.pubkey ∧ live cfg s'.world.clock c = true ∧
    ¬ s.world.st.db.sponsored s.world.clock c.lo ∧
    ∀ mid rest, post = mid ++ rest → (∀ x ∈ mid, ¬ Over cfg c x.1.world) →
      ∀ x ∈ mid, Stands cfg c x.1.world ∧ (Answers cfg out x.1 c.lo x.2.1 → Repeats c x.2.1)

theorem live_granted {signed : Bool} : live cfg now (grantedRow req amb signed n) = true ↔
    now - cfg.claimTtl < amb.now ∧ now - cfg.claimMax < amb.now ∧ now - cfg.claimGrace < amb.now := by
  rw [live_iff]
  simp [grantedRow, after]

theorem handedOut_of {post : List (Serving × ServeAct × Serving)} {s'' : Serving} (hs : Served s')
    (hpost : Runs.Run (· = s') (fun s b s' => ServeStep cfg out s b s' ∧ Timely cfg s b) post s'')
    (hc : c ∈ s'.world.st.db.ranges) (hrange : (d.reply cfg out s.world).range = some c.id)
    (hkey : c.assignee = some d.req.pubkey) (hlive : live cfg s'.world.clock c = true)
    (hsponsored : ¬ s.world.st.db.sponsored s.world.clock c.lo) : HandedOut cfg out d s s' post := by
  have hid := hs.rows.ids c hc (live_claimed hlive)
  refine ⟨c, hc, hid, hrange, hkey, hlive, hsponsored, fun mid rest hmid hgoing => ?_⟩
  obtain ⟨v, hrun⟩ := hpost.take hmid
  exact (stands_run hs ⟨c, hc, .refl c, hlive⟩ hid rfl hrun hgoing).2.2

/-- A claim that is answered in time, and not refused, is answered with a live row of its key, whose
    block no sponsor holds. The two cases are those of `InTime`: a row that is found by the nonce,
    and a row that is put in. -/
theorem InTime.granted (hok : InTime cfg s.world d) (h : ServeStep cfg out s (.answer d) s')
    (hcode : (d.reply cfg out s.world).code = 200) :
    ∃ c ∈ s'.world.st.db.ranges, (d.reply cfg out s.world).range = some c.id ∧
      c.assignee = some d.req.pubkey ∧ live cfg s'.world.clock c = true ∧
      ¬ s.world.st.db.sponsored s.world.clock c.lo := by
  cases h with
  | answer hclaim hleft =>
    obtain ⟨hrefused, -, -⟩ | ⟨again, hagain, heq⟩ | ⟨signed, n, hgranted, heq⟩ :=
      claim_answers cfg out (s.world.st.db.withSponsors d.seen) d.req d.look.amb
    · exact absurd hcode hrefused
    · -- nothing is written: the row is the one that was found
      obtain ⟨hmem, hrepeated⟩ := claimByNonce_some hagain
      have hlive : live cfg d.look.amb.now again = true := live_iff.mpr
        ⟨hrepeated.claimed, hrepeated.ttl, hrepeated.max, hok.graced again hmem hrepeated⟩
      refine ⟨again, ?_, ?_, hrepeated.key.1, hok.prompt again hmem hrepeated hlive, ?_⟩
      · rw [heq]
        exact hmem
      · rw [Claiming.reply, heq]
        rfl
      · rintro ⟨sp, hsp, hholds, hspan⟩
        exact hok.unsold again hmem hrepeated sp hsp hholds hspan
    · have hfresh : ∀ r ∈ s.world.st.db.ranges, ¬ Repeated cfg d.req d.look.amb.now r :=
        fun r hr => claimByNonce_none hgranted.fresh hr
      refine ⟨grantedRow d.req d.look.amb signed n, ?_, ?_, rfl,
        live_granted.mpr (hok.promptNew hfresh), ?_⟩
      · rw [heq]
        exact mem_replace.mpr (.inl rfl)
      · rw [Claiming.reply, heq]
        rfl
      · -- the holds that it has read are withheld
        rintro ⟨sp, hsp, hholds, hlo, hhi⟩
        have hseen := hok.known hfresh sp hsp hholds n hlo hhi
        exact offered_not_withheld hgranted.offered (.inl (.inr hseen))

/-- **What a claim hands out is really held**, and is held until the claim is over, in every run in
    which claims are answered in time and picks before a claim that they have not read. The claim
    may come at any point of the run, and the steps after it may be any. -/
theorem claims_hold {pre post : List (Serving × ServeAct × Serving)} {v v' : Serving}
    (h : ServeRun cfg out (Timely cfg) (pre ++ (v, .answer d, v') :: post) s)
    (hcode : (d.reply cfg out v.world).code = 200) : HandedOut cfg out d v v' post := by
  have hinit : ∀ s : Serving, s.Empty → Served s := fun s hs => served_empty hs
  have hkeeps : ∀ (s : Serving) (b : ServeAct) (s' : Serving), Served s →
      ServeStep cfg out s b s' ∧ Timely cfg s b → Served s' := fun s b s' hs hstep => hs.step hstep.1
  obtain ⟨hrun, hstep, hok⟩ := h.split rfl
  have hv' : Served v' := (hrun.invariant hinit hkeeps).step hstep
  obtain ⟨c, hc, hrange, hkey, hlive, hsponsored⟩ := InTime.granted hok hstep hcode
  exact handedOut_of hv' (h.tail rfl) hc hrange hkey hlive hsponsored

/-! ## Alice claims block 1, and claims it again -/

/-- The board with these rows and nothing under way. -/
def servingAt (rows : List RangeRow) (clock : Time) : Serving := ⟨boardAt rows clock, none, []⟩

/-- A claim that has read the sponsorships, of which there are none. -/
def readyClaim (req : ClaimRequest) (amb : Ambient) : Claiming := ⟨req, ⟨amb, ⟨[], [], [], []⟩, []⟩⟩

/-- A claim is served, where no sponsor holds a block. -/
theorem serve_claim {ok : Serving → ServeAct → Prop}
    {trace : List (Serving × ServeAct × Serving)} {rows : List RangeRow} {clock : Time}
    (h : ServeRun cfg out ok trace (servingAt rows clock)) (req : ClaimRequest) (amb : Ambient)
    (rows' : List RangeRow) (hnow : amb.now ≤ clock)
    (hrows : (claim cfg out (boardAt rows clock).st.db req amb).2.ranges = rows')
    (hreads : ∀ s c, ok s (.enter c) ∧ ok s (.read c))
    (hanswer : ok ⟨boardAt rows clock, some (readyClaim req amb), []⟩ (.answer (readyClaim req amb))) :
    ∃ mid, ServeRun cfg out ok (trace ++ mid ++
      [(⟨boardAt rows clock, some (readyClaim req amb), []⟩, .answer (readyClaim req amb),
        servingAt rows' clock)]) (servingAt rows' clock) := by
  have henter := h.snoc ⟨.enter req amb [] hnow rfl, (hreads _ _).1⟩
  have hholds := henter.snoc ⟨.read rfl rfl, (hreads _ _).2⟩
  have hpending := (hholds.snoc ⟨.read rfl rfl, (hreads _ _).2⟩).to
    (rfl : _ = (⟨boardAt rows clock, some (readyClaim req amb), []⟩ : Serving))
  simp only [List.append_assoc] at hpending
  subst hrows
  exact ⟨_, hpending.snoc ⟨.answer rfl rfl, hanswer⟩⟩

/-- Where all claims are live and no sponsor holds a block, a claim is answered in time by the clock
    it came at. -/
theorem inTime_of_live {rows : List RangeRow} (amb : Ambient) (hnow : amb.now = now)
    (hlive : ∀ r ∈ rows, live cfg now r = true)
    (hterms : 0 < cfg.claimTtl ∧ 0 < cfg.claimMax ∧ 0 < cfg.claimGrace) :
    InTime cfg (boardAt rows now) (readyClaim req amb) := by
  subst hnow
  exact {
    graced := fun r hr _ => (live_iff.mp (hlive r hr)).2.2.2
    prompt := fun _ _ _ h => h
    unsold := fun _ _ _ _ hsp => absurd hsp List.not_mem_nil
    promptNew := fun _ => ⟨sub_lt_self _ hterms.1, sub_lt_self _ hterms.2.1, sub_lt_self _ hterms.2.2⟩
    known := fun _ _ hsp => absurd hsp List.not_mem_nil }

/-- Alice claims block 1, Bob claims a block, and Alice sends her claim again. -/
theorem claims_hold_alice : ∃ v v' post, HandedOut singleConfig openOutside
      (readyClaim (aliceClaim "a") (sampleAmbient 0)) v v' post ∧
    (∃ x ∈ post, x.2.1 = .answer (readyClaim (sampleClaim "bob" "b") (sampleAmbient 0))) ∧
    ∃ x ∈ post, x.2.1 = .answer (readyClaim (aliceClaim "a") (sampleAmbient 0)) := by
  have hstart : ServeRun singleConfig openOutside (Timely singleConfig) [] (servingAt [] 0) :=
    .nil ⟨⟨0, 1, rfl⟩, rfl, rfl⟩
  have hreads (s : Serving) (c : Claiming) :
      Timely singleConfig s (.enter c) ∧ Timely singleConfig s (.read c) := ⟨trivial, trivial⟩
  have hterms : 0 < singleConfig.claimTtl ∧ 0 < singleConfig.claimMax ∧
      0 < singleConfig.claimGrace := by decide +kernel
  have htimely (rows : List RangeRow) (req : ClaimRequest)
      (hlive : ∀ r ∈ rows, live singleConfig 0 r = true) :
      InTime singleConfig (boardAt rows 0) (readyClaim req (sampleAmbient 0)) :=
    inTime_of_live _ rfl hlive hterms
  obtain ⟨pre, halice⟩ := serve_claim hstart (aliceClaim "a") (sampleAmbient 0)
    [claimedRow 1 "alice" "a"] (le_refl (0 : Time)) (by decide +kernel) hreads
    (htimely _ _ (by decide +kernel))
  obtain ⟨mid, hbob⟩ := serve_claim halice (sampleClaim "bob" "b") (sampleAmbient 0)
    [claimedRow 1 "alice" "a", claimedRow 2 "bob" "b"] (le_refl (0 : Time)) (by decide +kernel)
    hreads (htimely _ _ (by decide +kernel))
  obtain ⟨mid', hagain⟩ := serve_claim hbob (aliceClaim "a") (sampleAmbient 0)
    [claimedRow 1 "alice" "a", claimedRow 2 "bob" "b"] (le_refl (0 : Time)) (by decide +kernel)
    hreads (htimely _ _ (by decide +kernel))
  simp only [List.nil_append, List.append_assoc, List.singleton_append] at hagain
  refine ⟨_, _, _, claims_hold hagain (by decide +kernel), ?_, ?_⟩
  · exact ⟨_, List.mem_append_right _ List.mem_cons_self, rfl⟩
  · exact ⟨_, List.mem_append_right _ (List.mem_cons_of_mem _ (List.mem_append_right _
      List.mem_cons_self)), rfl⟩

/-- She sends it again when the claim has lapsed, and is answered with block 1. It is not held: Bob's
    claim is answered with it as well. -/
theorem lapsed_claim_answered : ∃ pre d v v' post s,
    ServeRun singleConfig openOutside (fun _ _ => True) (pre ++ (v, .answer d, v') :: post) s ∧
    d.req = aliceClaim "a" ∧ d.reply singleConfig openOutside v.world = .offer "1" ∧
    (∀ r ∈ v'.world.st.db.ranges, live singleConfig v'.world.clock r = false) ∧
    ¬ HandedOut singleConfig openOutside d v v' post ∧
    ∃ x ∈ post, ∃ e, x.2.1 = .answer e ∧ e.req = sampleClaim "bob" "b" ∧
      e.reply singleConfig openOutside x.1.world = .offer "1" := by
  have hstart : ServeRun singleConfig openOutside (fun _ _ => True) [] (servingAt [] 0) :=
    .nil ⟨⟨0, 1, rfl⟩, rfl, rfl⟩
  have hreads (s : Serving) (c : Claiming) : True ∧ True := ⟨trivial, trivial⟩
  obtain ⟨pre, halice⟩ := serve_claim hstart (aliceClaim "a") (sampleAmbient 0)
    [claimedRow 1 "alice" "a"] (le_refl (0 : Time)) (by decide +kernel) hreads trivial
  obtain ⟨trace, hlapse⟩ : ∃ trace, ServeRun singleConfig openOutside (fun _ _ => True) trace
      (servingAt [claimedRow 1 "alice" "a"] 700) :=
    ⟨_, halice.snoc ⟨.world (.tick (show (0 : Time) ≤ 700 by decide)) (fun _ _ _ => Act.noConfusion)
      (fun h => absurd rfl h), trivial⟩⟩
  obtain ⟨mid, hagain⟩ := serve_claim hlapse (aliceClaim "a") (sampleAmbient 700)
    [claimedRow 1 "alice" "a"] (le_refl (700 : Time)) (by decide +kernel) hreads trivial
  obtain ⟨mid', hbob⟩ := serve_claim hagain (sampleClaim "bob" "b") (sampleAmbient 700)
    [{ claimedRow 1 "bob" "b" with claimedAt := some 700 }] (le_refl (700 : Time))
    (by decide +kernel) hreads trivial
  have hdead : ∀ r ∈ (servingAt [claimedRow 1 "alice" "a"] 700).world.st.db.ranges,
      live singleConfig 700 r = false := by decide +kernel
  simp only [List.append_assoc (trace ++ mid), List.cons_append] at hbob
  refine ⟨_, _, _, _, _, _, hbob, rfl, by decide +kernel, hdead, ?_, ?_⟩
  · rintro ⟨c, hc, -, -, -, hlive, -⟩
    exact Bool.false_ne_true ((hdead c hc).symm.trans hlive)
  · exact ⟨_, List.mem_append_right _ (List.mem_singleton_self _), _, rfl, rfl, by decide +kernel⟩

/-- A sponsor of block 1 whose payment is credited while Alice's claim is served, when it has read the
    sponsorships: she is answered with the block all the same. -/
theorem unseen_hold_answered : ∃ pre d v v',
    ServeRun singleConfig openOutside (fun _ _ => True) (pre ++ [(v, .answer d, v')]) v' ∧
    d.reply singleConfig openOutside v.world = .offer "1" ∧
    v.world.st.db.sponsored v.world.clock 1 := by
  have hstart : ServeRun singleConfig openOutside (fun _ _ => True) [] (servingAt [] 0) :=
    .nil ⟨⟨0, 1, rfl⟩, rfl, rfl⟩
  have henter := hstart.snoc
    ⟨.enter (aliceClaim "a") (sampleAmbient 0) [] (le_refl (0 : Time)) rfl, trivial⟩
  have hholds := henter.snoc ⟨.read rfl rfl, trivial⟩
  have hready := (hholds.snoc ⟨.read rfl rfl, trivial⟩).to
    (rfl : _ = (⟨boardAt [] 0, some (readyClaim (aliceClaim "a") (sampleAmbient 0)), []⟩ : Serving))
  have hcredit := hready.snoc ⟨.world (.other (.sponsor [⟨1, 1, 1, .paid, some 1, some 1, none⟩] [])
    (.inl rfl)) (fun _ _ _ => Act.noConfusion) (fun _ => .inr ⟨rfl, rfl⟩), trivial⟩
  refine ⟨_, _, _, _, hcredit.snoc ⟨.answer rfl rfl, trivial⟩, ?_, ?_⟩
  · decide +kernel
  · decide +kernel

end Coordinator
end Hazync
