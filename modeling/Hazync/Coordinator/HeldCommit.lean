import Hazync.Coordinator.HoldsApart

/-!
# Held blocks and their keys (`_hold_refusal`, `_sponsor_mark_proven`)

A submit asks for the last time whether it takes a held block, and then commits. It has the lock of
the board in between, but the poller writes without that lock: a sponsorship that is credited then
is not looked at again. And a proof that a peer has is adopted without asking. Where neither
happens, what is held is proven by its sponsor's key, and a hold ends with the step that covers the
last block of its span.

## What the last check is worth

`Cleared` is what a submit knows after its last check: for every held block that its range newly
covers, its key is registered. It holds until the commit unless a hold starts in between, which only
a poll can do, or a block is covered by somebody else, which only takes away from what it asks. A
poll takes no lock of the board, and so there is a condition on it (`HeldOk`): while a submit
commits, it credits no sponsorship with an open block of the submit's range.

The other condition is on adoptions: none covers an open block that is held. The code does not ask
(`held_block_adopted`).
-/

namespace Hazync
namespace Coordinator

open KeyedTable

variable {scfg : SponsorConfig} {cfg : Config} {out : Outside} {d d' : Desk} {a : DeskAct}
  {x x' : SponsorRow} {sub : Submission} {m : VRange} {n : ℕ}

/-! ## What is covered -/

/-- The range that a step puts on record. -/
def DeskAct.recorded : DeskAct → Option VRange
  | .board e => e.recorded.map Prod.snd
  | .commit _ m => some m
  | _ => none

theorem covered_replace {db db' : Db} {v : VRow} (hvranges : db'.vranges = replace VRow.id v db.vranges)
    (hn : db'.covered n) : db.covered n ∨ v.lo ≤ n ∧ n ≤ v.hi := by
  obtain ⟨w, hw, hspan⟩ := hn
  rw [hvranges] at hw
  obtain rfl | ⟨hw, -⟩ := mem_replace.mp hw
  · exact .inr hspan
  · exact .inl ⟨w, hw, hspan⟩

/-- **A step covers the blocks of the range that it puts on record, and no others.** -/
theorem DeskStep.covered (h : DeskStep scfg cfg out d a d') (hn : d'.db.covered n) :
    d.db.covered n ∨ ∃ m, a.recorded = some m ∧ m.lo ≤ n ∧ n ≤ m.hi := by
  cases h with
  | @board e s' h hcommit hdesk hlock =>
    have hn' : s'.db.covered n := hn
    obtain ⟨-, hvranges, -⟩ | ⟨v, hv, hvranges, -⟩ := h.vranges_cases
    · obtain ⟨w, hw, hspan⟩ := hn'
      rw [hvranges] at hw
      exact .inl ⟨w, hw, hspan⟩
    · refine (covered_replace hvranges hn').imp id fun hspan => ⟨v.toVRange, ?_, hspan⟩
      rw [DeskAct.recorded, hv, Option.map_some]
  | @commit sub m h now =>
    have hn' : (acceptSubmit d.db sub m now).covered n := hn
    exact (covered_replace rfl hn').imp id fun hspan => ⟨m, rfl, hspan⟩
  | ask htodo answer =>
    rw [ask_frame] at hn
    exact .inl hn
  | _ => exact .inl hn

/-! ## What the steps leave -/

/-- While a poll has no open block of the submit's range to credit, and the board puts no open block
    that is held on record. -/
def HeldOk (d : Desk) : DeskAct → Prop
  | .board e => ∀ rid m, e.recorded = some (rid, m) → ∀ x ∈ d.rows, x.holds = true →
      ∀ n, x.lo ≤ n → n ≤ x.hi → m.lo ≤ n → n ≤ m.hi → d.db.covered n
  | .ask r (some ans) => ans.marked = false → r.credited ans → ∀ sub m, d.committing = some (sub, m) →
      ∀ n, r.lo ≤ n → n ≤ r.hi → m.lo ≤ n → n ≤ m.hi → d.db.covered n
  | _ => True

/-- The submit that commits may prove the held blocks that its range newly covers. -/
def Cleared (d : Desk) : Prop :=
  ∀ sub m, d.committing = some (sub, m) → ∀ x ∈ d.rows, x.holds = true →
    ∀ n, x.lo ≤ n → n ≤ x.hi → m.lo ≤ n → n ≤ m.hi → ¬ d.db.covered n →
      (sub.pubkey.toLower, some x.id) ∈ d.keys

/-- No sponsorship whose span is covered holds its blocks. -/
def HoldsOpen (d : Desk) : Prop := ∀ x ∈ d.rows, x.holds = true → ¬ d.spanCovered x

/-- A row that holds its blocks after a step held them before it, or is credited by a poll. -/
theorem RowsMoved.holds {keep : SponsorRow → Bool} {f : SponsorRow → SponsorRow}
    {new : List SponsorRow} (hmoved : RowsMoved scfg d a d' keep f new) (hd : Kept d)
    (hx : x' ∈ d'.rows) (hholds : x'.holds = true) :
    ∃ x ∈ d.rows, x'.id = x.id ∧ x'.lo = x.lo ∧ x'.hi = x.hi ∧
      (x.holds = true ∨ ∃ ans, a = .ask x (some ans) ∧ ans.marked = false ∧ x.credited ans ∧
        ¬ d'.spanCovered x) := by
  obtain ⟨x, hold, -, rfl⟩ | hx := hmoved.mem hx
  · have hmove := hmoved.moves x hold
    obtain ⟨hid, hlo, hhi, -⟩ := hmove.span
    exact ⟨x, hold, hid, hlo, hhi, hmove.holds (hd.spans x hold) hholds⟩
  · obtain ⟨rfl, -⟩ | ⟨lo, hi, minSats, -, rfl, -⟩ := hmoved.new
    · cases hx
    · rw [List.mem_singleton.mp hx] at hholds
      obtain h | h := holds_status hholds <;> cases h

/-- What the last check of a submit found is so until the submit commits, as long as keys stay
    registered and nothing new is held. -/
theorem Cleared.kept (hc : Cleared d) (hd : Kept d) (h : DeskStep scfg cfg out d a d')
    (hok : HeldOk d a) (hcommitting : d'.committing = d.committing)
    (hcovered : ∀ n, d.committing ≠ none → d.db.covered n → d'.db.covered n)
    (hkeys : ∀ k ∈ d.keys, k ∈ d'.keys) : Cleared d' := by
  obtain ⟨keep, f, new, hmoved⟩ := h.rows hd
  intro sub m hsub x' hx' hholds n hlo hhi hmlo hmhi hopen
  rw [hcommitting] at hsub
  have hopen' : ¬ d.db.covered n := fun hn => hopen (hcovered n (hsub ▸ Option.some_ne_none _) hn)
  obtain ⟨x, hx, hid, hxlo, hxhi, hold | ⟨ans, rfl, hmarked, hcredited, -⟩⟩ := hmoved.holds hd hx' hholds
  · rw [hid]
    exact hkeys _ (hc sub m hsub x hx hold n (hxlo ▸ hlo) (hxhi ▸ hhi) hmlo hmhi hopen')
  · exact absurd (hok hmarked hcredited sub m hsub n (hxlo ▸ hlo) (hxhi ▸ hhi) hmlo hmhi) hopen'

/-- The range of a proof is in the row that it is for. -/
theorem verifyReceipt_within {host : Option VRange} {lo hi : ℕ}
    (h : verifyReceipt host lo hi = some m) : lo ≤ m.lo ∧ m.hi ≤ hi := by
  obtain ⟨-, ⟨hlo, hm, hhi⟩ | ⟨hlo, hhi⟩⟩ := verifyReceipt_eq_some.mp h
  · omega
  · omega

/-- **A step keeps what the last check of a submit found.** -/
theorem Cleared.step (hc : Cleared d) (hd : Kept d) (h : DeskStep scfg cfg out d a d')
    (hok : HeldOk d a) : Cleared d' := by
  have hkept := hc.kept hd h hok
  cases h with
  | @board e s' h hcommit hdesk hlock =>
    refine hkept rfl (fun n hcommitting hn => ?_) fun _ => id
    obtain hnone | hdb := hlock
    · exact absurd hnone hcommitting
    · obtain ⟨w, hw, hspan⟩ := hn
      exact ⟨w, (congrArg Db.vranges hdb ▸ hw : w ∈ s'.db.vranges), hspan⟩
  | @recheck sub r host m hlock hsub hrow hcleared hhost hm hfree =>
    intro sub' m' hsub' x hx hholds n hlo hhi hmlo hmhi hopen
    cases hsub'
    obtain ⟨hrlo, hrhi⟩ := verifyReceipt_within hm
    by_contra hkey
    refine hfree.2 ⟨x.toSponsorship, List.mem_map_of_mem hx, hholds, ⟨n, ?_, hopen⟩, hkey⟩
    exact List.mem_range'_1.mpr ⟨by omega, by omega⟩
  | commit | fault => exact fun sub m h => by cases h
  | ask htodo answer =>
    refine hkept (by rw [ask_frame]) (fun n _ hn => ?_) (by rw [ask_frame]; exact fun _ => id)
    rw [ask_frame]
    exact hn
  | insertKey => exact hkept rfl (fun n _ hn => hn) fun k hk => List.mem_append_left _ hk
  | _ => exact hkept rfl (fun n _ hn => hn) fun _ => id

theorem newly_covered (hx : ¬ d.spanCovered x) (hcovered : d'.spanCovered x) :
    ∃ n, x.lo ≤ n ∧ n ≤ x.hi ∧ ¬ d.db.covered n ∧ d'.db.covered n := by
  rw [spanCovered_iff] at hx hcovered
  simp only [not_forall] at hx
  obtain ⟨n, hlo, hhi, hn⟩ := hx
  exact ⟨n, hlo, hhi, hn, hcovered n hlo hhi⟩

/-- A step other than a commit covers no open block that is held. -/
theorem DeskStep.held_stays (h : DeskStep scfg cfg out d a d') (hok : HeldOk d a)
    (ha : ∀ sub m, a ≠ .commit sub m) (hx : x ∈ d.rows) (hholds : x.holds = true) (hlo : x.lo ≤ n)
    (hhi : n ≤ x.hi) (hn : d'.db.covered n) : d.db.covered n := by
  obtain hn | ⟨m, hm, hmlo, hmhi⟩ := h.covered hn
  · exact hn
  · cases a with
    | board e =>
      rw [DeskAct.recorded, Option.map_eq_some_iff] at hm
      obtain ⟨⟨rid, m'⟩, hrecorded, rfl⟩ := hm
      exact hok rid m' hrecorded x hx hholds n hlo hhi hmlo hmhi
    | commit sub m' => exact absurd rfl (ha sub m')
    | _ => cases hm

/-- **A step ends the holds whose spans it covers.** A commit marks them proven in the same
    transaction; a poll that would credit a covered span does not make it a hold. -/
theorem HoldsOpen.step (ho : HoldsOpen d) (hd : Kept d) (h : DeskStep scfg cfg out d a d')
    (hok : HeldOk d a) : HoldsOpen d' := by
  by_cases ha : ∃ sub m, a = .commit sub m
  · obtain ⟨sub, m, rfl⟩ := ha
    intro x' hx' hholds hcovered
    have hnew {n : ℕ} := h.covered (n := n)
    cases h with
    | commit h now =>
      obtain ⟨x, hx, rfl⟩ := List.mem_map.mp hx'
      obtain ⟨heq, hno⟩ | ⟨-, -, -, heq⟩ := mark_cases _ m.lo m.hi now x
      · rw [heq] at hholds hcovered
        obtain ⟨n, hlo, hhi, hopen, hn⟩ := newly_covered (ho x hx hholds) hcovered
        obtain hn | ⟨m', hm', hmlo, hmhi⟩ := hnew hn
        · exact hopen hn
        · cases hm'
          exact hno ⟨hholds, ⟨hlo.trans hmhi, hmlo.trans hhi⟩, hcovered⟩
      · rw [heq] at hholds
        exact proved_holds hholds
  · obtain ⟨keep, f, new, hmoved⟩ := h.rows hd
    intro x' hx' hholds hcovered
    obtain ⟨x, hx, -, hlo, hhi, hold | ⟨ans, -, -, -, hopen⟩⟩ := hmoved.holds hd hx' hholds
    · have hcovered' : d'.spanCovered x := spanCovered_of rfl hlo hhi hcovered
      obtain ⟨n, hlo, hhi, hopen, hn⟩ := newly_covered (ho x hx hold) hcovered'
      exact hopen (h.held_stays hok (fun sub m h => ha ⟨sub, m, h⟩) hx hold hlo hhi hn)
    · exact hopen (spanCovered_of rfl hlo hhi hcovered)

/-! ## Runs -/

/-- An open block that is held is covered only by a commit whose key is registered for the
    sponsorship. -/
def ByItsKey (t : Desk × DeskAct × Desk) : Prop :=
  ∀ x ∈ t.1.rows, x.holds = true → ∀ n, x.lo ≤ n → n ≤ x.hi → ¬ t.1.db.covered n →
    t.2.2.db.covered n → ∃ sub m, t.2.1 = .commit sub m ∧ (sub.pubkey.toLower, some x.id) ∈ t.1.keys

theorem Cleared.by_its_key (hc : Cleared d) (h : DeskStep scfg cfg out d a d') (hok : HeldOk d a) :
    ByItsKey (d, a, d') := by
  intro x hx hholds n hlo hhi hopen hn
  obtain hn | ⟨m', hm', hmlo, hmhi⟩ := h.covered hn
  · exact absurd hn hopen
  · by_cases ha : ∃ sub m, a = .commit sub m
    · obtain ⟨sub, m, rfl⟩ := ha
      cases hm'
      cases h with
      | commit h now => exact ⟨sub, m', rfl, hc sub m' h x hx hholds n hlo hhi hmlo hmhi hopen⟩
    · exact absurd (h.held_stays hok (fun sub m h => ha ⟨sub, m, h⟩) hx hholds hlo hhi hn) hopen

/-- A sponsorship becomes proven where its span is covered, and not before. -/
theorem DeskStep.proven_covered (h : DeskStep scfg cfg out d a d') (hd : Kept d) (hx : x ∈ d.rows)
    (hx' : x' ∈ d'.rows) (hid : x'.id = x.id) (hstatus : x.status ≠ .proven)
    (hstatus' : x'.status = .proven) : d'.spanCovered x := by
  obtain ⟨keep, f, new, hmoved⟩ := h.rows hd
  obtain ⟨y, hy, -, rfl⟩ | hx' := hmoved.mem hx'
  · have hmove := hmoved.moves y hy
    obtain rfl := hd.unique hy hx (hmove.span.1.symm.trans hid)
    generalize f y = y' at hmove hstatus'
    cases hmove with
    | same => exact absurd hstatus' hstatus
    | invoiced => cases hstatus'
    | proving => cases hstatus'
    | proved _ hcovered => exact hcovered
    | @asked ans =>
      rw [answered_status] at hstatus'
      obtain ⟨-, hv⟩ | ⟨-, hv | hv | ⟨-, hv⟩⟩ := verdict_cases scfg d.polledAt y ans
      · exact absurd (hv.symm.trans hstatus') (by decide)
      · exact absurd (hv.symm.trans hstatus') hstatus
      · exact absurd (hv.symm.trans hstatus') (by decide)
      · exact absurd (hv.symm.trans hstatus') (by decide)
    | credited _ _ _ _ hcovered => exact hcovered
  · obtain ⟨rfl, -⟩ | ⟨lo, hi, minSats, -, rfl, -⟩ := hmoved.new
    · cases hx'
    · rw [List.mem_singleton.mp hx'] at hstatus'
      cases hstatus'

/-- **Where no hold starts under a commit and nothing that is held is adopted, only its sponsor's
    key proves a held block**, and a sponsorship becomes proven when its span is covered. The
    statement is about every step of the run, and about the state it ends in. -/
theorem held_by_key {trace : List (Desk × DeskAct × Desk)}
    (h : DeskRun scfg cfg out HeldOk trace d) :
    (∀ t ∈ trace, ByItsKey t ∧ ∀ x ∈ t.1.rows, ∀ x' ∈ t.2.2.rows, x'.id = x.id →
      x.status ≠ .proven → x'.status = .proven → t.2.2.spanCovered x) ∧
    ∀ x ∈ d.rows, x.holds = true → ¬ d.spanCovered x := by
  have hempty (d : Desk) (hd : d.Empty) : Kept d ∧ Cleared d ∧ HoldsOpen d := by
    refine ⟨kept_empty hd, ?_, ?_⟩
    · obtain ⟨-, -, -, hcommitting, -⟩ := hd
      intro sub m hsub
      rw [hcommitting] at hsub
      cases hsub
    · obtain ⟨-, hrows, -⟩ := hd
      intro x hx
      rw [hrows] at hx
      cases hx
  have hstep (d : Desk) (a : DeskAct) (d' : Desk) (hd : Kept d ∧ Cleared d ∧ HoldsOpen d)
      (h : DeskStep scfg cfg out d a d' ∧ HeldOk d a) : Kept d' ∧ Cleared d' ∧ HoldsOpen d' :=
    ⟨hd.1.step h.1, hd.2.1.step hd.1 h.1 h.2, hd.2.2.step hd.1 h.1 h.2⟩
  refine ⟨fun ⟨v, a, v'⟩ ht => ?_, (h.invariant hempty hstep).2.2⟩
  obtain ⟨⟨hkept, hcleared, -⟩, hv, hok⟩ := h.forall_steps hempty hstep _ ht
  exact ⟨hcleared.by_its_key hv hok, fun x hx x' hx' hid => hv.proven_covered hkept hx hx' hid⟩

/-! ## A hold that starts under a commit -/

/-- A submit of block 1. -/
def submitOne (pubkey : String) (row : Option RangeRow) (cleared : Bool) : Submission :=
  ⟨"1", pubkey, "bob", sampleReceipt 1 1, row, cleared⟩

def rowOne : RangeRow := { id := "1", lo := 1, hi := 1 }

variable {ok : Desk → DeskAct → Prop} {trace : List (Desk × DeskAct × Desk)} {pubkey : String}

/-- Block 1 is submitted, and the submit passes its first check. -/
theorem submit_checked (d : Desk) (pubkey : String)
    (h : DeskRun sampleSponsors sampleConfig sampleOutside ok trace
      { d with ranges := [], submits := [], committing := none })
    (hok : ∀ d, ok d (.board .quiet)) (hfree : ¬ holdRefusal d.db 1 1 pubkey) :
    ∃ trace, DeskRun sampleSponsors sampleConfig sampleOutside ok trace
      { d with
        ranges := [rowOne], submits := [submitOne pubkey (some rowOne) true], committing := none } := by
  have hcheck := h.snoc ⟨.board
    (.check (show submitCheck _ 100 "1" from
      ⟨(1, 1), by decide, by decide, by decide, fun h => absurd h (by decide)⟩)
      (rfl : (submitOne pubkey none false).row = none) rfl)
    (fun _ _ _ => Event.noConfusion) ⟨rfl, rfl⟩ (.inl rfl), hok _⟩
  have hread := hcheck.snoc ⟨.board (.read (List.mem_singleton_self _) rfl
    (by decide : parseAnyRange 100 "1" = some (1, 1)) (rfl : _ = some rowOne) Status.noConfusion)
    (fun _ _ _ => Event.noConfusion) ⟨rfl, rfl⟩ (.inl rfl), hok _⟩
  have hclear := hread.snoc ⟨.board (.clear List.mem_cons_self rfl hfree)
    (fun _ _ _ => Event.noConfusion) ⟨rfl, rfl⟩ (.inl rfl), hok _⟩
  refine ⟨_, hclear.to ?_⟩
  simp [Desk.withState, Desk.state, Desk.db, submitOne, openRow, ignore, rowOne]

/-- The submit passes its last check. -/
theorem recheck_step (hfree : ¬ holdRefusal d.db 1 1 pubkey) :
    DeskStep sampleSponsors sampleConfig sampleOutside
      { d with
        ranges := [rowOne], submits := [submitOne pubkey (some rowOne) true], committing := none }
      (.recheck (submitOne pubkey (some rowOne) true) (sampleRange 1 1))
      { d with
        ranges := [rowOne]
        submits := [submitOne pubkey (some rowOne) true]
        committing := some (submitOne pubkey (some rowOne) true, sampleRange 1 1) } := by
  have hrow : ∀ r ∈ find RangeRow.id "1" [rowOne], r.status ≠ .verified := by decide
  have hm : verifyReceipt (some (sampleRange 1 1)) rowOne.lo rowOne.hi = some (sampleRange 1 1) := by
    decide
  refine .recheck rfl (List.mem_singleton_self _) rfl rfl (fun m hm => ?_) hm ⟨hrow, hfree⟩
  cases hm
  exact ⟨1, 1, rfl, rfl, rfl, by decide⟩

/-- Block 1 is proven with the key of its sponsor. -/
theorem held_by_key_own : ∃ trace d,
    DeskRun sampleSponsors sampleConfig sampleOutside HeldOk trace d ∧
      ∃ t ∈ trace, settledRow ∈ t.1.rows ∧ ¬ t.1.db.covered 1 ∧ t.2.2.db.covered 1 ∧ ByItsKey t := by
  have hothers (d : Desk) (a : DeskAct) (hask : ∀ r ans, a ≠ .ask r ans) (hboard : ∀ e, a ≠ .board e) :
      HeldOk d a := by
    cases a with
    | ask r answer => exact absurd rfl (hask r answer)
    | board e => exact absurd rfl (hboard e)
    | _ => exact trivial
  obtain ⟨_, hkeyed⟩ := keyed_run HeldOk hothers fun _ _ _ _ h => by cases h
  obtain ⟨_, hchecked⟩ := submit_checked { settledDesk with keys := [("k1", some 1)] } "k1" hkeyed
    (fun _ _ _ h => by cases h) (by rw [holdRefusal, toLower_k1]; decide)
  have hrecheck := hchecked.snoc
    ⟨recheck_step (by rw [holdRefusal, toLower_k1]; decide), trivial⟩
  have hcommit := hrecheck.snoc ⟨.commit rfl 0, trivial⟩
  refine ⟨_, _, hcommit, _, List.mem_append_right _ (List.mem_singleton_self _),
    List.mem_singleton_self _, by decide, ⟨_, List.mem_singleton_self _, le_refl 1, le_refl 1⟩, ?_⟩
  exact ((held_by_key hcommit).1 _ (List.mem_append_right _ (List.mem_singleton_self _))).1

/-- The poll credits block 1 after the last check of bob's submit and before its commit: his key proves
    it, and is not registered. -/
theorem credited_under_commit : ∃ trace d,
    DeskRun sampleSponsors sampleConfig sampleOutside (fun _ _ => True) trace d ∧
      ∃ t ∈ trace, ¬ ByItsKey t := by
  obtain ⟨_, hinvoiced⟩ := invoiced_run (fun _ _ => True) fun _ _ _ _ => trivial
  obtain ⟨_, hchecked⟩ := submit_checked (deskAt [invoicedRow] [] 0) "k" hinvoiced (fun _ => trivial)
    (by decide)
  have hread := hchecked.snoc ⟨.read (le_refl (0 : Time)) rfl, trivial⟩
  have hrecheck := (hread.to (by decide +kernel : _ = { readDesk with
    ranges := [rowOne], submits := [submitOne "k" (some rowOne) true], committing := none })).snoc
    ⟨recheck_step (by decide), trivial⟩
  have hask := (hrecheck.snoc ⟨.ask rfl (some settledAnswer), trivial⟩).to
    (by decide +kernel : _ = { settledDesk with
      ranges := [rowOne]
      submits := [submitOne "k" (some rowOne) true]
      committing := some (submitOne "k" (some rowOne) true, sampleRange 1 1) })
  have hcommit := hask.snoc ⟨.commit rfl 0, trivial⟩
  refine ⟨_, _, hcommit, _, List.mem_append_right _ (List.mem_singleton_self _), fun hkey => ?_⟩
  obtain ⟨sub, m, -, hmem⟩ := hkey settledRow (List.mem_singleton_self _) (by decide) 1 (le_refl 1)
    (le_refl 1) (by decide) ⟨_, List.mem_singleton_self _, le_refl 1, le_refl 1⟩
  cases hmem

/-- The entry of a peer that has block 1. -/
def entryOne : PeerEntry := ⟨some "1", ⟨"1", some 1⟩, ⟨"1", some 1⟩, false, "peer"⟩

/-- A peer's proof of block 1 is adopted while it is held. The whole span is covered then, and the
    sponsorship is not proven. -/
theorem held_block_adopted : ∃ trace d,
    DeskRun sampleSponsors sampleConfig sampleOutside (fun _ _ => True) trace d ∧
      (∃ t ∈ trace, ¬ ByItsKey t) ∧ settledRow ∈ d.rows ∧ settledRow.holds = true ∧
      d.spanCovered settledRow := by
  obtain ⟨_, hkeyed⟩ := keyed_run (fun _ _ => True) (fun _ _ _ _ => trivial) trivial
  have hfetched := hkeyed.snoc ⟨.board (.fetch [entryOne]) (fun _ _ _ => Event.noConfusion) ⟨rfl, rfl⟩
    (.inl rfl), trivial⟩
  have hproves : ∀ m ∈ some (sampleRange 1 1), sampleOutside.proves (sampleReceipt 1 1) m := by
    intro m hm
    cases hm
    exact ⟨1, 1, rfl, rfl, rfl, by decide⟩
  have hvisit : visitEntry (samplePass entryOne) entryOne 100 true (some (sampleRange 1 1)) =
      .adopt 1 1 (sampleRange 1 1) := by decide
  have hadopted := hfetched.snoc ⟨.board (.adopt (List.mem_singleton_self _) rfl
    (show 0 + 0 < 200 by decide) hproves hvisit 0) (fun _ _ _ => Event.noConfusion) ⟨rfl, rfl⟩
    (.inl rfl), trivial⟩
  have hcovered : ∃ v ∈ [entryOne.row (sampleRange 1 1) 0], v.lo ≤ 1 ∧ 1 ≤ v.hi := by decide
  refine ⟨_, _, hadopted, ⟨_, List.mem_append_right _ (List.mem_singleton_self _), fun hkey => ?_⟩,
    List.mem_singleton_self _, by decide, spanCovered_iff.mpr fun n hlo hhi => ?_⟩
  · obtain ⟨_, _, h, -⟩ := hkey settledRow (List.mem_singleton_self _) (by decide) 1 (le_refl 1)
      (le_refl 1) (by decide) hcovered
    cases h
  · obtain rfl : n = 1 := le_antisymm hhi hlo
    exact hcovered

end Coordinator
end Hazync
