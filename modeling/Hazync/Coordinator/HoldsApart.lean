import Hazync.Coordinator.ClaimCap
import Hazync.Coordinator.Payments

/-!
# Holds do not collide (`_sponsor_span`, `sponsor_payments_poll`)

A request looks for other holds of its span before it is given an invoice, and holds the lock of the
requests until then. A poll does not look: where it credits a sponsorship whose invoice has expired,
or pushes out a hold that has lapsed, the blocks may be another's by then. Then the two refuse each
other's keys.

## How a hold starts

Three things make a sponsorship hold its blocks: it is given an invoice, a payment of it is
credited, or the hold of an invoice is pushed out again. The first goes through `_sponsor_span`,
which looks for other holds. The other two are the poller's, and happen to a row that is there
already. As long as its invoice is open the row holds its blocks anyway, so crediting it takes no
block that was free. It is the late ones that can collide: the invoice has lapsed, somebody else has
been given one for the same block, and now the first payment comes in.

`NoCollision` is the condition, on the poll's step and on the rows before it. `RequestFree` is the
invariant of the request that is under way: what it has looked for is still so.
-/

namespace Hazync
namespace Coordinator

open KeyedTable

variable {scfg : SponsorConfig} {cfg : Config} {out : Outside} {d d' : Desk} {a : DeskAct}
  {x x' y r : SponsorRow} {ans : Answer} {now later : Time}

theorem Overlap.symm {lo hi lo' hi' : ℕ} (h : Overlap lo hi lo' hi') : Overlap lo' hi' lo hi :=
  ⟨h.2, h.1⟩

/-- The sponsorship holds its blocks: it is paid, or its invoice is open. -/
def Held (d : Desk) (x : SponsorRow) : Prop := x.holds = true ∨ x.pending d.clock = true

instance (d : Desk) (x : SponsorRow) : Decidable (Held d x) := inferInstanceAs (Decidable (_ ∨ _))

theorem pending_iff : x.pending now = true ↔ x.status = .invoiced ∧ after x.holdUntil now = true := by
  rw [Sponsorship.pending, decide_eq_true_iff]

theorem pending_mono (h : now ≤ later) (hx : x.pending later = true) : x.pending now = true := by
  rw [pending_iff] at hx ⊢
  exact ⟨hx.1, after_mono h hx.2⟩

/-- No two sponsorships that hold their blocks have one in common. -/
def Apart (d : Desk) : Prop :=
  ∀ x ∈ d.rows, ∀ y ∈ d.rows, x ≠ y → Held d x → Held d y → ¬ Overlap x.lo x.hi y.lo y.hi

/-- What a request under way has seen: no holds, and later no open invoices. -/
def RequestFree (d : Desk) : Prop :=
  ∀ q ∈ d.request, ∀ x ∈ d.rows, (if q.stage = .holdsRead then x.holds = true else Held d x) →
    ¬ Overlap x.lo x.hi q.lo q.hi

/-! ## When a hold starts -/

/-- The poll pushes out the hold of an invoice, beyond now. -/
def Rearms (scfg : SponsorConfig) (d : Desk) (r : SponsorRow) (ans : Answer) : Prop :=
  r.status = .invoiced ∧ ¬ r.credited ans ∧ (ans.confirming = true ∨ ans.status = .processing) ∧
    d.clock < max 0 (d.polledAt + scfg.confirmingHold)

/-- The poll starts a hold: it credits a sponsorship of which a block is open, or pushes out a hold
    that has lapsed. -/
def Starts (scfg : SponsorConfig) (d : Desk) (r : SponsorRow) (ans : Answer) : Prop :=
  r.credited ans ∧ ¬ d.spanCovered r ∨ Rearms scfg d r ans ∧ r.pending d.clock = false

/-- Where a poll starts a hold that is not open, no other holds a block of the span; and no request
    that has looked for such holds is under way for one. -/
def NoCollision (scfg : SponsorConfig) (d : Desk) : DeskAct → Prop
  | .ask r (some ans) => ans.marked = false → Starts scfg d r ans →
      (r.pending d.clock = false → ∀ x ∈ d.rows, x ≠ r → Held d x → ¬ Overlap x.lo x.hi r.lo r.hi) ∧
      ∀ q ∈ d.request, r.credited ans ∨ q.stage ≠ .holdsRead → ¬ Overlap r.lo r.hi q.lo q.hi
  | _ => True

/-- The step starts the hold of a row. -/
def Begins (scfg : SponsorConfig) (d : Desk) (a : DeskAct) (x : SponsorRow) : Prop :=
  (∃ invoice expires lo hi minSats, a = .invoice invoice expires ∧
    d.request = some ⟨lo, hi, minSats, .recorded x.id⟩) ∨
  ∃ ans, a = .ask x (some ans) ∧ ans.marked = false ∧ Starts scfg d x ans

/-- Until when a row holds its blocks, after a verdict: as before, or, where a payment is still
    confirming, pushed out from now. -/
theorem verdict_hold (scfg : SponsorConfig) (now : Time) (x : SponsorRow) (ans : Answer) :
    (verdict scfg now x ans).2 = x.holdUntil ∨
      (x.status = .invoiced ∧ ¬ x.credited ans ∧ (ans.confirming = true ∨ ans.status = .processing)) ∧
        (verdict scfg now x ans).2 = some (max (x.holdUntil.getD 0) (now + scfg.confirmingHold)) := by
  rw [verdict]
  split
  · exact .inl rfl
  · rename_i hcredited
    split
    · rename_i hconfirming
      by_cases hinvoiced : x.status = .invoiced
      · exact .inr ⟨⟨hinvoiced, hcredited, hconfirming⟩, if_pos hinvoiced⟩
      · exact .inl (if_neg hinvoiced)
    · split
      · exact .inl rfl
      · exact .inl rfl

/-- An answer leaves the hold of an invoice open if it was, or pushes it out. -/
theorem answered_pending (hx : Polled x)
    (h : (x.answered scfg d.polledAt ans).pending d.clock = true) :
    x.pending d.clock = true ∨ Rearms scfg d x ans := by
  obtain ⟨hstatus, hafter⟩ := pending_iff.mp h
  rw [answered_status] at hstatus
  obtain ⟨-, hv⟩ | ⟨-, hv | hv | ⟨-, hv⟩⟩ := verdict_cases scfg d.polledAt x ans
  · exact absurd (hv.symm.trans hstatus) (by decide)
  · have hinvoiced := hv.symm.trans hstatus
    have hpaid : (verdict scfg d.polledAt x ans).1 ≠ .paid := fun h => hx.ne_paid (hv.symm.trans h)
    rw [SponsorRow.answered, SponsorRow.answer, if_neg hpaid, if_neg (not_not.mpr hv)] at hafter
    dsimp only at hafter
    obtain hhold | ⟨⟨-, hcredited, hconfirming⟩, hhold⟩ := verdict_hold scfg d.polledAt x ans
    · rw [hhold] at hafter
      exact .inl (pending_iff.mpr ⟨hinvoiced, hafter⟩)
    · -- the hold is the later of what it was and of what the poll asks for
      rw [hhold, after, Option.any_some, decide_eq_true_iff] at hafter
      cases hold : x.holdUntil with
      | none =>
        rw [hold] at hafter
        exact .inr ⟨hinvoiced, hcredited, hconfirming, hafter⟩
      | some u =>
        rw [hold, Option.getD_some] at hafter
        obtain hlt | hlt := lt_max_iff.mp hafter
        · refine .inl (pending_iff.mpr ⟨hinvoiced, ?_⟩)
          rw [hold]
          exact decide_eq_true hlt
        · exact .inr ⟨hinvoiced, hcredited, hconfirming, lt_max_of_lt_right hlt⟩
  · exact absurd (hv.symm.trans hstatus) (by decide)
  · exact absurd (hv.symm.trans hstatus) (by decide)

/-- **How a row comes to hold its blocks.** It held them before, or the step is one of the two that
    start a hold. -/
theorem RowMove.held (h : RowMove scfg d a d' x x') (hle : x.lo ≤ x.hi)
    (hvranges : ∀ ans, a = .ask x (some ans) → d'.vranges = d.vranges) (hclock : d.clock ≤ d'.clock)
    (hheld : Held d' x') : Held d x ∨ Begins scfg d a x := by
  obtain hholds | hpending := hheld
  · obtain hholds | ⟨ans, hask, hmarked, hcredited, hopen⟩ := h.holds hle hholds
    · exact .inl (.inl hholds)
    · refine .inr (.inr ⟨ans, hask, hmarked, .inl ⟨hcredited, fun hcovered => hopen ?_⟩⟩)
      exact spanCovered_of (hvranges ans hask) rfl rfl hcovered
  · have hopen := pending_mono hclock hpending
    cases h with
    | same => exact .inl (.inr hopen)
    | invoiced _ ha hrequest => exact .inr (.inl ⟨_, _, _, _, _, ha, hrequest⟩)
    | proving => cases (pending_iff.mp hopen).1
    | proved => cases (pending_iff.mp hopen).1
    | @asked ans hask hmarked hwatched =>
      obtain h | h := answered_pending (watched_polled hwatched) hopen
      · exact .inl (.inr h)
      · cases hlapsed : x.pending d.clock with
        | true => exact .inl (.inr hlapsed)
        | false => exact .inr (.inr ⟨ans, hask, hmarked, .inr ⟨h, hlapsed⟩⟩)
    | credited => cases (pending_iff.mp hopen).1

/-! ## Steps -/

theorem DeskStep.clock_le (h : DeskStep scfg cfg out d a d') : d.clock ≤ d'.clock := by
  cases h with
  | tick h => exact h
  | ask htodo answer =>
    rw [ask_frame]
  | _ => exact le_refl d.clock

theorem DeskStep.ask_vranges {answer : Option Answer}
    (h : DeskStep scfg cfg out d (.ask r answer) d') : d'.vranges = d.vranges := by
  cases h with
  | ask => rw [ask_frame]

/-- A row that holds its blocks after a step was there, and held them or is the one whose hold the
    step starts. -/
theorem RowsMoved.held {keep : SponsorRow → Bool} {f : SponsorRow → SponsorRow}
    {new : List SponsorRow} (hmoved : RowsMoved scfg d a d' keep f new) (hd : Kept d)
    (h : DeskStep scfg cfg out d a d') (hx : x' ∈ d'.rows) (hheld : Held d' x') :
    ∃ x ∈ d.rows, x' = f x ∧ x'.lo = x.lo ∧ x'.hi = x.hi ∧ (Held d x ∨ Begins scfg d a x) := by
  obtain ⟨x, hold, -, rfl⟩ | hx := hmoved.mem hx
  · have hmove := hmoved.moves x hold
    refine ⟨x, hold, rfl, hmove.span.2.1, hmove.span.2.2.1, ?_⟩
    exact hmove.held (hd.spans x hold) (fun ans ha => (ha ▸ h).ask_vranges) h.clock_le hheld
  · obtain ⟨rfl, -⟩ | ⟨lo, hi, minSats, -, rfl, -⟩ := hmoved.new
    · cases hx
    · rw [List.mem_singleton.mp hx] at hheld
      obtain hheld | hheld := hheld
      · obtain h | h := holds_status hheld <;> cases h
      · cases (pending_iff.mp hheld).1

/-- A hold starts where no other is: for an invoice the request has looked, and for a poll it is the
    condition. -/
theorem Begins.free (h : Begins scfg d a x) (hd : Kept d) (hapart : Apart d) (hfree : RequestFree d)
    (hno : NoCollision scfg d a) (hx : x ∈ d.rows) (hy : y ∈ d.rows) (hne : y ≠ x)
    (hheld : Held d y) : ¬ Overlap y.lo y.hi x.lo x.hi := by
  obtain ⟨_, _, lo, hi, minSats, -, hrequest⟩ | ⟨ans, rfl, hmarked, hstarts⟩ := h
  · rw [(hd.recorded lo hi minSats x.id hrequest).2 x hx rfl]
    exact hfree _ hrequest y hy hheld
  · cases hpending : x.pending d.clock with
    | true => exact hapart y hy x hx hne hheld (.inr hpending)
    | false => exact (hno hmarked hstarts).1 hpending y hy hne hheld

/-- One step starts one hold at most. -/
theorem Begins.unique (hx : Begins scfg d a x) (hy : Begins scfg d a y) : x.id = y.id := by
  obtain ⟨_, _, _, _, _, ha, hrequest⟩ | ⟨_, ha, -⟩ := hx
  · obtain ⟨_, _, _, _, _, -, hrequest'⟩ | ⟨_, ha', -⟩ := hy
    · rw [hrequest, Option.some.injEq, SpanRequest.mk.injEq, Stage.recorded.injEq] at hrequest'
      exact hrequest'.2.2.2
    · exact absurd (ha.symm.trans ha') DeskAct.noConfusion
  · obtain ⟨_, _, _, _, _, ha', -⟩ | ⟨_, ha', -⟩ := hy
    · exact absurd (ha.symm.trans ha') DeskAct.noConfusion
    · injection ha.symm.trans ha' with h
      exact congrArg (fun x => x.id) h

/-- **A step keeps the holds apart.** Two that hold a block after it held theirs before, or one of
    them has just started. -/
theorem Apart.step (hapart : Apart d) (hd : Kept d) (hfree : RequestFree d)
    (h : DeskStep scfg cfg out d a d') (hno : NoCollision scfg d a) : Apart d' := by
  obtain ⟨keep, f, new, hmoved⟩ := h.rows hd
  intro x' hx' y' hy' hne hxheld hyheld
  obtain ⟨x, hx, rfl, hxlo, hxhi, hxheld⟩ := hmoved.held hd h hx' hxheld
  obtain ⟨y, hy, rfl, hylo, hyhi, hyheld⟩ := hmoved.held hd h hy' hyheld
  have hxy : x ≠ y := fun h => hne (congrArg f h)
  rw [hxlo, hxhi, hylo, hyhi]
  obtain hxheld | hxbegins := hxheld
  · obtain hyheld | hybegins := hyheld
    · exact hapart x hx y hy hxy hxheld hyheld
    · exact hybegins.free hd hapart hfree hno hy hx hxy hxheld
  · obtain hyheld | hybegins := hyheld
    · exact fun hover => hxbegins.free hd hapart hfree hno hx hy hxy.symm hyheld hover.symm
    · exact absurd (hd.unique hx hy (hxbegins.unique hybegins)) hxy

/-- What a request has seen is still so after a step of another. -/
theorem RequestFree.kept (hfree : RequestFree d) (hd : Kept d) (h : DeskStep scfg cfg out d a d')
    (hno : NoCollision scfg d a) (hrequest : d'.request = d.request)
    (ha : ∀ invoice expires, a ≠ .invoice invoice expires) : RequestFree d' := by
  obtain ⟨keep, f, new, hmoved⟩ := h.rows hd
  intro q hq x' hx' hheld
  rw [hrequest] at hq
  have hheld' : Held d' x' := by
    split at hheld
    · exact .inl hheld
    · exact hheld
  obtain ⟨x, hx, rfl, hlo, hhi, hold⟩ := hmoved.held hd h hx' hheld'
  rw [hlo, hhi]
  by_cases hstage : q.stage = .holdsRead
  · rw [if_pos hstage] at hheld
    obtain hholds | ⟨ans, rfl, hmarked, hcredited, hopen⟩ :=
      (hmoved.moves x hx).holds (hd.spans x hx) hheld
    · exact hfree q hq x hx (by rwa [if_pos hstage])
    · refine (hno hmarked (.inl ⟨hcredited, fun hcovered => hopen ?_⟩)).2 q hq (.inl hcredited)
      exact spanCovered_of h.ask_vranges rfl rfl hcovered
  · obtain hold | ⟨_, _, _, _, _, hi, -⟩ | ⟨ans, rfl, hmarked, hstarts⟩ := hold
    · exact hfree q hq x hx (by rwa [if_neg hstage])
    · exact absurd hi (ha _ _)
    · exact (hno hmarked hstarts).2 q hq (.inr hstage)

/-- **A step keeps what a request has seen.** The request goes from stage to stage by its own steps;
    others only add what the condition excludes. -/
theorem RequestFree.step (hfree : RequestFree d) (hd : Kept d) (h : DeskStep scfg cfg out d a d')
    (hno : NoCollision scfg d a) : RequestFree d' := by
  have hkept := hfree.kept hd h hno
  cases h with
  | @span lo hi minSats now _ _ _ _ _ hspan =>
    intro q hq x hx hholds
    cases hq
    exact fun hover => hspan (.inr (.inr ⟨x, hx, hholds, hover⟩))
  | @pending lo hi minSats now hnow hrequest hpending =>
    intro q hq x hx hheld
    cases hq
    obtain hholds | hopen := hheld
    · exact hfree _ hrequest x hx hholds
    · exact hpending x hx (pending_mono hnow hopen)
  | @record lo hi minSats now _ hrequest =>
    intro q hq x hx hheld
    cases hq
    obtain hx | hx := List.mem_append.mp hx
    · exact hfree _ hrequest x hx hheld
    · rw [List.mem_singleton.mp hx] at hheld
      obtain hheld | hheld := hheld
      · obtain h | h := holds_status hheld <;> cases h
      · cases (pending_iff.mp hheld).1
  | invoice | withdraw | fault => exact fun q hq => by cases hq
  | ask htodo answer => exact hkept (by rw [ask_frame]) fun _ _ => DeskAct.noConfusion
  | _ => exact hkept rfl fun _ _ => DeskAct.noConfusion

/-! ## Runs -/

/-- A sponsorship that holds a block is the only one, so that its key may prove it. -/
theorem Apart.accepted (hapart : Apart d) (hx : x ∈ d.rows) (hheld : Held d x) {n : ℕ}
    (hlo : x.lo ≤ n) (hhi : n ≤ x.hi) {pubkey : String}
    (hkey : x.holds = true → (pubkey.toLower, some x.id) ∈ d.keys) : ¬ holdRefusal d.db n n pubkey := by
  rintro ⟨sp, hsp, hholds, ⟨m, hm, -⟩, hnokey⟩
  obtain ⟨y, hy, rfl⟩ := List.mem_map.mp hsp
  obtain ⟨hmlo, hmhi⟩ := List.mem_range'_1.mp hm
  obtain rfl | hne := eq_or_ne y x
  · exact hnokey (hkey hholds)
  · refine hapart y hy x hx hne (.inl hholds) hheld ⟨?_, ?_⟩
    · omega
    · omega

/-- **Where no poll starts a hold over another, holds do not collide**, and every block that is held
    may be proven by the sponsorship's key. So no two sponsors can each refuse the other's key. -/
theorem holds_apart {trace : List (Desk × DeskAct × Desk)}
    (h : DeskRun scfg cfg out (NoCollision scfg) trace d) : Apart d ∧
      ∀ x ∈ d.rows, Held d x → ∀ n, x.lo ≤ n → n ≤ x.hi → ∀ pubkey,
        (x.holds = true → (pubkey.toLower, some x.id) ∈ d.keys) → ¬ holdRefusal d.db n n pubkey := by
  have hinv : Apart d ∧ RequestFree d := by
    induction h with
    | nil h =>
      obtain ⟨-, hrows, -, -, -, hrequest, -⟩ := h
      refine ⟨fun x hx => ?_, fun q hq => ?_⟩
      · rw [hrows] at hx
        cases hx
      · rw [hrequest] at hq
        cases hq
    | snoc hrun hstep ih =>
      have hd := Kept.of_run hrun
      exact ⟨ih.1.step hd ih.2 hstep.1 hstep.2, ih.2.step hd hstep.1 hstep.2⟩
  exact ⟨hinv.1, fun x hx hheld n hlo hhi pubkey hkey => hinv.1.accepted hx hheld hlo hhi hkey⟩

/-! ## Two sponsors of one block -/

/-- The invoice has 1000 sats that settled. -/
def settledAnswer : Answer :=
  ⟨.settled, false, [⟨"a", "BTC-CHAIN", some (1 / 100000), .settled, none⟩]⟩

/-- Block 1 is sponsored. -/
def settledRow : SponsorRow :=
  { invoicedRow with
    status := .paid, paidSats := some 1000, paidAt := some 0, invoiceStatus := some .settled }

def settledDesk : Desk := deskAt [settledRow] [⟨1, "a", "BTC-CHAIN", 1000, .settled, none, 0⟩] 0

/-- A new key can be registered for a sponsorship that holds its blocks. -/
theorem register_key {ok : Desk → DeskAct → Prop} {trace : List (Desk × DeskAct × Desk)}
    (h : DeskRun scfg cfg out ok trace d)
    (hok : ∀ d a, (∀ r ans, a ≠ .ask r ans) → (∀ e, a ≠ .board e) → ok d a)
    (hx : x ∈ d.rows) (hholds : x.holds = true) (pubkey : String)
    (hnew : ∀ k ∈ d.keys, k.1 ≠ pubkey) :
    ∃ trace', DeskRun scfg cfg out ok trace' { d with keys := d.keys ++ [(pubkey, some x.id)] } := by
  have hcheck := h.snoc ⟨show DeskStep scfg cfg out d (.checkKey pubkey (some x.id)) _ from
    .checkKey (fun id hid => ⟨x, hx, Option.some.inj hid, hholds⟩) fun k hk hkey =>
      absurd hkey (hnew k hk), hok _ _ (fun _ _ => DeskAct.noConfusion) fun _ => DeskAct.noConfusion⟩
  have hinsert := hcheck.snoc ⟨show DeskStep scfg cfg out _ (.insertKey pubkey (some x.id)) _ from
    .insertKey List.mem_cons_self hnew,
    hok _ _ (fun _ _ => DeskAct.noConfusion) fun _ => DeskAct.noConfusion⟩
  exact ⟨_, hinsert.to (by rw [List.erase_cons_head])⟩

/-- The poll has read the invoice of block 1. -/
def readDesk : Desk := { deskAt [invoicedRow] [] 0 with todo := [invoicedRow] }

/-- The sponsor of block 1 pays, and a key is registered. -/
theorem keyed_run (ok : Desk → DeskAct → Prop)
    (hok : ∀ d a, (∀ r ans, a ≠ .ask r ans) → (∀ e, a ≠ .board e) → ok d a)
    (hask : ok readDesk (.ask invoicedRow (some settledAnswer))) : ∃ trace,
    DeskRun sampleSponsors sampleConfig sampleOutside ok trace
      { settledDesk with keys := [("k1", some 1)] } := by
  obtain ⟨trace, hrun⟩ := invoiced_run ok hok
  have hread := (hrun.snoc ⟨.read (le_refl (0 : Time)) rfl,
    hok _ _ (fun _ _ => DeskAct.noConfusion) fun _ => DeskAct.noConfusion⟩).to
    (by decide +kernel : _ = readDesk)
  have hpaid := (hread.snoc ⟨.ask rfl (some settledAnswer), hask⟩).to
    (by decide +kernel : _ = settledDesk)
  exact register_key hpaid hok (List.mem_singleton_self _) (by decide) "k1"
    fun k hk => absurd hk List.not_mem_nil

/-- A second sponsor, of block `n`, gets an invoice when the first one's has expired. -/
def secondRow (n : ℕ) : SponsorRow := (requestedRow 2 n n 1000).invoiced sampleSponsors "second" 3800

/-- The desk at 2000, before the late payment. -/
def bothInvoiced (n : ℕ) : Desk := deskAt [invoicedRow, secondRow n] [] 2000

def lateRow (r : SponsorRow) : SponsorRow :=
  { r with
    status := .paid, paidSats := some 1000, paidAt := some 2000, invoiceStatus := some .settled }

def latePayment (sid : ℕ) : PaymentRow := ⟨sid, "a", "BTC-CHAIN", 1000, .settled, none, 2000⟩

/-- The desk when the late payment is in, and when both have paid. -/
def latePaid (n : ℕ) : Desk :=
  { deskAt [lateRow invoicedRow, secondRow n] [latePayment 1] 2000 with
    polledAt := 2000, todo := [secondRow n] }

def bothPaid (n : ℕ) : Desk :=
  { deskAt [lateRow invoicedRow, lateRow (secondRow n)] [latePayment 1, latePayment 2] 2000 with
    polledAt := 2000 }

section

variable (ok : Desk → DeskAct → Prop)
  (hok : ∀ d a, (∀ r ans, a ≠ .ask r ans) → (∀ e, a ≠ .board e) → ok d a) {n : ℕ}
include hok

theorem bothInvoiced_run (hn : n = 1 ∨ n = 2) : ∃ trace,
    DeskRun sampleSponsors sampleConfig sampleOutside ok trace (bothInvoiced n) := by
  obtain ⟨trace, hrun⟩ := invoiced_run ok hok
  have hlater := hrun.snoc ⟨.tick (show (0 : Time) ≤ 2000 by decide),
    hok _ _ (fun _ _ => DeskAct.noConfusion) fun _ => DeskAct.noConfusion⟩
  have hfree : ¬ { deskAt [invoicedRow] [] 0 with clock := 2000 }.spanTaken sampleConfig n n 2000 := by
    rintro (⟨v, hv, -⟩ | ⟨r, hr, -⟩ | ⟨sp, hsp, hholds, -⟩)
    · cases hv
    · cases hr
    · rw [List.mem_singleton.mp hsp] at hholds
      exact absurd hholds (by decide)
  have hspan := hlater.snoc ⟨.span 1000 (le_refl (2000 : Time)) rfl
    (by obtain rfl | rfl := hn <;> decide) (le_refl n)
    (by obtain rfl | rfl := hn <;> decide) hfree,
    hok _ _ (fun _ _ => DeskAct.noConfusion) fun _ => DeskAct.noConfusion⟩
  have hpending := hspan.snoc ⟨.pending (le_refl (2000 : Time)) rfl
    (by obtain rfl | rfl := hn <;> decide +kernel),
    hok _ _ (fun _ _ => DeskAct.noConfusion) fun _ => DeskAct.noConfusion⟩
  have hrecord := hpending.snoc ⟨.record (le_refl (2000 : Time)) rfl
    (by obtain rfl | rfl := hn <;> decide +kernel),
    hok _ _ (fun _ _ => DeskAct.noConfusion) fun _ => DeskAct.noConfusion⟩
  have hinvoice := hrecord.snoc ⟨.invoice rfl "second" 3800,
    hok _ _ (fun _ _ => DeskAct.noConfusion) fun _ => DeskAct.noConfusion⟩
  exact ⟨_, hinvoice.to (by obtain rfl | rfl := hn <;> decide +kernel)⟩

/-- A poll gives both sponsors their credit. -/
theorem bothPaid_run (hn : n = 1 ∨ n = 2)
    (hlate : ok { bothInvoiced n with polledAt := 2000, todo := [invoicedRow, secondRow n] }
      (.ask invoicedRow (some settledAnswer)))
    (hsecond : ok (latePaid n) (.ask (secondRow n) (some settledAnswer))) : ∃ trace,
    DeskRun sampleSponsors sampleConfig sampleOutside ok trace (bothPaid n) := by
  obtain ⟨trace, hrun⟩ := bothInvoiced_run ok hok hn
  have hread := (hrun.snoc ⟨.read (le_refl (2000 : Time)) rfl,
    hok _ _ (fun _ _ => DeskAct.noConfusion) fun _ => DeskAct.noConfusion⟩).to
    (by obtain rfl | rfl := hn <;> decide +kernel :
      _ = { bothInvoiced n with polledAt := 2000, todo := [invoicedRow, secondRow n] })
  have hfirst := (hread.snoc ⟨.ask rfl (some settledAnswer), hlate⟩).to
    (by obtain rfl | rfl := hn <;> decide +kernel : _ = latePaid n)
  exact ⟨_, (hfirst.snoc ⟨.ask rfl (some settledAnswer), hsecond⟩).to
    (by obtain rfl | rfl := hn <;> decide +kernel)⟩

/-- And a key is registered for each. -/
theorem bothKeyed_run {trace : List (Desk × DeskAct × Desk)}
    (h : DeskRun sampleSponsors sampleConfig sampleOutside ok trace (bothPaid n)) : ∃ trace',
    DeskRun sampleSponsors sampleConfig sampleOutside ok trace'
      { bothPaid n with keys := [("k1", some 1), ("k2", some 2)] } := by
  obtain ⟨_, hkey⟩ := register_key h hok (show lateRow invoicedRow ∈ (bothPaid n).rows from
    List.mem_cons_self) (by decide) "k1" fun k hk => absurd hk List.not_mem_nil
  exact register_key hkey hok (show lateRow (secondRow n) ∈ (bothPaid n).rows from
    List.mem_cons_of_mem _ List.mem_cons_self) rfl "k2"
    (show ∀ k ∈ [("k1", some 1)], k.1 ≠ "k2" by decide)

end

theorem toLower_k1 : "k1".toLower = "k1" := by decide +kernel

theorem toLower_k2 : "k2".toLower = "k2" := by decide +kernel

/-- The late payment of block 1 starts a hold beside that of block 2, and each block may be proven
    with its sponsor's key and not with the other's. -/
theorem holds_apart_beside : ∃ trace d,
    DeskRun sampleSponsors sampleConfig sampleOutside (NoCollision sampleSponsors) trace d ∧
      d.rows = [lateRow invoicedRow, lateRow (secondRow 2)] ∧ Apart d ∧
      ¬ holdRefusal d.db 1 1 "k1" ∧ ¬ holdRefusal d.db 2 2 "k2" ∧
      holdRefusal d.db 1 1 "k2" ∧ holdRefusal d.db 2 2 "k1" := by
  have hothers (d : Desk) (a : DeskAct) (hask : ∀ r ans, a ≠ .ask r ans) (_ : ∀ e, a ≠ .board e) :
      NoCollision sampleSponsors d a := by
    cases a with
    | ask r answer => exact absurd rfl (hask r answer)
    | _ => exact trivial
  obtain ⟨_, hpaid⟩ := bothPaid_run (NoCollision sampleSponsors) hothers (.inr rfl)
    (fun _ _ => ⟨fun _ => by decide +kernel, fun q hq => by cases hq⟩)
    (fun _ _ => ⟨fun _ => by decide +kernel, fun q hq => by cases hq⟩)
  obtain ⟨trace, hrun⟩ := bothKeyed_run (NoCollision sampleSponsors) hothers hpaid
  obtain ⟨hapart, haccepted⟩ := holds_apart hrun
  refine ⟨trace, _, hrun, rfl, hapart, ?_, ?_, by decide +kernel, by decide +kernel⟩
  · exact haccepted (lateRow invoicedRow) List.mem_cons_self (.inl (by decide)) 1 (le_refl _)
      (le_refl _) "k1" fun _ => by rw [toLower_k1]; exact List.mem_cons_self
  · exact haccepted (lateRow (secondRow 2)) (List.mem_cons_of_mem _ List.mem_cons_self)
      (.inl (by decide)) 2 (le_refl _) (le_refl _) "k2" fun _ => by
        rw [toLower_k2]
        exact List.mem_cons_of_mem _ List.mem_cons_self

/-- The first sponsor pays late, the second in time. Both hold block 1, so that each sponsor's key is
    refused for the sake of the other. -/
theorem holds_collide : ∃ trace d,
    DeskRun sampleSponsors sampleConfig sampleOutside (fun _ _ => True) trace d ∧
      ¬ Apart d ∧ ¬ d.db.covered 1 ∧ d.keys = [("k1", some 1), ("k2", some 2)] ∧
      ∀ pubkey, holdRefusal d.db 1 1 pubkey := by
  obtain ⟨_, hrun⟩ := bothPaid_run (fun _ _ => True) (fun _ _ _ _ => trivial) (.inl rfl) trivial trivial
  have hfirst : lateRow invoicedRow ∈ (bothPaid 1).rows := List.mem_cons_self
  have hsecond : lateRow (secondRow 1) ∈ (bothPaid 1).rows := List.mem_cons_of_mem _ List.mem_cons_self
  obtain ⟨_, hkeys⟩ := bothKeyed_run (fun _ _ => True) (fun _ _ _ _ => trivial) hrun
  refine ⟨_, _, hkeys, fun hapart => ?_, by decide, rfl, fun pubkey => ?_⟩
  · exact hapart _ hfirst _ hsecond (by decide) (.inl (by decide)) (.inl (by decide)) (by decide)
  · by_cases hpubkey : pubkey.toLower = "k1"
    · refine ⟨_, List.mem_map_of_mem hsecond, by decide, ⟨1, by decide, by decide⟩, ?_⟩
      rw [hpubkey]
      decide
    · refine ⟨_, List.mem_map_of_mem hfirst, by decide, ⟨1, by decide, by decide⟩, fun hmem => ?_⟩
      obtain h | h := List.mem_cons.mp hmem
      · exact hpubkey (congrArg Prod.fst h)
      · cases congrArg Prod.snd (List.mem_singleton.mp h)

end Coordinator
end Hazync
