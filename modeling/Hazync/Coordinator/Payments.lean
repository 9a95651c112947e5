import Hazync.Coordinator.Offer
import Hazync.Coordinator.SponsorSteps

/-!
# Payments are credited (`sponsor_payments_poll`)

Only a poll makes a sponsorship paid, and it does so when what it sees settled covers the minimum.
Each answer that is not marked leaves the books as it says: its payments on record, and the row with
the sum of what settled. So the same answer, told again, changes nothing but when the payments were
seen last and, while a payment is confirming, until when the blocks are held. Once a sponsorship is
paid it is not asked about again.

## How an answer is taken in

A poll asks BTCPay about one invoice at a time. The answer has the status of the invoice and the
payments to it, each with its own status. Three things are written: the payments, by their ids, so
that the same payment told twice is one row; the sum of those that have settled, set and not added
to; and the status, which is `paid` as soon as the sum covers the minimum. Setting the sum is what
makes the repetition harmless: the row is a function of the last answer, and not of how often it
came (`Told`).

From this the two halves of the result follow. A row is funded exactly when some poll has credited
it (`funded_iff`): no other step writes `paid`, and nothing takes it back. And an answer that has
been told leaves the same books when it is told again (`SameBooks`): no payment comes in twice and
no status moves.

## What is not credited

A row that is paid leaves the list of those polls ask about. So a payment that settles after that is
on record as it was seen last, and not in the sum (`late_payment_lost`), although BTCPay goes on
watching the invoice.
-/

namespace Hazync
namespace Coordinator

open KeyedTable

variable {scfg : SponsorConfig} {cfg : Config} {out : Outside} {d d' : Desk} {a : DeskAct}
  {x x' r : SponsorRow} {ans : Answer} {now : Time} {t : List PaymentRow} {sid : ℕ}

/-! ## The payments on record -/

/-- The payment is on record as it was reported. -/
def OnRecord (t : List PaymentRow) (sid : ℕ) (p : Payment) : Prop :=
  ∃ row, find PaymentRow.key (sid, p.id) t = some row ∧ row.sats = sats p.value ∧
    row.status = p.status

theorem recordPayments_cons (sid : ℕ) (now : Time) (t : List PaymentRow) (p : Payment)
    (ps : List Payment) : recordPayments sid now t (p :: ps) =
      recordPayments sid now (recordPayments sid now t [p]) ps := rfl

/-- What is found after one payment is recorded. -/
theorem find_recordPayments_one (k : ℕ × String) (sid : ℕ) (now : Time) (t : List PaymentRow)
    (p : Payment) : find PaymentRow.key k (recordPayments sid now t [p]) =
      if k = (sid, p.id) then
        some ((find PaymentRow.key k t).elim (p.row sid now)
          fun x => { x with sats := sats p.value, status := p.status, seenAt := now })
      else find PaymentRow.key k t := by
  rw [recordPayments, List.foldl_cons, List.foldl_nil, find_upsert]
  · rfl
  · exact fun _ => rfl

theorem onRecord_one (sid : ℕ) (now : Time) (t : List PaymentRow) (p : Payment) :
    OnRecord (recordPayments sid now t [p]) sid p := by
  rw [OnRecord, find_recordPayments_one, if_pos rfl]
  refine ⟨_, rfl, ?_⟩
  cases find PaymentRow.key (sid, p.id) t with
  | none => exact ⟨rfl, rfl⟩
  | some row => exact ⟨rfl, rfl⟩

/-- A payment of another key is as it was. -/
theorem find_recordPayments_other {k : ℕ × String} {ps : List Payment}
    (hk : ∀ p ∈ ps, k ≠ (sid, p.id)) :
    find PaymentRow.key k (recordPayments sid now t ps) = find PaymentRow.key k t := by
  induction ps generalizing t with
  | nil => rfl
  | cons p ps ih =>
    rw [recordPayments_cons, ih fun q hq => hk q (List.mem_cons_of_mem _ hq),
      find_recordPayments_one, if_neg (hk p List.mem_cons_self)]

/-- Payments whose ids differ are on record when they are recorded. -/
theorem onRecord_recordPayments {ps : List Payment} (hids : (ps.map Payment.id).Nodup) :
    ∀ p ∈ ps, OnRecord (recordPayments sid now t ps) sid p := by
  induction ps generalizing t with
  | nil => exact fun p hp => absurd hp List.not_mem_nil
  | cons q ps ih =>
    rw [List.map_cons, List.nodup_cons] at hids
    intro p hp
    rw [recordPayments_cons]
    obtain rfl | hp := List.mem_cons.mp hp
    · rw [OnRecord, find_recordPayments_other]
      · exact onRecord_one sid now t p
      · intro q hq heq
        rw [(Prod.mk.inj heq).2] at hids
        exact hids.1 (List.mem_map_of_mem hq)
    · exact ih hids.2 p hp

/-- The row, but for when it was seen last. -/
def PaymentRow.unseen (p : PaymentRow) : PaymentRow := { p with seenAt := 0 }

/-- The same payments are on record, seen at whatever time. -/
def SamePayments (t t' : List PaymentRow) : Prop :=
  ∀ k, (find PaymentRow.key k t').map PaymentRow.unseen =
    (find PaymentRow.key k t).map PaymentRow.unseen

/-- What is on record stays so where only the time of the last sight changes. -/
theorem OnRecord.same {t' : List PaymentRow} {p : Payment} (h : SamePayments t t')
    (hp : OnRecord t sid p) : OnRecord t' sid p := by
  obtain ⟨row, hrow, hsats, hstatus⟩ := hp
  have hsame := h (sid, p.id)
  rw [hrow, Option.map_some, Option.map_eq_some_iff] at hsame
  obtain ⟨row', hrow', heq⟩ := hsame
  exact ⟨row', hrow', (congrArg PaymentRow.sats heq).trans hsats,
    (congrArg PaymentRow.status heq).trans hstatus⟩

/-- Payments that are on record are recorded again, and nothing but when they were seen is new. -/
theorem recordPayments_again {ps : List Payment} (h : ∀ p ∈ ps, OnRecord t sid p) :
    SamePayments t (recordPayments sid now t ps) := by
  induction ps generalizing t with
  | nil => exact fun _ => rfl
  | cons p ps ih =>
    have hone : SamePayments t (recordPayments sid now t [p]) := by
      intro k
      rw [find_recordPayments_one]
      split
      · rename_i hk
        subst hk
        obtain ⟨row, hrow, hsats, hstatus⟩ := h p List.mem_cons_self
        rw [hrow, ← hsats, ← hstatus]
        rfl
      · rfl
    rw [recordPayments_cons]
    intro k
    rw [ih (fun q hq => (h q (List.mem_cons_of_mem _ hq)).same hone) k, hone k]

/-! ## The row as an answer leaves it -/

/-- The sponsor's money has come. -/
def Funded (x : SponsorRow) : Prop :=
  x.status = .paid ∨ x.status = .proving ∨ x.status = .proven

/-- The documented moves of a sponsorship. -/
inductive Arrow : SponsorStatus → SponsorStatus → Prop
  | invoiced : Arrow .requested .invoiced
  | paid {s : SponsorStatus} (h : s = .invoiced ∨ s = .expired ∨ s = .underpaid) : Arrow s .paid
  | paidProven {s : SponsorStatus} (h : s = .invoiced ∨ s = .expired ∨ s = .underpaid) :
      Arrow s .proven
  | underpaid {s : SponsorStatus} (h : s = .invoiced ∨ s = .expired) : Arrow s .underpaid
  | expired : Arrow .invoiced .expired
  | proving : Arrow .paid .proving
  | proven {s : SponsorStatus} (h : s = .paid ∨ s = .proving) : Arrow s .proven

/-- The status of a row after an answer is the verdict on it. -/
theorem answered_status : (x.answered scfg now ans).status = (verdict scfg now x ans).1 := by
  rw [SponsorRow.answered, SponsorRow.answer]
  split
  · rename_i h
    exact h.symm
  · split
    · rfl
    · rename_i h
      exact (not_not.mp h).symm

/-- **What the verdict can be**: paid, where the sum covers the minimum; else what it was, or
    underpaid, or expired if it was an open invoice. -/
theorem verdict_cases (scfg : SponsorConfig) (now : Time) (x : SponsorRow) (ans : Answer) :
    x.credited ans ∧ (verdict scfg now x ans).1 = .paid ∨ ¬ x.credited ans ∧
      ((verdict scfg now x ans).1 = x.status ∨ (verdict scfg now x ans).1 = .underpaid ∨
        x.status = .invoiced ∧ (verdict scfg now x ans).1 = .expired) := by
  rw [verdict]
  split
  · rename_i h
    exact .inl ⟨h, rfl⟩
  · rename_i h
    refine .inr ⟨h, ?_⟩
    split
    · exact .inl rfl
    · split
      · dsimp only
        split
        · exact .inr (.inl rfl)
        · split
          · rename_i hinvoiced
            exact .inr (.inr ⟨hinvoiced, rfl⟩)
          · exact .inl rfl
      · exact .inl rfl

/-- An answer funds the row that it credits. -/
theorem funded_answered (scfg : SponsorConfig) (now : Time) (ans : Answer) (hx : Polled x) :
    Funded (x.answered scfg now ans) ↔ x.credited ans := by
  rw [Funded, answered_status]
  obtain ⟨hc, hv⟩ | ⟨hc, hv⟩ := verdict_cases scfg now x ans
  · rw [hv]
    exact ⟨fun _ => hc, fun _ => .inl rfl⟩
  · refine ⟨fun h => absurd h ?_, fun h => absurd h hc⟩
    obtain hv | hv | ⟨-, hv⟩ := hv
    · rw [hv]
      rintro (h | h | h)
      · exact not_polled h (by decide) hx
      · exact not_polled h (by decide) hx
      · exact not_polled h (by decide) hx
    · rw [hv]
      decide
    · rw [hv]
      decide

/-- A verdict that does not credit stands when it is asked for again, at any later time: `underpaid`
    and `expired` are not left but for `paid`. -/
theorem verdict_fixed {later : Time} (hmin : x'.minSats = x.minSats) (hc : ¬ x.credited ans)
    (hs : x'.status = (verdict scfg now x ans).1) : (verdict scfg later x' ans).1 = x'.status := by
  have hc' : ¬ x'.credited ans := by
    rw [SponsorRow.credited, hmin]
    exact hc
  rw [verdict, if_neg hc] at hs
  rw [verdict, if_neg hc']
  by_cases hconfirming : ans.confirming ∨ ans.status = .processing
  · rw [if_pos hconfirming]
  · rw [if_neg hconfirming] at hs ⊢
    by_cases hend : ans.status = .expired ∨ ans.status = .invalid ∨ ans.status = .settled
    · rw [if_pos hend] at hs ⊢
      dsimp only at hs ⊢
      by_cases hsome : 0 < ans.settled
      · rw [if_pos hsome] at hs ⊢
        exact hs.symm
      · rw [if_neg hsome] at hs ⊢
        by_cases hinvoiced : x.status = .invoiced
        · rw [if_pos hinvoiced] at hs
          rw [hs]
          rfl
        · rw [if_neg hinvoiced] at hs
          rw [if_neg (hs ▸ hinvoiced)]
    · rw [if_neg hend]

/-- The columns that an answer leaves. -/
theorem answered_columns (scfg : SponsorConfig) (now : Time) (ans : Answer) (hx : Polled x) :
    (x.answered scfg now ans).status ≠ .requested ∧ (x.answered scfg now ans).paidSats = ans.paid ∧
      (x.answered scfg now ans).invoiceStatus = some ans.status := by
  refine ⟨?_, ?_⟩
  · rw [answered_status]
    obtain ⟨-, hv⟩ | ⟨-, hv | hv | ⟨-, hv⟩⟩ := verdict_cases scfg now x ans
    · rw [hv]
      decide
    · rw [hv]
      exact hx.ne_requested
    · rw [hv]
      decide
    · rw [hv]
      decide
  · have hpaid := verdict_paid scfg now ans hx.ne_paid
    rw [SponsorRow.answered, SponsorRow.answer]
    split
    · rename_i h
      have hsettled : ans.settled ≠ 0 := (hpaid.mp h).2.ne'
      exact ⟨(if_neg hsettled).symm, rfl⟩
    · split
      · exact ⟨rfl, rfl⟩
      · exact ⟨rfl, rfl⟩

theorem Polled.not_funded (h : Polled x) : ¬ Funded x := by
  rintro (hx | hx | hx)
  · exact not_polled hx (by decide) h
  · exact not_polled hx (by decide) h
  · exact not_polled hx (by decide) h

/-! ## Steps -/

/-- A poll sees settled what covers the minimum, in the watch window of the sponsorship. -/
def Credits (sid : ℕ) (t : Desk × DeskAct × Desk) : Prop :=
  ∃ r ans, t.2.1 = .ask r (some ans) ∧ r.id = sid ∧ ans.marked = false ∧
    r.watched t.1.polledAt = true ∧ r.credited ans

/-- **A row comes to be funded by a poll that credits it, and by nothing else.** -/
theorem RowMove.funded (h : RowMove scfg d a d' x x') (hd : Kept d) (hx : x ∈ d.rows)
    (ha : ∀ r ans, a = .ask r (some ans) → r ∈ d.rows) :
    Funded x' ↔ Funded x ∨ Credits x.id (d, a, d') := by
  have hother (hno : ∀ ans, a = .ask x (some ans) → ans.marked = true) : ¬ Credits x.id (d, a, d') := by
    rintro ⟨r, ans, hr, hid, hmarked, -⟩
    obtain rfl := hd.unique (ha r ans hr) hx hid
    rw [hno ans hr] at hmarked
    cases hmarked
  cases h with
  | same hno => exact ⟨.inl, fun h => h.resolve_right (hother hno)⟩
  | invoiced hrequested hi =>
    refine ⟨fun h => ?_, fun h => ?_⟩
    · obtain h | h | h := h <;> cases h
    · obtain h | h := h
      · obtain h | h | h := h <;> exact absurd (hrequested.symm.trans h) (by decide)
      · rw [hi] at h
        obtain ⟨r, ans, hr, -⟩ := h
        cases hr
  | proving hpaid => exact ⟨fun _ => .inl (.inl hpaid), fun _ => .inr (.inl rfl)⟩
  | proved hholds =>
    refine ⟨fun _ => .inl ?_, fun _ => .inr (.inr rfl)⟩
    exact (holds_status hholds).imp_right .inl
  | @asked ans hask hmarked hwatched =>
    have hpolled := watched_polled hwatched
    rw [funded_answered scfg d.polledAt ans hpolled]
    refine ⟨fun h => .inr ⟨x, ans, hask, rfl, hmarked, hwatched, h⟩, fun h => ?_⟩
    obtain ⟨r, ans', hr, -, -, -, hc⟩ := h.resolve_left hpolled.not_funded
    rw [hask] at hr
    injection hr with hr hans
    rw [hr, Option.some.inj hans]
    exact hc
  | @credited ans hask hmarked hwatched hcredited =>
    exact ⟨fun _ => .inr ⟨x, ans, hask, rfl, hmarked, hwatched, hcredited⟩, fun _ => .inr (.inr rfl)⟩

theorem answered_holds (hx : Polled x) (h : (x.answered scfg now ans).holds = true) :
    x.credited ans := by
  have hfunded := (funded_answered scfg now ans hx).mp
  obtain h | h := holds_status h
  · exact hfunded (.inl h)
  · exact hfunded (.inr (.inl h))

theorem proved_holds : ¬ (x.proved now).holds = true := by
  intro h
  obtain h | h := holds_status h <;> cases h

/-- **A hold starts by a poll that credits a sponsorship, while a block of its span is open.** -/
theorem RowMove.holds (h : RowMove scfg d a d' x x') (hle : x.lo ≤ x.hi) (hholds : x'.holds = true) :
    x.holds = true ∨ ∃ ans, a = .ask x (some ans) ∧ ans.marked = false ∧ x.credited ans ∧
      ¬ d'.spanCovered x := by
  cases h with
  | same => exact .inl hholds
  | invoiced => obtain h | h := holds_status hholds <;> cases h
  | proving hpaid =>
    refine .inl ?_
    rw [Sponsorship.holds, decide_eq_true_iff] at hholds ⊢
    exact ⟨.inl hpaid, hholds.2⟩
  | proved => exact absurd hholds proved_holds
  | @asked ans hask hmarked hwatched hopen =>
    have hcredited := answered_holds (watched_polled hwatched) hholds
    exact .inr ⟨ans, hask, hmarked, hcredited, hopen hcredited hholds hle⟩
  | credited => exact absurd hholds proved_holds

/-- A row that moves takes one of the documented arrows. -/
theorem RowMove.arrow (h : RowMove scfg d a d' x x') :
    x'.status = x.status ∨ Arrow x.status x'.status := by
  cases h with
  | same => exact .inl rfl
  | invoiced h =>
    rw [h]
    exact .inr .invoiced
  | proving h =>
    rw [h]
    exact .inr .proving
  | proved h => exact .inr (.proven (holds_status h))
  | @asked ans hask hmarked hwatched =>
    have hpolled := watched_polled hwatched
    rw [answered_status]
    obtain ⟨-, hv⟩ | ⟨-, hv | hv | ⟨hinvoiced, hv⟩⟩ := verdict_cases scfg d.polledAt x ans
    · rw [hv]
      exact .inr (.paid hpolled)
    · exact .inl hv
    · rw [hv]
      obtain h | h | h := hpolled
      · exact .inr (.underpaid (.inl h))
      · exact .inr (.underpaid (.inr h))
      · exact .inl h.symm
    · rw [hv, hinvoiced]
      exact .inr .expired
  | credited hask hmarked hwatched => exact .inr (.paidProven (watched_polled hwatched))

/-- The books are as the answer says. A row that polls ask about is one that the answer leaves as it
    is. -/
structure Told (scfg : SponsorConfig) (d : Desk) (sid : ℕ) (ans : Answer) : Prop where
  row : ∃ x ∈ d.rows, x.id = sid ∧ x.status ≠ .requested ∧ x.paidSats = ans.paid ∧
    x.invoiceStatus = some ans.status ∧
    (Polled x → ¬ x.credited ans ∧ ∀ now, (verdict scfg now x ans).1 = x.status)
  payments : (ans.payments.map Payment.id).Nodup → ∀ p ∈ ans.payments, OnRecord d.payments sid p

/-- The row after a poll whose answer it has been told before: an invoice that is still confirming
    holds its blocks for another `confirmingHold` from now, and never for less than it did. Any
    other row is as it was. -/
def SponsorRow.rearmed (scfg : SponsorConfig) (now : Time) (ans : Answer) (x : SponsorRow) :
    SponsorRow :=
  if x.status = .invoiced ∧ (ans.confirming ∨ ans.status = .processing) then
    { x with holdUntil := some (max (x.holdUntil.getD 0) (now + scfg.confirmingHold)) }
  else x

/-- The same books after a poll that asked about one sponsorship: every row is as it was, but for
    the hold of that one where it is re-armed, and every payment is, but for when it was seen. -/
structure SameBooks (scfg : SponsorConfig) (d : Desk) (sid : ℕ) (ans : Answer) (d' : Desk) :
    Prop where
  rows : d'.rows = d.rows.map fun x => if x.id = sid then x.rearmed scfg d.polledAt ans else x
  payments : SamePayments d.payments d'.payments

/-- A poll that leaves the status as it is writes the hold, the sum and the answer's status; and the
    last two are there already. -/
theorem answered_of_same (hpolled : Polled x) (hc : ¬ x.credited ans)
    (hverdict : (verdict scfg now x ans).1 = x.status) (hpaid : x.paidSats = ans.paid)
    (hinvoice : x.invoiceStatus = some ans.status) :
    x.answered scfg now ans = x.rearmed scfg now ans := by
  have hstatus : (verdict scfg now x ans).1 ≠ .paid := fun h =>
    hpolled.ne_paid (hverdict.symm.trans h)
  have hhold : (verdict scfg now x ans).2 = (x.rearmed scfg now ans).holdUntil := by
    rw [verdict, if_neg hc]
    by_cases hconfirming : ans.confirming ∨ ans.status = .processing
    · rw [if_pos hconfirming, SponsorRow.rearmed]
      by_cases hinvoiced : x.status = .invoiced
      · rw [if_pos hinvoiced, if_pos ⟨hinvoiced, hconfirming⟩]
      · rw [if_neg hinvoiced, if_neg fun h => hinvoiced h.1]
    · have hrest : ¬ (x.status = .invoiced ∧ (ans.confirming ∨ ans.status = .processing)) :=
        fun h => hconfirming h.2
      rw [if_neg hconfirming, SponsorRow.rearmed, if_neg hrest]
      split
      · rfl
      · rfl
  have hsame : x.rearmed scfg now ans = { x with holdUntil := (x.rearmed scfg now ans).holdUntil } := by
    rw [SponsorRow.rearmed]
    split
    · rfl
    · rfl
  rw [SponsorRow.answered, SponsorRow.answer, if_neg hstatus, if_neg (not_not.mpr hverdict), ← hpaid,
    ← hinvoice, hhold, ← hsame]

/-- What a step does to the payments. -/
theorem DeskStep.payments (h : DeskStep scfg cfg out d a d') :
    (∃ r ans, a = .ask r (some ans) ∧ ans.marked = false ∧
      d'.payments = recordPayments r.id d.polledAt d.payments ans.payments) ∨
    d'.payments = d.payments ∧ ∀ r ans, a = .ask r (some ans) → ans.marked = true := by
  cases h with
  | @ask r rest htodo answer =>
    cases answer with
    | none => exact .inr ⟨rfl, fun _ _ h => by injection h; contradiction⟩
    | some ans =>
      cases hmarked : ans.marked with
      | true =>
        refine .inr ⟨?_, fun r' ans' h => ?_⟩
        · have hask : d.ask scfg r (some ans) = d := if_pos hmarked
          rw [hask]
        · injection h with _ h
          exact Option.some.inj h ▸ hmarked
      | false =>
        refine .inl ⟨r, ans, rfl, hmarked, ?_⟩
        have hask : d.ask scfg r (some ans) = d.pollRow scfg r d.polledAt ans :=
          if_neg (hmarked ▸ Bool.false_ne_true)
        rw [hask, Desk.pollRow]
        dsimp only
        split
        · rfl
        · rfl
  | _ => exact .inr ⟨rfl, fun _ _ h => by cases h⟩

theorem DeskStep.ask_mem {answer : Option Answer} (h : DeskStep scfg cfg out d (.ask r answer) d')
    (hd : Kept d) : r ∈ d.rows ∧ r.watched d.polledAt = true := by
  cases h with
  | ask htodo => exact hd.todo r (htodo ▸ List.mem_cons_self)

/-- How a step that asks about a row moves it. -/
theorem RowMove.ask (h : RowMove scfg d (.ask r (some ans)) d' r x') (hr : Polled r)
    (hmarked : ans.marked = false) : x' = r.answered scfg d.polledAt ans ∨
      r.credited ans ∧ ∃ now, x' = (r.answered scfg d.polledAt ans).proved now := by
  cases h with
  | same hno =>
    rw [hno ans rfl] at hmarked
    cases hmarked
  | invoiced _ hi => cases hi
  | proving hpaid => exact absurd hpaid hr.ne_paid
  | proved hholds =>
    obtain h | h := holds_status hholds
    · exact absurd hr (not_polled h (by decide))
    · exact absurd hr (not_polled h (by decide))
  | asked ha =>
    injection ha with _ hans
    exact .inl (by rw [Option.some.inj hans])
  | credited ha _ _ hcredited _ now =>
    injection ha with _ hans
    exact .inr ⟨Option.some.inj hans ▸ hcredited, now, by rw [Option.some.inj hans]⟩

/-- **An answer that is not marked leaves the books as it says**: its payments on record, and the
    row with the sum of what settled. -/
theorem DeskStep.told (h : DeskStep scfg cfg out d (.ask r (some ans)) d') (hd : Kept d)
    (hmarked : ans.marked = false) : Told scfg d' r.id ans := by
  obtain ⟨hr, hwatched⟩ := h.ask_mem hd
  have hpolled := watched_polled hwatched
  obtain ⟨keep, f, new, hmoved⟩ := h.rows hd
  have hmem := hmoved.mem_of hr hpolled.ne_requested
  obtain ⟨hstatus, hpaid, hinvoice⟩ :=
    answered_columns scfg d.polledAt ans hpolled
  constructor
  · refine ⟨f r, hmem, (hmoved.moves r hr).span.1, ?_⟩
    obtain heq | ⟨-, now, heq⟩ := (hmoved.moves r hr).ask hpolled hmarked
    · rw [heq]
      refine ⟨hstatus, hpaid, hinvoice, fun hstill => ?_⟩
      have hc : ¬ r.credited ans := fun hc => by
        have hfunded := (funded_answered scfg d.polledAt ans hpolled).mpr hc
        exact hstill.not_funded hfunded
      refine ⟨?_, fun now => verdict_fixed answered_id.2.2.2 hc answered_status⟩
      rw [SponsorRow.credited, answered_id.2.2.2]
      exact hc
    · rw [heq]
      exact ⟨SponsorStatus.noConfusion, hpaid, hinvoice,
        fun h => absurd h (not_polled (rfl : _ = SponsorStatus.proven) (by decide))⟩
  · intro hids
    obtain ⟨r', ans', hask, -, hpayments⟩ | ⟨-, hno⟩ := h.payments
    · injection hask with hr' hans
      rw [hpayments, ← hr', ← Option.some.inj hans]
      exact onRecord_recordPayments hids
    · rw [hno r ans rfl] at hmarked
      cases hmarked

/-- What an answer left stays until the sponsorship is asked about again. -/
theorem Told.step (ht : Told scfg d sid ans) (h : DeskStep scfg cfg out d a d') (hd : Kept d)
    (ha : ∀ r ans', a = .ask r (some ans') → ans'.marked = false → r.id ≠ sid) :
    Told scfg d' sid ans := by
  obtain ⟨x, hx, hid, hstatus, hpaid, hinvoice, hfixed⟩ := ht.row
  obtain ⟨keep, f, new, hmoved⟩ := h.rows hd
  have hmem := hmoved.mem_of hx hstatus
  have hmove := hmoved.moves x hx
  constructor
  · refine ⟨f x, hmem, hmove.span.1.trans hid, ?_⟩
    generalize f x = x' at hmove hmem ⊢
    cases hmove with
    | same => exact ⟨hstatus, hpaid, hinvoice, hfixed⟩
    | invoiced h => exact absurd h hstatus
    | proving =>
      exact ⟨SponsorStatus.noConfusion, hpaid, hinvoice,
        fun h => absurd h (not_polled (rfl : _ = SponsorStatus.proving) (by decide))⟩
    | proved =>
      exact ⟨SponsorStatus.noConfusion, hpaid, hinvoice,
        fun h => absurd h (not_polled (rfl : _ = SponsorStatus.proven) (by decide))⟩
    | asked hask hmarked => exact absurd hid (ha x _ hask hmarked)
    | credited hask hmarked => exact absurd hid (ha x _ hask hmarked)
  · intro hids p hp
    obtain ⟨r, ans', hask, hmarked, hpayments⟩ | ⟨hpayments, -⟩ := h.payments
    · obtain ⟨row, hrow, hsats, hstatus⟩ := ht.payments hids p hp
      refine ⟨row, ?_, hsats, hstatus⟩
      rw [hpayments, find_recordPayments_other, hrow]
      exact fun q _ heq => ha r ans' hask hmarked (Prod.mk.inj heq).1.symm
    · rw [hpayments]
      exact ht.payments hids p hp

/-- **The same answer again changes nothing** but the times: a confirming invoice is held on. -/
theorem Told.again (ht : Told scfg d r.id ans) (h : DeskStep scfg cfg out d (.ask r (some ans)) d')
    (hd : Kept d) (hmarked : ans.marked = false) (hids : (ans.payments.map Payment.id).Nodup) :
    SameBooks scfg d r.id ans d' := by
  obtain ⟨hr, hwatched⟩ := h.ask_mem hd
  have hpolled := watched_polled hwatched
  obtain ⟨x, hx, hid, -, hpaid, hinvoice, hfixed⟩ := ht.row
  obtain rfl := hd.unique hx hr hid
  obtain ⟨hc, hverdict⟩ := hfixed hpolled
  constructor
  · have hrows : d'.rows =
        d.rows.map fun y => if y = x then x.answered scfg d.polledAt ans else y := by
      have hpoll := pollRow_rows scfg d.polledAt ans hd hx hpolled.ne_paid
      simp only [if_neg hc] at hpoll
      cases h with
      | ask htodo => exact (congrArg Desk.rows (if_neg (hmarked ▸ Bool.false_ne_true))).trans hpoll
    rw [hrows]
    refine List.map_congr_left fun y hy => ?_
    by_cases hyx : y.id = x.id
    · rw [if_pos hyx, if_pos (hd.unique hy hx hyx), hd.unique hy hx hyx]
      exact answered_of_same hpolled hc (hverdict _) hpaid hinvoice
    · rw [if_neg hyx, if_neg fun h => hyx (by rw [h])]
  · obtain ⟨r', ans', hask, -, hpayments⟩ | ⟨-, hno⟩ := h.payments
    · injection hask with hr' hans
      rw [hpayments, ← hr', ← Option.some.inj hans]
      exact recordPayments_again (ht.payments hids)
    · rw [hno x ans rfl] at hmarked
      cases hmarked

/-! ## Runs -/

variable {ok : Desk → DeskAct → Prop} {trace : List (Desk × DeskAct × Desk)}

theorem Kept.of_run (h : DeskRun scfg cfg out ok trace d) : Kept d :=
  h.invariant (fun _ hd => kept_empty hd) fun _ _ _ hd hstep => hd.step hstep.1

/-- A credited sponsorship has its id already. -/
theorem DeskStep.credits_lt (h : DeskStep scfg cfg out d a d') (hd : Kept d)
    (hc : Credits sid (d, a, d')) : sid < d.nextId := by
  obtain ⟨r, ans, ha, hid, -⟩ := hc
  dsimp only at ha
  subst ha
  exact hid ▸ hd.below r (h.ask_mem hd).1

theorem nextId_le {keep : SponsorRow → Bool} {f : SponsorRow → SponsorRow} {new : List SponsorRow}
    (h : RowsMoved scfg d a d' keep f new) : d.nextId ≤ d'.nextId := by
  obtain ⟨-, hnext⟩ | ⟨_, _, _, -, -, hnext⟩ := h.new
  · exact hnext.ge
  · rw [hnext]
    exact Nat.le_succ _

/-- **A sponsorship is funded if and only if a poll credited it**, in every run. The poll is a step
    of the trace, so the money that it has seen is in BTCPay's answer there. -/
theorem funded_iff (h : DeskRun scfg cfg out ok trace d) :
    (∀ t ∈ trace, ∀ sid, Credits sid t → sid < d.nextId) ∧
      ∀ x ∈ d.rows, Funded x ↔ ∃ t ∈ trace, Credits x.id t := by
  induction h with
  | nil h =>
    refine ⟨fun t ht => absurd ht List.not_mem_nil, fun x hx => ?_⟩
    rw [h.2.1] at hx
    cases hx
  | @snoc trace d d' a hrun hstep ih =>
    obtain ⟨hlt, hfunded⟩ := ih
    have hd := Kept.of_run hrun
    obtain ⟨keep, f, new, hmoved⟩ := hstep.1.rows hd
    have hnext := nextId_le hmoved
    refine ⟨fun t ht sid hc => ?_, fun x hx => ?_⟩
    · obtain ht | ht := List.mem_append.mp ht
      · exact (hlt t ht sid hc).trans_le hnext
      · rw [List.mem_singleton.mp ht] at hc
        exact (hstep.1.credits_lt hd hc).trans_le hnext
    · have hsplit : (∃ t ∈ trace ++ [(d, a, d')], Credits x.id t) ↔
          (∃ t ∈ trace, Credits x.id t) ∨ Credits x.id (d, a, d') := by
        simp only [List.mem_append, List.mem_singleton, or_and_right, exists_or, exists_eq_left]
      rw [hsplit]
      obtain ⟨y, hy, -, rfl⟩ | hx := hmoved.mem hx
      · have hmove := hmoved.moves y hy
        rw [hmove.funded hd hy fun r ans ha => ?_, hfunded y hy, hmove.span.1]
        subst ha
        exact (hstep.1.ask_mem hd).1
      · obtain ⟨rfl, -⟩ | ⟨lo, hi, minSats, -, rfl, -⟩ := hmoved.new
        · cases hx
        · -- a new row has an id that no poll has asked about
          rw [List.mem_singleton.mp hx]
          refine ⟨fun h => ?_, ?_⟩
          · obtain h | h | h := h <;> cases h
          · rintro (⟨t, ht, hc⟩ | hc)
            · exact absurd (hlt t ht _ hc) (lt_irrefl _)
            · exact absurd (hstep.1.credits_lt hd hc) (lt_irrefl _)

/-- **Payments are credited once, and completely up to the poll that credits**, in every run. A row
    is funded by a poll that sees its minimum settled; each step takes it along a documented arrow;
    each answer leaves the books as it says, and told again it leaves them so. -/
theorem payments_credited (h : DeskRun scfg cfg out ok trace d) :
    (∀ x ∈ d.rows, Funded x ↔ ∃ t ∈ trace, Credits x.id t) ∧
      ∀ t ∈ trace,
        (∀ x ∈ t.1.rows, ∀ x' ∈ t.2.2.rows, x'.id = x.id →
          x'.status = x.status ∨ Arrow x.status x'.status) ∧
        (∀ r ans, t.2.1 = .ask r (some ans) → ans.marked = false → Told scfg t.2.2 r.id ans) ∧
        (∀ sid ans, Told scfg t.1 sid ans →
          (∀ r ans', t.2.1 = .ask r (some ans') → ans'.marked = false → r.id ≠ sid) →
          Told scfg t.2.2 sid ans) ∧
        ∀ r ans, t.2.1 = .ask r (some ans) → ans.marked = false →
          (ans.payments.map Payment.id).Nodup → Told scfg t.1 r.id ans →
            SameBooks scfg t.1 r.id ans t.2.2 := by
  refine ⟨(funded_iff h).2, fun ⟨v, a, v'⟩ ht => ?_⟩
  obtain ⟨hv, hstep, -⟩ := h.forall_steps (p := Kept) (fun _ hd => kept_empty hd)
    (fun _ _ _ hd hstep => hd.step hstep.1) _ ht
  dsimp only at hv hstep ⊢
  refine ⟨fun x hx x' hx' hid => ?_, fun r ans ha hmarked => ?_, fun sid ans htold ha => ?_,
    fun r ans ha hmarked hids htold => ?_⟩
  · obtain ⟨keep, f, new, hmoved⟩ := hstep.rows hv
    obtain ⟨y, hy, -, rfl⟩ | hx' := hmoved.mem hx'
    · have hmove := hmoved.moves y hy
      obtain rfl := hv.unique hy hx (hmove.span.1.symm.trans hid)
      exact hmove.arrow
    · obtain ⟨rfl, -⟩ | ⟨lo, hi, minSats, -, rfl, -⟩ := hmoved.new
      · cases hx'
      · rw [List.mem_singleton.mp hx'] at hid
        exact absurd hid (hv.below x hx).ne'
  · exact (ha ▸ hstep).told hv hmarked
  · exact htold.step hstep hv ha
  · exact htold.again (ha ▸ hstep) hv hmarked hids

/-! ## Two payments, of which one comes late -/

def sampleSponsors : SponsorConfig where
  confirmingHold := 7200
  invoiceWatch := 259200
  unpaidHoldMax := 5000
  maxBlocks := 1000

/-- The desk with these sponsorships and payments, at a time. -/
def deskAt (rows : List SponsorRow) (payments : List PaymentRow) (clock : Time) : Desk :=
  ⟨[], [], rows, [], payments, rows.length + 1, clock, [], [], [], none, [], 0, none, []⟩

/-- Block 1, sponsored for 1000 sats, with an invoice that expires at 1800. -/
def invoicedRow : SponsorRow := (requestedRow 1 1 1 1000).invoiced sampleSponsors "invoice" 1800

/-- 1000 sats have settled, and 500 are confirming or have settled as well. -/
def twoPayments (status : PaymentStatus) : Answer :=
  ⟨.processing, false, [⟨"a", "BTC-CHAIN", some (1 / 100000), .settled, none⟩,
    ⟨"b", "BTC-CHAIN", some (1 / 200000), status, none⟩]⟩

def paidRow : SponsorRow :=
  { invoicedRow with
    status := .paid, paidSats := some 1000, paidAt := some 0, invoiceStatus := some .processing }

def paidPayments : List PaymentRow :=
  [⟨1, "a", "BTC-CHAIN", 1000, .settled, none, 0⟩, ⟨1, "b", "BTC-CHAIN", 500, .processing, none, 0⟩]

/-- A request for block 1 is given its invoice. -/
theorem invoiced_run (ok : Desk → DeskAct → Prop)
    (hok : ∀ d a, (∀ r ans, a ≠ .ask r ans) → (∀ e, a ≠ .board e) → ok d a) :
    ∃ trace, DeskRun sampleSponsors sampleConfig sampleOutside ok trace
      (deskAt [invoicedRow] [] 0) := by
  have hstart : DeskRun sampleSponsors sampleConfig sampleOutside ok [] (deskAt [] [] 0) :=
    .nil ⟨⟨0, 1, rfl⟩, rfl, rfl, rfl, rfl, rfl, rfl⟩
  have hfree : ¬ (deskAt [] [] 0).spanTaken sampleConfig 1 1 0 := by
    rintro (⟨v, hv, -⟩ | ⟨r, hr, -⟩ | ⟨sp, hsp, -⟩)
    · cases hv
    · cases hr
    · cases hsp
  have hspan := hstart.snoc ⟨.span 1000 (le_refl (0 : Time)) rfl (le_refl 1) (le_refl 1) (by decide) hfree,
    hok _ _ (fun _ _ => DeskAct.noConfusion) fun _ => DeskAct.noConfusion⟩
  have hpending := hspan.snoc ⟨.pending (le_refl (0 : Time)) rfl fun sp hsp => absurd hsp List.not_mem_nil,
    hok _ _ (fun _ _ => DeskAct.noConfusion) fun _ => DeskAct.noConfusion⟩
  have hrecord := hpending.snoc ⟨.record (le_refl (0 : Time)) rfl (by decide),
    hok _ _ (fun _ _ => DeskAct.noConfusion) fun _ => DeskAct.noConfusion⟩
  have hinvoice := hrecord.snoc ⟨.invoice rfl "invoice" 1800,
    hok _ _ (fun _ _ => DeskAct.noConfusion) fun _ => DeskAct.noConfusion⟩
  exact ⟨_, hinvoice.to rfl⟩

/-- The first payment covers the minimum. -/
theorem paid_step : DeskStep sampleSponsors sampleConfig sampleOutside
    { deskAt [invoicedRow] [] 0 with todo := [invoicedRow] }
    (.ask invoicedRow (some (twoPayments .processing))) (deskAt [paidRow] paidPayments 0) := by
  have hask : { { deskAt [invoicedRow] [] 0 with todo := [invoicedRow] }.ask sampleSponsors
      invoicedRow (some (twoPayments .processing)) with todo := [] } =
      deskAt [paidRow] paidPayments 0 := by decide +kernel
  rw [← hask]
  exact .ask rfl _

/-- Block 1 is paid for. -/
theorem paid_run (ok : Desk → DeskAct → Prop) (hok : ∀ d a, (∀ e, a ≠ .board e) → ok d a) : ∃ trace,
    DeskRun sampleSponsors sampleConfig sampleOutside ok trace
      (deskAt [paidRow] paidPayments 0) := by
  obtain ⟨trace, hrun⟩ := invoiced_run ok fun d a _ => hok d a
  have hread := (hrun.snoc ⟨.read (le_refl (0 : Time)) rfl, hok _ _ fun _ => DeskAct.noConfusion⟩).to
    (by decide +kernel : _ = { deskAt [invoicedRow] [] 0 with todo := [invoicedRow] })
  exact ⟨_, hread.snoc ⟨paid_step, hok _ _ fun _ => DeskAct.noConfusion⟩⟩

theorem payments_credited_first : ∃ trace d,
    DeskRun sampleSponsors sampleConfig sampleOutside (fun _ _ => True) trace d ∧
      ∃ t ∈ trace, Credits 1 t := by
  obtain ⟨trace, hrun⟩ := paid_run (fun _ _ => True) fun _ _ _ => trivial
  refine ⟨trace, _, hrun, ?_⟩
  exact ((payments_credited hrun).1 paidRow (List.mem_singleton_self _)).mp (.inl rfl)

/-- The second payment settles while BTCPay still watches the invoice. A poll in that time asks about
    nothing, and when the window is over the payment is on record as confirming, and is not in the
    sum. -/
theorem late_payment_lost : ∃ trace d,
    DeskRun sampleSponsors sampleConfig sampleOutside (fun _ _ => True) trace d ∧
      (∃ v v', (v, DeskAct.read 3600, v') ∈ trace ∧ v'.todo = []) ∧
      (∃ x ∈ d.rows, x.id = 1 ∧ x.watchUntil = some d.clock ∧ x.status = .paid ∧
        x.paidSats = some 1000) ∧
      (∃ row, find PaymentRow.key (1, "b") d.payments = some row ∧ row.status = .processing) ∧
      (twoPayments .settled).settled = 1500 := by
  obtain ⟨trace, hrun⟩ := paid_run (fun _ _ => True) fun _ _ _ => trivial
  have hlater := hrun.snoc ⟨.tick (show (0 : Time) ≤ 3600 by decide), trivial⟩
  have hread := hlater.snoc ⟨.read (le_refl (3600 : Time)) rfl, trivial⟩
  have hend := hread.snoc ⟨.tick (show (3600 : Time) ≤ 261000 by decide), trivial⟩
  refine ⟨_, _, hend, ⟨_, _, List.mem_append_left _ (List.mem_append_right _ (List.mem_singleton_self _)),
    ?_⟩, ⟨paidRow, List.mem_singleton_self _, rfl, ?_, rfl, rfl⟩, ⟨_, rfl, rfl⟩, ?_⟩
  · decide +kernel
  · decide +kernel
  · decide +kernel

end Coordinator
end Hazync
