import Hazync.Coordinator.Steps
import Mathlib.Data.Rat.Floor
import Mathlib.Algebra.BigOperators.Group.List.Basic
import Mathlib.Data.List.Sort

/-!
# The sponsors' desk (`coordinator/server.py`)

The sponsorships, their payments and their keys, with the steps that change them. A request for an
invoice holds a lock of its own while it reads what holds the span, puts its row in, and waits for
BTCPay; the poller has neither that lock nor that of the board, and writes each row in a transaction
of its own. So what these read and what they write are steps apart. The last check of a submit and
its commit are too: it holds the lock of the board in between, which the poller does not ask for.

## Who holds which lock

Three parties meet at the tables, and they share two locks between them in a way that matters.
Submits and claims hold the lock of the board. A request for an invoice holds
`_sponsor_request_lock`, so there is one of them at a time, and reads the board without its lock.
The poller holds neither. So a poll can credit a sponsorship while a request looks at the holds, or
while a submit is between its last check and its commit, and nobody is told.

A transaction is one step, and what a party keeps between two of its transactions is in the desk:
the rows that the poll has read and has yet to ask about (`todo`), how far the request has come
(`Stage`), the submit that has made its last check (`committing`). The amounts are rational numbers,
for `Decimal` is exact on what BTCPay reports.
-/

namespace Hazync
namespace Coordinator

open KeyedTable

/-! ## What BTCPay says -/

/-- The status of an invoice. Those that the poll does not ask for are told apart by their texts. -/
inductive InvoiceStatus where
  | new | processing | settled | expired | invalid | other (text : String)
  deriving DecidableEq

/-- The status of a payment. -/
inductive PaymentStatus where
  | processing | settled | other (text : String)
  deriving DecidableEq

/-- A payment of an invoice; `value` is what `Decimal` makes of it, in BTC. -/
structure Payment where
  id : String
  method : String
  value : Option ℚ
  status : PaymentStatus
  received : Option Time

/-- What BTCPay says of an invoice. `marked` is whether someone changed it by hand. -/
structure Answer where
  status : InvoiceStatus
  marked : Bool
  payments : List Payment

/-- `_sats` of an amount that BTCPay reports: not below zero, and of so few digits that `Decimal`
    multiplies it exactly. What is less than a satoshi is dropped. -/
def sats (value : Option ℚ) : ℕ := value.elim 0 fun v => ⌊v * 100000000⌋₊

/-- The sum of what has settled. -/
def Answer.settled (a : Answer) : ℕ :=
  ((a.payments.filter fun p => p.status = .settled).map fun p => sats p.value).sum

/-- A payment that is seen and not confirmed. -/
def Answer.confirming (a : Answer) : Bool := a.payments.any fun p => p.status = .processing

/-! ## The tables -/

/-- A row of `sponsorships`, with its invoice. -/
structure SponsorRow extends Sponsorship where
  invoiceId : Option String := none
  invoiceStatus : Option InvoiceStatus := none
  watchUntil : Option Time := none
  paidAt : Option Time := none
  provenAt : Option Time := none
  deriving DecidableEq

/-- A row of `sponsor_payments`. -/
structure PaymentRow where
  sponsorship : ℕ
  payment : String
  method : String
  sats : ℕ
  status : PaymentStatus
  receivedAt : Option Time
  seenAt : Time
  deriving DecidableEq

/-- The primary key of `sponsor_payments`. -/
def PaymentRow.key (p : PaymentRow) : ℕ × String := (p.sponsorship, p.payment)

/-- How far a request for an invoice has come. -/
inductive Stage where
  | holdsRead | spanFree | recorded (id : ℕ)
  deriving DecidableEq

/-- The request that holds `_sponsor_request_lock`. -/
structure SpanRequest where
  lo : ℕ
  hi : ℕ
  minSats : ℕ
  stage : Stage
  deriving DecidableEq

/-- What the environment sets: how long a confirming payment holds the blocks, how long an invoice
    is watched, how many blocks may be under unpaid invoices, and how many in one request. -/
structure SponsorConfig where
  confirmingHold : Time
  invoiceWatch : Time
  unpaidHoldMax : ℕ
  maxBlocks : ℕ

/-- The tables and what is under way: the submits and passes of the board, the submit that is
    between its last check and its commit, the rows that the poller has read and not yet asked about
    and when it read them, the request for an invoice, and the keys that are checked. -/
structure Desk where
  ranges : List RangeRow
  vranges : List VRow
  rows : List SponsorRow
  keys : List (String × Option ℕ)
  payments : List PaymentRow
  nextId : ℕ
  clock : Time
  submits : List Submission
  passes : List Pass
  log : List String
  committing : Option (Submission × VRange)
  todo : List SponsorRow
  polledAt : Time
  request : Option SpanRequest
  registering : List (String × Option ℕ)
  deriving DecidableEq

/-- The tables as the board has them. -/
def Desk.db (d : Desk) : Db := ⟨d.ranges, d.vranges, d.rows.map SponsorRow.toSponsorship, d.keys⟩

/-- The desk as the state of the board. -/
def Desk.state (d : Desk) : State := ⟨d.db, d.submits, d.passes, d.log⟩

/-- What a step of the board leaves. -/
def Desk.withState (d : Desk) (s : State) : Desk :=
  { d with
    ranges := s.db.ranges
    vranges := s.db.vranges
    submits := s.submits
    passes := s.passes
    log := s.log }

/-! ## `_sponsor_mark_proven` -/

/-- Every block of the span is covered. -/
def Desk.spanCovered (d : Desk) (sp : SponsorRow) : Prop :=
  ∀ n ∈ List.range' sp.lo (sp.hi + 1 - sp.lo), d.db.covered n

instance (d : Desk) (sp : SponsorRow) : Decidable (d.spanCovered sp) :=
  inferInstanceAs (Decidable (∀ n ∈ List.range' sp.lo (sp.hi + 1 - sp.lo), d.db.covered n))

/-- The walk over ranges, the lowest first: the block that is needed next when it stops. -/
def walk (hi : ℕ) : ℕ → List VRow → ℕ
  | need, [] => need
  | need, v :: vs =>
    if need < v.lo then need
    else if hi < max need (v.hi + 1) then max need (v.hi + 1)
    else walk hi (max need (v.hi + 1)) vs

/-- The walk over the ranges that meet the span passes its end. -/
def Desk.walked (d : Desk) (sp : SponsorRow) : Prop :=
  sp.hi < walk sp.hi sp.lo
    ((d.vranges.filter fun v => v.lo ≤ sp.hi ∧ sp.lo ≤ v.hi).insertionSort fun v w => v.lo ≤ w.lo)

instance (d : Desk) (sp : SponsorRow) : Decidable (d.walked sp) :=
  inferInstanceAs (Decidable (sp.hi < _))

/-- The two spans have a block in common. -/
def Overlap (lo hi lo' hi' : ℕ) : Prop := lo ≤ hi' ∧ lo' ≤ hi

instance (lo hi lo' hi' : ℕ) : Decidable (Overlap lo hi lo' hi') :=
  inferInstanceAs (Decidable (_ ∧ _))

/-- The row is proven, if its hold ends. -/
def Desk.mark (d : Desk) (lo hi : ℕ) (now : Time) (sp : SponsorRow) : SponsorRow :=
  if sp.holds ∧ Overlap sp.lo sp.hi lo hi ∧ d.walked sp then
    { sp with status := .proven, provenAt := some now }
  else sp

/-- `_sponsor_mark_proven` -/
def Desk.markProven (d : Desk) (lo hi : ℕ) (now : Time) : Desk :=
  { d with rows := d.rows.map (d.mark lo hi now) }

/-! ## `sponsor_payments_poll` -/

/-- The rows that a poll asks about. -/
def SponsorRow.watched (now : Time) (r : SponsorRow) : Bool :=
  (r.status = .invoiced ∨ r.status = .expired ∨ r.status = .underpaid) ∧ r.invoiceId.isSome ∧
    now < r.watchUntil.getD 0

variable (scfg : SponsorConfig)

/-- What settled covers the minimum. -/
def SponsorRow.credited (r : SponsorRow) (a : Answer) : Prop :=
  r.minSats.getD 0 ≤ a.settled ∧ 0 < a.settled

instance (r : SponsorRow) (a : Answer) : Decidable (r.credited a) :=
  inferInstanceAs (Decidable (_ ∧ _))

/-- The status that an answer gives, and until when the row holds its blocks. -/
def verdict (now : Time) (r : SponsorRow) (a : Answer) : SponsorStatus × Option Time :=
  if r.credited a then (.paid, r.holdUntil)
  else if a.confirming ∨ a.status = .processing then
    (r.status, if r.status = .invoiced then
      some (max (r.holdUntil.getD 0) (now + scfg.confirmingHold)) else r.holdUntil)
  else if a.status = .expired ∨ a.status = .invalid ∨ a.status = .settled then
    (if 0 < a.settled then .underpaid else if r.status = .invoiced then .expired else r.status,
      r.holdUntil)
  else (r.status, r.holdUntil)

/-- `settled or None` -/
def Answer.paid (a : Answer) : Option ℕ := if a.settled = 0 then none else some a.settled

/-- The row of a payment. -/
def Payment.row (p : Payment) (sid : ℕ) (now : Time) : PaymentRow :=
  ⟨sid, p.id, p.method, sats p.value, p.status, p.received, now⟩

/-- The payments of an answer go on record. -/
def recordPayments (sid : ℕ) (now : Time) (t : List PaymentRow) (ps : List Payment) :
    List PaymentRow :=
  ps.foldl (fun t p => upsert PaymentRow.key (p.row sid now)
    (fun x => { x with sats := sats p.value, status := p.status, seenAt := now }) t) t

/-- `UPDATE sponsorships SET f WHERE id=? AND status=?` -/
def Desk.setRow (d : Desk) (r : SponsorRow) (f : SponsorRow → SponsorRow) : Desk :=
  { d with rows := d.rows.map fun x => if x.id = r.id ∧ x.status = r.status then f x else x }

/-- The columns that a poll sets, where it found the status `old` and gives the verdict `v`. -/
def SponsorRow.answer (v : SponsorStatus × Option Time) (old : SponsorStatus) (now : Time)
    (a : Answer) (x : SponsorRow) : SponsorRow :=
  if v.1 = .paid then
    { x with
      status := .paid, paidSats := some a.settled, paidAt := some now, invoiceStatus := some a.status }
  else if v.1 ≠ old then
    { x with status := v.1, paidSats := a.paid, invoiceStatus := some a.status }
  else { x with holdUntil := v.2, paidSats := a.paid, invoiceStatus := some a.status }

/-- What a poll writes of a row that it read, and that is not marked. -/
def Desk.pollRow (d : Desk) (r : SponsorRow) (now : Time) (a : Answer) : Desk :=
  let v := verdict scfg now r a
  let written := { d.setRow r (SponsorRow.answer v r.status now a) with
    payments := recordPayments r.id now d.payments a.payments }
  if v.1 = .paid ∧ ∃ x ∈ d.rows, x.id = r.id ∧ x.status = r.status then
    written.markProven r.lo r.hi now
  else written

/-- What a poll makes of an answer, or of none. -/
def Desk.ask (d : Desk) (r : SponsorRow) (answer : Option Answer) : Desk :=
  match answer with
  | some a => if a.marked then d else d.pollRow scfg r d.polledAt a
  | none => d

/-! ## `_sponsor_span` and `_sponsor_request_invoice` -/

/-- A block of the span is proven, is being proven, or is held. -/
def Desk.spanTaken (d : Desk) (cfg : Config) (lo hi : ℕ) (now : Time) : Prop :=
  (∃ v ∈ d.vranges, Overlap v.lo v.hi lo hi) ∨
    (∃ r ∈ d.ranges, live cfg now r ∧ Overlap r.lo r.hi lo hi) ∨
    ∃ sp ∈ d.rows, sp.holds ∧ Overlap sp.lo sp.hi lo hi

/-- Blocks under unpaid invoices. -/
def Desk.unpaid (d : Desk) (now : Time) : ℕ :=
  ((d.rows.filter fun sp => sp.pending now).map fun sp => sp.hi - sp.lo + 1).sum

/-- The row of a request. -/
def requestedRow (id lo hi minSats : ℕ) : SponsorRow where
  id := id
  lo := lo
  hi := hi
  status := .requested
  minSats := some minSats
  paidSats := none
  holdUntil := none

/-- The row of a request is given its invoice. -/
def SponsorRow.invoiced (r : SponsorRow) (invoice : String) (expires : Time) : SponsorRow :=
  { r with
    status := .invoiced
    invoiceId := some invoice
    holdUntil := some expires
    watchUntil := some (expires + scfg.invoiceWatch)
    invoiceStatus := some .new }

/-! ## The bot's calls -/

/-- `bot_proving` -/
def Desk.proving (d : Desk) (sid : ℕ) : Desk :=
  { d with rows := d.rows.map fun x =>
      if x.id = sid ∧ x.status = .paid ∧ x.holds then { x with status := .proving } else x }

/-- `SPONSOR_BAND_TOP` -/
def SPONSOR_BAND_TOP : ℕ := 1000000000

/-- The commit of a submit. -/
def Desk.accept (d : Desk) (sub : Submission) (m : VRange) (now : Time) : Desk :=
  let db := acceptSubmit d.db sub m now
  let d := { d with ranges := db.ranges, vranges := db.vranges }
  d.markProven m.lo m.hi now

/-! ## Steps -/

/-- What happens in a step. -/
inductive DeskAct where
  | tick (t : Time)
  | board (e : Event)
  | recheck (sub : Submission) (m : VRange)
  | commit (sub : Submission) (m : VRange)
  | read (now : Time)
  | ask (r : SponsorRow) (answer : Option Answer)
  | span (lo hi : ℕ)
  | pending
  | record
  | invoice (invoice : String) (expires : Time)
  | withdraw
  | pledge (lo hi : ℕ)
  | checkKey (pubkey : String) (sid : Option ℕ)
  | insertKey (pubkey : String) (sid : Option ℕ)
  | proving (sid : ℕ)
  | reconcile
  | fault

variable (cfg : Config) (out : Outside)

/-- One step. A step of the board that writes waits for a submit that commits. -/
inductive DeskStep : Desk → DeskAct → Desk → Prop
  | tick {d : Desk} {t : Time} (h : d.clock ≤ t) : DeskStep d (.tick t) { d with clock := t }
  | board {d : Desk} {e : Event} {s' : State} (h : Step cfg out d.state e s')
      (hcommit : ∀ sub r m, e ≠ .commit sub r m)
      (hdesk : s'.db.sponsorships = d.db.sponsorships ∧ s'.db.sponsorKeys = d.db.sponsorKeys)
      (hlock : d.committing = none ∨ s'.db = d.db) : DeskStep d (.board e) (d.withState s')
  | recheck {d : Desk} {sub : Submission} {r : RangeRow} {host : Option VRange} {m : VRange}
      (hlock : d.committing = none) (hsub : sub ∈ d.submits) (hrow : sub.row = some r)
      (hcleared : sub.cleared = true) (hhost : ∀ m ∈ host, out.proves sub.receipt m)
      (hm : verifyReceipt host r.lo r.hi = some m) (hfree : committable d.db sub r) :
      DeskStep d (.recheck sub m) { d with committing := some (sub, m) }
  | commit {d : Desk} {sub : Submission} {m : VRange} (h : d.committing = some (sub, m))
      (now : Time) :
      DeskStep d (.commit sub m) { d.accept sub m now with
        committing := none
        submits := d.submits.erase sub
        log := d.log ++ [sub.rid] }
  | read {d : Desk} {now : Time} (hnow : now ≤ d.clock) (htodo : d.todo = []) :
      DeskStep d (.read now)
        { d with todo := d.rows.filter (SponsorRow.watched now), polledAt := now }
  | ask {d : Desk} {r : SponsorRow} {rest : List SponsorRow} (htodo : d.todo = r :: rest)
      (answer : Option Answer) :
      DeskStep d (.ask r answer) { d.ask scfg r answer with todo := rest }
  | span {d : Desk} {lo hi : ℕ} (minSats : ℕ) {now : Time} (hnow : now ≤ d.clock)
      (hrequest : d.request = none) (hlo : 1 ≤ lo) (hle : lo ≤ hi) (hsize : hi - lo + 1 ≤ scfg.maxBlocks)
      (hfree : ¬ d.spanTaken cfg lo hi now) :
      DeskStep d (.span lo hi) { d with request := some ⟨lo, hi, minSats, .holdsRead⟩ }
  | pending {d : Desk} {lo hi minSats : ℕ} {now : Time} (hnow : now ≤ d.clock)
      (hrequest : d.request = some ⟨lo, hi, minSats, .holdsRead⟩)
      (hfree : ∀ sp ∈ d.rows, sp.pending now → ¬ Overlap sp.lo sp.hi lo hi) :
      DeskStep d .pending { d with request := some ⟨lo, hi, minSats, .spanFree⟩ }
  | record {d : Desk} {lo hi minSats : ℕ} {now : Time} (hnow : now ≤ d.clock)
      (hrequest : d.request = some ⟨lo, hi, minSats, .spanFree⟩)
      (hcap : d.unpaid now + (hi - lo + 1) ≤ scfg.unpaidHoldMax) :
      DeskStep d .record { d with
        rows := d.rows ++ [requestedRow d.nextId lo hi minSats]
        nextId := d.nextId + 1
        request := some ⟨lo, hi, minSats, .recorded d.nextId⟩ }
  | invoice {d : Desk} {lo hi minSats id : ℕ}
      (hrequest : d.request = some ⟨lo, hi, minSats, .recorded id⟩) (invoice : String)
      (expires : Time) :
      DeskStep d (.invoice invoice expires) { d with
        rows := d.rows.map fun x => if x.id = id then x.invoiced scfg invoice expires else x
        request := none }
  | withdraw {d : Desk} {lo hi minSats id : ℕ}
      (hrequest : d.request = some ⟨lo, hi, minSats, .recorded id⟩) :
      DeskStep d .withdraw { d with
        rows := d.rows.filter fun x => ¬ (x.id = id ∧ x.status = .requested)
        request := none }
  | pledge {d : Desk} {lo hi : ℕ} (minSats : ℕ) (hlo : 1 ≤ lo) (hle : lo ≤ hi) :
      DeskStep d (.pledge lo hi) { d with
        rows := d.rows ++ [requestedRow d.nextId lo hi minSats]
        nextId := d.nextId + 1 }
  | checkKey {d : Desk} {pubkey : String} {sid : Option ℕ}
      (hheld : ∀ id ∈ sid, ∃ sp ∈ d.rows, sp.id = id ∧ sp.holds)
      (hkey : ∀ k ∈ d.keys, k.1 = pubkey → k.2 = sid) :
      DeskStep d (.checkKey pubkey sid)
        { d with registering := (pubkey, sid) :: d.registering }
  | insertKey {d : Desk} {pubkey : String} {sid : Option ℕ} (h : (pubkey, sid) ∈ d.registering)
      (hnew : ∀ k ∈ d.keys, k.1 ≠ pubkey) :
      DeskStep d (.insertKey pubkey sid) { d with
        keys := d.keys ++ [(pubkey, sid)]
        registering := d.registering.erase (pubkey, sid) }
  | proving {d : Desk} (sid : ℕ) : DeskStep d (.proving sid) (d.proving sid)
  | reconcile {d : Desk} (hlock : d.committing = none) (now : Time) :
      DeskStep d .reconcile (d.markProven 1 SPONSOR_BAND_TOP now)
  | fault {d : Desk} :
      DeskStep d .fault { d with committing := none, todo := [], request := none, registering := [] }

/-- Nothing is on record, and nothing under way. -/
def Desk.Empty (d : Desk) : Prop :=
  d.state.Empty ∧ d.rows = [] ∧ d.payments = [] ∧ d.committing = none ∧ d.todo = [] ∧
    d.request = none ∧ d.registering = []

/-- A run of steps that all meet `ok`, from the empty desk. -/
abbrev DeskRun (ok : Desk → DeskAct → Prop) : List (Desk × DeskAct × Desk) → Desk → Prop :=
  Runs.Run Desk.Empty fun d a d' => DeskStep scfg cfg out d a d' ∧ ok d a

end Coordinator
end Hazync
