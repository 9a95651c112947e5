import Hazync.Coordinator.Frontier
import Hazync.Coordinator.RangeId
import Hazync.Lib.KeyedTable
import Hazync.Lib.Runs

/-!
# The board (`coordinator/server.py`)

The tables of the coordinator and what `claim`, `beat`, `submit` and `sync_from_peers` do to them.
A claim and a beat hold the lock throughout. A submit takes it for the tiling check, to read its
row, for the hold check and to commit, and lets go of it in between; a pass over the peers takes it
for each proof that it adopts. So a run is of steps that each happen under the lock, with the
submits and passes that are under way.

What is not of the repository comes into a step as it finds it: the clock, the tip of the chain,
which witnesses can be served, what a peer sends, and what the host's `verify-any` says.

## Why steps and not calls

A submit takes minutes: between its checks and its commit other claims, beats, submits and adoptions
go on, and what it has read may have changed. The source knows this and asks again before it
commits. So a submit is four steps here, and the row it has read goes along with it in `Submission`;
a run may interleave any number of them. A pass over the peers has a step for each entry, and the
set of known ids that it read at its beginning goes along in `Pass`.

The checks that hold for one step are functions (`submitCheck`, `holdRefusal`, `committable`), so
they can be evaluated, and the steps are an inductive relation over them. `host` in a commit is what
the verifier reads off the receipt: nothing or an interval that the receipt proves
(`Outside.proves`).
-/

namespace Hazync
namespace Coordinator

open ByteStrings KeyedTable

/-- Seconds. -/
abbrev Time := ℚ

inductive Status where
  | opened | claimed | verified | failed
  deriving DecidableEq

/-- A row of `ranges`. -/
structure RangeRow where
  id : String
  lo : ℕ
  hi : ℕ
  status : Status := .opened
  assignee : Option String := none
  claimedAt : Option Time := none
  lastBeat : Option Time := none
  attempts : ℕ := 0
  claimNonce : Option String := none
  claimSigned : Option Bool := none
  deriving DecidableEq

inductive SponsorStatus where
  | requested | invoiced | paid | proving | proven | underpaid | expired | cancelled | refunded
  deriving DecidableEq

/-- A row of `sponsorships`. -/
structure Sponsorship where
  id : ℕ
  lo : ℕ
  hi : ℕ
  status : SponsorStatus
  minSats : Option ℕ
  paidSats : Option ℕ
  holdUntil : Option Time
  deriving DecidableEq

/-- The tables. `sponsorKeys` has a key and the sponsorship it proves for. -/
structure Db where
  ranges : List RangeRow
  vranges : List VRow
  sponsorships : List Sponsorship
  sponsorKeys : List (String × Option ℕ)
  deriving DecidableEq

/-- What the environment of the server sets. -/
structure Config where
  claimTtl : Time
  claimMax : Time
  claimGrace : Time
  claimOpenMax : ℕ
  claimRetakeWait : Time
  claimRequireSig : Bool
  beatSkew : Time
  frontierSettle : Time
  maxAttempts : ℕ
  peerLimit : ℕ

/-- `verify_sig`, `handle_refused`, and which interval a receipt proves. -/
structure Outside where
  verifySig : String → String → Bytes → Bool
  handleRefused : List (String × Option ℕ) → String → String → Bool
  proves : Bytes → VRange → Prop
  proves_le : ∀ {receipt m}, proves receipt m → m.lo ≤ m.hi

/-- `init_db`: `SEED` rows of `RANGE_SIZE` blocks. -/
def initDb (seed rangeSize : ℕ) : Db where
  ranges := (List.range seed).map fun i =>
    { id := toString (i * rangeSize) ++ "-" ++ toString (i * rangeSize + rangeSize - 1)
      lo := i * rangeSize
      hi := i * rangeSize + rangeSize - 1 }
  vranges := []
  sponsorships := []
  sponsorKeys := []

/-! ## Covered and held -/

/-- `t > u`, which `NULL` is not. -/
def after (t : Option Time) (u : Time) : Bool := t.any fun t => u < t

/-- The block is in a verified range. -/
def Db.covered (db : Db) (n : ℕ) : Prop := ∃ v ∈ db.vranges, v.lo ≤ n ∧ n ≤ v.hi

instance (db : Db) (n : ℕ) : Decidable (db.covered n) :=
  inferInstanceAs (Decidable (∃ v ∈ db.vranges, _))

/-- `SPONSOR_HOLD_SQL` -/
def Sponsorship.holds (sp : Sponsorship) : Bool :=
  (sp.status = .paid ∨ sp.status = .proving) ∧
    ∃ paid ∈ sp.paidSats, ∃ least ∈ sp.minSats, least ≤ paid

/-- `SPONSOR_PENDING_SQL` -/
def Sponsorship.pending (now : Time) (sp : Sponsorship) : Bool :=
  sp.status = .invoiced ∧ after sp.holdUntil now

variable (cfg : Config) (out : Outside)

/-- `LIVE_CLAIM_SQL` -/
def live (now : Time) (r : RangeRow) : Bool :=
  r.status = .claimed ∧ after (r.lastBeat.or r.claimedAt) (now - cfg.claimTtl) ∧
    after r.claimedAt (now - cfg.claimMax) ∧
    (r.lastBeat.isSome ∨ after r.claimedAt (now - cfg.claimGrace))

/-- The second set of `coverage_and_held`. -/
def Db.held (db : Db) (now : Time) (n : ℕ) : Prop :=
  (∃ r ∈ db.ranges, live cfg now r ∧ r.lo = n) ∨
    ∃ sp ∈ db.sponsorships, (sp.holds ∨ sp.pending now) ∧ sp.lo ≤ n ∧ n ≤ sp.hi

instance (db : Db) (now : Time) (n : ℕ) : Decidable (db.held cfg now n) :=
  inferInstanceAs (Decidable ((∃ r ∈ db.ranges, _) ∨ ∃ sp ∈ db.sponsorships, _))

/-- `_cover_settled` -/
def Db.coverSettled (db : Db) (n : ℕ) (takenAt : Time) : Prop :=
  ¬ ∃ v ∈ db.vranges, v.lo ≤ n ∧ n ≤ v.hi ∧ takenAt - cfg.frontierSettle < v.ts.unbotD 0

instance (db : Db) (n : ℕ) (takenAt : Time) : Decidable (db.coverSettled cfg n takenAt) :=
  inferInstanceAs (Decidable (¬ ∃ v ∈ db.vranges, _))

/-! ## `claim` -/

/-- The body of a claim, its handle cleaned and its nonce cut to 64 characters, `none` where it is
    empty. `auth` is `sig` and what `int` makes of `ts`, where the body has either. -/
structure ClaimRequest where
  pubkey : String
  handle : String
  nonce : Option String
  auth : Option (String × Option ℤ)

/-- A reply: the code, and the range or the error. -/
structure Reply where
  code : ℕ
  range : Option String
  error : Option String
  deriving DecidableEq

def Reply.refuse (code : ℕ) (error : String) : Reply := ⟨code, none, some error⟩
def Reply.offer (rid : String) : Reply := ⟨200, some rid, none⟩

def utf8 (s : String) : Bytes := s.toUTF8.toList

/-- What `claim` reads besides the request and the tables: the clock, the snapshot of the frontier
    with the time it was taken, `provable_tip()`, and `witness_available`. -/
structure Ambient where
  now : Time
  frTaken : Time
  frHi : ℕ
  ceiling : ℕ
  witness : ℕ → Bool

/-- Whether the claim is signed by its key; a signature that does not hold is refused. A claim
    without a signature is one of an unsigned key, unless the server asks for signatures. -/
def claimSigned (req : ClaimRequest) (now : Time) : Except Reply Bool :=
  match req.auth with
  | some (_, none) => .error (.refuse 400 "a signed claim needs an integer ts (unix seconds)")
  | some (sig, some ts) =>
    match req.nonce with
    | none => .error (.refuse 400 "a signed claim needs a nonce")
    | some nonce =>
      if cfg.beatSkew < |now - ts| then
        .error (.refuse 400 ("claim timestamp outside +/-" ++ toString cfg.beatSkew ++
          "s — check your clock"))
      else if out.verifySig req.pubkey sig (utf8 ("claim:" ++ nonce ++ ":" ++ toString ts)) then
        .ok true
      else .error (.refuse 403 "the claim signature does not match that pubkey")
  | none =>
    if cfg.claimRequireSig then
      .error (.refuse 403 "this coordinator accepts only signed claims: update your worker")
    else .ok false

/-- `_claim_by_nonce`: the row that an earlier request of the same key and nonce was given, if it
    was claimed or beaten within the TTL and claimed within `CLAIM_MAX`. A request that is retried
    gets it again. -/
def claimByNonce (db : Db) (req : ClaimRequest) (now : Time) : Option RangeRow :=
  if req.nonce = none ∨ req.pubkey = "" then none
  else db.ranges.find? fun r =>
    r.status = .claimed ∧ r.assignee = some req.pubkey ∧ r.claimNonce = req.nonce ∧
      after (r.lastBeat.or r.claimedAt) (now - cfg.claimTtl) ∧
      after r.claimedAt (now - cfg.claimMax)

/-- The live claims that count against a key. -/
def openClaims (db : Db) (pubkey : String) (signed : Bool) (now : Time) : ℕ :=
  (db.ranges.filter fun r =>
    r.assignee = some pubkey ∧ r.claimSigned.getD false = signed ∧ live cfg now r).length

/-- The key is at its cap. -/
def capped (db : Db) (pubkey : String) (signed : Bool) (now : Time) : Prop :=
  0 < cfg.claimOpenMax ∧ pubkey ≠ "" ∧ cfg.claimOpenMax ≤ openClaims cfg db pubkey signed now

instance (db : Db) (pubkey : String) (signed : Bool) (now : Time) :
    Decidable (capped cfg db pubkey signed now) := inferInstanceAs (Decidable (_ ∧ _ ∧ _))

/-- The key let a claim on the block lapse without a beat, and has to wait to take it again. -/
def lapsed (db : Db) (pubkey : String) (signed : Bool) (now : Time) (n : ℕ) : Prop :=
  pubkey ≠ "" ∧ 0 < cfg.claimRetakeWait ∧ ∃ r ∈ db.ranges, r.assignee = some pubkey ∧
    r.claimSigned.getD false = signed ∧ r.status = .claimed ∧ r.lastBeat = none ∧
    after r.claimedAt (now - cfg.claimRetakeWait) ∧ r.lo = n

instance (db : Db) (pubkey : String) (signed : Bool) (now : Time) (n : ℕ) :
    Decidable (lapsed cfg db pubkey signed now n) :=
  inferInstanceAs (Decidable (_ ∧ _ ∧ ∃ r ∈ db.ranges, _))

/-- Held, or held for this key. -/
def withheld (db : Db) (pubkey : String) (signed : Bool) (now : Time) (n : ℕ) : Prop :=
  db.held cfg now n ∨ lapsed cfg db pubkey signed now n

instance (db : Db) (pubkey : String) (signed : Bool) (now : Time) (n : ℕ) :
    Decidable (withheld cfg db pubkey signed now n) := inferInstanceAs (Decidable (_ ∨ _))

/-- The block after the frontier is covered, yet the frontier has not moved past it. -/
def blocked (db : Db) (pubkey : String) (signed : Bool) (amb : Ambient) : Prop :=
  amb.frHi + 1 < amb.ceiling ∧ db.covered (amb.frHi + 1) ∧
    ¬ withheld cfg db pubkey signed amb.now (amb.frHi + 1) ∧
    amb.witness (amb.frHi + 1) = true ∧ db.coverSettled cfg (amb.frHi + 1) amb.frTaken

instance (db : Db) (pubkey : String) (signed : Bool) (amb : Ambient) :
    Decidable (blocked cfg db pubkey signed amb) := inferInstanceAs (Decidable (_ ∧ _ ∧ _ ∧ _ ∧ _))

/-- The scan for the first block that is neither covered nor held. -/
def scan (db : Db) (pubkey : String) (signed : Bool) (amb : Ambient) : Option ℕ :=
  (List.range' 1 (amb.ceiling - 1)).find? fun h =>
    ¬ db.covered h ∧ ¬ withheld cfg db pubkey signed amb.now h ∧ amb.witness h = true

/-- The block that a claim takes: the next one after the frontier, where that is covered and the
    frontier has not moved past it; else the first free one. -/
def offered (db : Db) (pubkey : String) (signed : Bool) (amb : Ambient) : Option ℕ :=
  if blocked cfg db pubkey signed amb then some (amb.frHi + 1) else scan cfg db pubkey signed amb

/-- `claim`: refusals by handle, signature and cap, the retry by nonce, and then a row for the block
    that is offered. The row replaces one of that id. -/
def claim (db : Db) (req : ClaimRequest) (amb : Ambient) : Reply × Db :=
  if out.handleRefused db.sponsorKeys req.handle req.pubkey then
    (.refuse 400 "that handle is reserved — please pick another", db)
  else
    match claimSigned cfg out req amb.now with
    | .error e => (e, db)
    | .ok signed =>
      match claimByNonce cfg db req amb.now with
      | some again => (.offer again.id, db)
      | none =>
        if capped cfg db req.pubkey signed amb.now then
          (.refuse 429 ("this key already holds " ++
            toString (openClaims cfg db req.pubkey signed amb.now) ++
            " claimed blocks that are not finished (at most " ++ toString cfg.claimOpenMax ++
            "): prove one, or let one lapse, before claiming another"), db)
        else
          match offered cfg db req.pubkey signed amb with
          | none => (.refuse 409 "nothing available to claim", db)
          | some h =>
            (.offer (toString h),
              { db with
                ranges := replace RangeRow.id
                  { id := toString h
                    lo := h
                    hi := h
                    status := .claimed
                    assignee := some req.pubkey
                    claimedAt := some amb.now
                    claimNonce := req.nonce
                    claimSigned := some signed }
                  db.ranges })

/-! ## `beat` -/

/-- `beat`, its `ts` an integer. -/
def beat (db : Db) (rid pubkey sig : String) (ts : ℤ) (chainTip : ℕ) (now : Time) : Db :=
  if parseAnyRange chainTip rid = none ∨ cfg.beatSkew < |now - ts| ∨
      ¬ out.verifySig pubkey sig (utf8 (rid ++ ":" ++ toString ts)) then db
  else
    match find RangeRow.id rid db.ranges with
    | none => db
    | some r =>
      if r.status ≠ .claimed ∨ r.assignee.getD "" ≠ pubkey ∨
          r.claimedAt.getD now < now - cfg.claimMax then db
      else
        { db with
          ranges := update RangeRow.id rid (fun r => { r with lastBeat := some now }) db.ranges }

/-! ## `submit` -/

/-- The longest reach of a row that holds `next`. -/
def nextReach (rows : List VRow) (next : ℕ) : Option ℕ :=
  ((rows.filter fun r => r.lo ≤ next ∧ next ≤ r.hi).map fun r => r.hi).max?

/-- The loop of `_tiled_by_verified`, which has covered all below `next`. -/
def tiledFrom (rows : List VRow) (hi : ℕ) : ℕ → ℕ → Bool
  | 0, next => hi < next
  | fuel + 1, next =>
    if hi < next then true
    else
      match nextReach rows next with
      | none => false
      | some reach => tiledFrom rows hi fuel (reach + 1)

/-- `_tiled_by_verified`: a round takes the reach further, and it has `hi - lo + 1` to go. Only rows
    inside the range count. -/
def tiledByVerified (vranges : List VRow) (lo hi : ℕ) : Bool :=
  tiledFrom (vranges.filter fun r => lo ≤ r.lo ∧ r.hi ≤ hi) hi (hi + 1 - lo) lo

/-- `_hold_refusal`: a held block of the range that is not covered, and another's to prove. -/
def holdRefusal (db : Db) (lo hi : ℕ) (pubkey : String) : Prop :=
  ∃ sp ∈ db.sponsorships, sp.holds ∧
    (∃ n ∈ List.range' (max lo sp.lo) (min hi sp.hi + 1 - max lo sp.lo), ¬ db.covered n) ∧
    (pubkey.toLower, some sp.id) ∉ db.sponsorKeys

instance (db : Db) (lo hi : ℕ) (pubkey : String) : Decidable (holdRefusal db lo hi pubkey) :=
  inferInstanceAs (Decidable (∃ sp ∈ db.sponsorships, _))

/-- `_sponsor_mark_proven`: a hold ends where its whole span is covered. -/
def markProven (db : Db) (lo hi : ℕ) : List Sponsorship :=
  db.sponsorships.map fun sp =>
    if sp.holds ∧ sp.lo ≤ hi ∧ lo ≤ sp.hi ∧
        ∀ n ∈ List.range' sp.lo (sp.hi + 1 - sp.lo), db.covered n then
      { sp with status := .proven }
    else sp

/-- `verify_receipt`, after the host has read `host` off the receipt. A claim of `[0..hi]` is met by
    a proof of `[1..hi]`. -/
def verifyReceipt (host : Option VRange) (lo hi : ℤ) : Option VRange :=
  host.filter fun m => (lo = 0 ∧ m.lo = 1 ∧ hi = m.hi) ∨ (lo = m.lo ∧ hi = m.hi)

/-- What a submit checks of the id, and of a wide range that it is a fold. -/
def submitCheck (db : Db) (chainTip : ℕ) (rid : String) : Prop :=
  ∃ p ∈ parseAnyRange chainTip rid, p.1 ≠ 0 ∧ rid = canonicalRangeId p.1 p.2 ∧
    (p.1 < p.2 → tiledByVerified db.vranges p.1 p.2 = true)

/-- A submit under way. `row` is its row of `ranges`, once it has read it, and `cleared` is whether
    it has passed the hold check. -/
structure Submission where
  rid : String
  pubkey : String
  handle : String
  receipt : Bytes
  row : Option RangeRow
  cleared : Bool
  deriving DecidableEq

/-- The row of a submit, put in where there is none. -/
def openRow (db : Db) (rid : String) (lo hi : ℕ) : Db :=
  { db with ranges := ignore RangeRow.id { id := rid, lo := lo, hi := hi } db.ranges }

/-- A verified range goes on record. -/
def Db.record (db : Db) (v : VRow) : Db :=
  { db with vranges := replace VRow.id v db.vranges }

/-- `record_submission_failure`: a failure of the block counts, and the last one parks its row. -/
def recordFailure (db : Db) (rid : String) (env : Bool) : Db :=
  if env then db
  else
    { db with
      ranges := update RangeRow.id rid
        (fun r => { r with
          attempts := r.attempts + 1
          status := if cfg.maxAttempts ≤ r.attempts + 1 ∧ r.status ≠ .verified then .failed
            else r.status })
        db.ranges }

/-- The commit of a submit with the row `r`, whose proof the verifier has accepted as `m`. -/
def acceptSubmit (db : Db) (sub : Submission) (m : VRange) (now : Time) : Db :=
  let db := { db with
    ranges := update RangeRow.id sub.rid (fun r => { r with status := .verified }) db.ranges }
  let db := db.record { m with id := sub.rid, pubkey := sub.pubkey, handle := sub.handle, ts := now }
  { db with sponsorships := markProven db m.lo m.hi }

/-- The commit goes ahead: the row is not verified by now, and no hold has started. Both were asked
    before the verifier was run, and are asked again. -/
def committable (db : Db) (sub : Submission) (r : RangeRow) : Prop :=
  (∀ r' ∈ find RangeRow.id sub.rid db.ranges, r'.status ≠ .verified) ∧
    ¬ holdRefusal db r.lo r.hi sub.pubkey

/-! ## `sync_from_peers` -/

/-- What `str` and `int` make of a value that a peer sends. -/
structure PeerValue where
  str : String
  int : Option ℤ
  deriving DecidableEq

/-- An entry of a peer's index. `id` is `none` where it is missing or empty, `wide` is
    `v["lo"] != v["hi"]`, and the handle is cleaned. -/
structure PeerEntry where
  id : Option String
  lo : PeerValue
  hi : PeerValue
  wide : Bool
  handle : String
  deriving DecidableEq

/-- `rid`: the `or` binds tighter than the `if`. -/
def PeerEntry.rid (v : PeerEntry) : String :=
  if v.wide then v.id.getD (v.lo.str ++ "-" ++ v.hi.str) else v.lo.str

/-- A pass under way. `known` is `have`, and `todo` what the peers list that it has not come to.
    `begun` is for statements only: how much of the log there was when `known` was read. -/
structure Pass where
  known : List String
  todo : List PeerEntry
  adopted : ℕ
  rejected : ℕ
  begun : ℕ
  deriving DecidableEq

/-- What a pass does with an entry. -/
inductive Visit where
  | skip
  | reject
  | raise
  | adopt (lo hi : ℕ) (m : VRange)
  deriving DecidableEq

/-- The loop body of `sync_from_peers`, up to the write: an id that does not parse, one that is
    known, a download that fails, and what the verifier says of the receipt for the interval that
    the peer states. -/
def visitEntry (p : Pass) (v : PeerEntry) (chainTip : ℕ) (receipt : Bool) (host : Option VRange) :
    Visit :=
  if parseAnyRange chainTip v.rid = none then .reject
  else if v.rid ∈ p.known then .skip
  else if ¬ receipt then .skip
  else
    match v.lo.int, v.hi.int with
    | some lo, some hi =>
      match verifyReceipt host lo hi with
      | none => .reject
      | some m => .adopt lo.toNat hi.toNat m
    | _, _ => .raise

/-- The row of a proof that is adopted. -/
def PeerEntry.row (v : PeerEntry) (m : VRange) (now : Time) : VRow :=
  { m with id := v.rid, pubkey := "", handle := v.handle, ts := now }

/-- The write. -/
def adopt (db : Db) (v : PeerEntry) (lo hi : ℕ) (m : VRange) (now : Time) : Db :=
  let db := { db with
    ranges := replace RangeRow.id { id := v.rid, lo := lo, hi := hi, status := .verified } db.ranges }
  db.record (v.row m now)

/-! ## Steps -/

/-- The tables, and the submits and passes under way. `log` is for statements only: the ids under
    which ranges went on record, in the order. -/
structure State where
  db : Db
  submits : List Submission
  passes : List Pass
  log : List String

/-- What a step puts on record. -/
inductive Event where
  | quiet
  | commit (sub : Submission) (r : RangeRow) (m : VRange)
  | adopt (p : Pass) (v : PeerEntry) (receipt : Bytes) (lo hi : ℕ) (m : VRange)

/-- One thing that happens under the lock. -/
inductive Step : State → Event → State → Prop
  | claim {s : State} (req : ClaimRequest) (amb : Ambient) :
      Step s .quiet { s with db := (claim cfg out s.db req amb).2 }
  | beat {s : State} (rid pubkey sig : String) (ts : ℤ) (chainTip : ℕ) (now : Time) :
      Step s .quiet { s with db := beat cfg out s.db rid pubkey sig ts chainTip now }
  | sponsor {s : State} (sponsorships : List Sponsorship) (keys : List (String × Option ℕ)) :
      Step s .quiet { s with db := { s.db with sponsorships := sponsorships, sponsorKeys := keys } }
  | check {s : State} {sub : Submission} {chainTip : ℕ} (h : submitCheck s.db chainTip sub.rid)
      (hrow : sub.row = none) (hcleared : sub.cleared = false) :
      Step s .quiet { s with submits := sub :: s.submits }
  | read {s : State} {sub : Submission} {r : RangeRow} {chainTip lo hi : ℕ} (hsub : sub ∈ s.submits)
      (hrow : sub.row = none) (hparse : parseAnyRange chainTip sub.rid = some (lo, hi))
      (hr : find RangeRow.id sub.rid (openRow s.db sub.rid lo hi).ranges = some r)
      (hstatus : r.status ≠ .verified) :
      Step s .quiet { s with
        db := openRow s.db sub.rid lo hi
        submits := { sub with row := some r } :: s.submits.erase sub }
  | clear {s : State} {sub : Submission} {r : RangeRow} (hsub : sub ∈ s.submits)
      (hrow : sub.row = some r) (hhold : ¬ holdRefusal s.db r.lo r.hi sub.pubkey) :
      Step s .quiet { s with submits := { sub with cleared := true } :: s.submits.erase sub }
  | commit {s : State} {sub : Submission} {r : RangeRow} {host : Option VRange} {m : VRange}
      (hsub : sub ∈ s.submits) (hrow : sub.row = some r) (hcleared : sub.cleared = true)
      (hhost : ∀ m ∈ host, out.proves sub.receipt m) (hm : verifyReceipt host r.lo r.hi = some m)
      (hfree : committable s.db sub r) (now : Time) :
      Step s (.commit sub r m) { s with
        db := acceptSubmit s.db sub m now
        submits := s.submits.erase sub
        log := s.log ++ [sub.rid] }
  | fail {s : State} {sub : Submission} {r : RangeRow} (hsub : sub ∈ s.submits)
      (hrow : sub.row = some r) (hcleared : sub.cleared = true) (hfree : committable s.db sub r)
      (env : Bool) :
      Step s .quiet { s with
        db := recordFailure cfg s.db sub.rid env
        submits := s.submits.erase sub }
  | refuse {s : State} {sub : Submission} (hsub : sub ∈ s.submits) :
      Step s .quiet { s with submits := s.submits.erase sub }
  | fetch {s : State} (todo : List PeerEntry) :
      Step s .quiet { s with
        passes := ⟨s.db.vranges.map VRow.id, todo, 0, 0, s.log.length⟩ :: s.passes }
  | skip {s : State} {p : Pass} {v : PeerEntry} {todo : List PeerEntry} {chainTip : ℕ}
      {receipt : Bool} {host : Option VRange} (hp : p ∈ s.passes) (htodo : p.todo = v :: todo)
      (hlimit : p.adopted + p.rejected < cfg.peerLimit)
      (hvisit : visitEntry p v chainTip receipt host = .skip) :
      Step s .quiet { s with passes := { p with todo := todo } :: s.passes.erase p }
  | reject {s : State} {p : Pass} {v : PeerEntry} {todo : List PeerEntry} {chainTip : ℕ}
      {receipt : Bool} {host : Option VRange} (hp : p ∈ s.passes) (htodo : p.todo = v :: todo)
      (hlimit : p.adopted + p.rejected < cfg.peerLimit)
      (hvisit : visitEntry p v chainTip receipt host = .reject) :
      Step s .quiet { s with
        passes := { p with todo := todo, rejected := p.rejected + 1 } :: s.passes.erase p }
  | adopt {s : State} {p : Pass} {v : PeerEntry} {todo : List PeerEntry} {chainTip lo hi : ℕ}
      {receipt : Bytes} {host : Option VRange} {m : VRange} (hp : p ∈ s.passes)
      (htodo : p.todo = v :: todo) (hlimit : p.adopted + p.rejected < cfg.peerLimit)
      (hhost : ∀ m ∈ host, out.proves receipt m)
      (hvisit : visitEntry p v chainTip true host = .adopt lo hi m) (now : Time) :
      Step s (.adopt p v receipt lo hi m) { s with
        db := adopt s.db v lo hi m now
        passes := { p with todo := todo, adopted := p.adopted + 1, known := v.rid :: p.known } ::
          s.passes.erase p
        log := s.log ++ [v.rid] }
  | finish {s : State} {p : Pass} (hp : p ∈ s.passes) :
      Step s .quiet { s with passes := s.passes.erase p }

/-- The empty board. -/
def State.Empty (s : State) : Prop :=
  ∃ seed rangeSize, s = ⟨initDb seed rangeSize, [], [], []⟩

/-- A run of steps that all meet `ok`, from the empty board. -/
abbrev BoardRun (ok : State → Event → Prop) : List (State × Event × State) → State → Prop :=
  Runs.Run State.Empty fun s e s' => Step cfg out s e s' ∧ ok s e

end Coordinator
end Hazync
