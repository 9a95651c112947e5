import Hazync.Coordinator.Rotations
import Mathlib.Algebra.Order.Group.Abs
import Mathlib.Tactic.Linarith

/-!
# The sponsor bot's requests (`bot_auth_refusal`, `coordinator/server.py`)

A request carries a time and a nonce, and the bot's signature of both with what it asks for. The
time must be near the clock, and the nonce must not be in the table of those that have come.

A nonce is kept by the time it came and not by the time that is signed with it, which may lie ahead.
Both are within the skew of each other, so twice the skew is as long as a nonce has to be kept. Only
a signed request takes the old ones out.

## Replay

A message that was accepted is accepted again only if its nonce has left the table while its time is
still near the clock. The nonce leaves when the clock is more than twice the skew past the time it
came at. It came when the clock was within the skew of the signed time, so by then the clock is more
than the skew past the signed time, and the request is refused for its age (`near_of_stamp`). The
bounds meet: at exactly twice the skew the nonce is still there.

Signatures are a predicate that nobody can forge (`hforge`), and the digest is a function; that one
digest has one body is not needed, since what is proved is that the *message* was signed. The
environment may be one without the library, where nothing is checked; `bot_auth_lapses` says what is
lost then.
-/

namespace Hazync
namespace Coordinator

/-- `HAVE_ED`, `COORD_ALLOW_UNSIGNED` and `SPONSOR_BOT_SKEW`, the ed25519 library, and `sha256`
with its digest in hexadecimal. -/
structure BotEnv where
  haveEd : Bool
  allowUnsigned : Bool
  skew : ℤ
  edVerify : String → String → String → Bool
  sha256 : List UInt8 → String

/-- A request: who asks, its headers, what it asks for, what the file of the key has in it,
and the clock. -/
structure BotRequest where
  peer : String
  forwardedFor : Option String
  ts : Option String
  nonce : Option String
  sig : Option String
  method : String
  path : String
  body : Option (List UInt8)
  pubkeyFile : Option String
  now : ℚ

/-- `_bot_nonces`, with the time each one came. -/
abbrev BotNonces := List (String × ℚ)

/-- `[0-9]{1,12}` -/
def isBotTs (s : String) : Bool := 1 ≤ s.length && s.length ≤ 12 && s.toList.all Char.isDigit

/-- `[0-9a-f]{16,64}` -/
def isBotNonce (s : String) : Bool :=
  16 ≤ s.length && s.length ≤ 64 && s.toList.all fun c => c.isDigit || ('a' ≤ c && c ≤ 'f')

/-- `int` of a string of digits -/
def botTime (ts : String) : ℕ := (int ts.toList).getD 0

/-- `_bot_pubkey` -/
def botPubkey (file : Option String) : Option String :=
  (file.map fun text => (stripSpace text).toLower).filter (isHex · 32)

variable (env : BotEnv)

/-- `bot_message` -/
def botMessage (method path ts nonce : String) (body : Option (List UInt8)) : String :=
  "hazync-sponsor-bot-v1\n" ++ (method ++ ("\n" ++ (path ++ ("\n" ++ (ts ++ ("\n" ++ (nonce ++
    ("\n" ++ env.sha256 (body.getD [])))))))))

/-- `verify_sig` -/
def BotEnv.verifySig (pubkey sig message : String) : Bool :=
  if env.haveEd then env.edVerify pubkey sig message else env.allowUnsigned

/-- The refusals before the table, or the nonce: the address, the key file, the shape of the
    headers, the clock, and the signature. -/
def botNonce (r : BotRequest) : Except (ℕ × String) String :=
  if (r.peer ≠ "127.0.0.1" ∧ r.peer ≠ "::1") ∨ r.forwardedFor.any (· ≠ "") then
    .error (403, "the sponsor bot API answers only the coordinator's own box")
  else match botPubkey r.pubkeyFile with
  | none => .error (503, "the sponsor bot API is not configured (SPONSOR_BOT_PUBKEY_FILE)")
  | some pub =>
    match r.ts.filter isBotTs, r.nonce.filter isBotNonce, r.sig.filter (isHex · 64) with
    | some ts, some nonce, some sig =>
      if env.skew < |r.now - botTime ts| then
        .error (401, "bot request timestamp outside +/-" ++ toString env.skew ++ "s")
      else if !env.verifySig pub sig (botMessage env r.method r.path ts nonce r.body) then
        .error (403, "the bot request signature does not verify")
      else .ok nonce
    | _, _, _ =>
      .error (401, "a bot request needs X-Hazync-Bot-Ts, X-Hazync-Bot-Nonce and X-Hazync-Bot-Sig")

/-- The nonces that are not older than twice the skew. -/
def pruneNonces (now : ℚ) (t : BotNonces) : BotNonces :=
  t.filter fun e => !decide (e.2 < now - 2 * env.skew)

/-- The refusal, where there is one, and the nonces. -/
def botAuthRefusal (r : BotRequest) (t : BotNonces) : Option (ℕ × String) × BotNonces :=
  match botNonce env r with
  | .error refusal => (some refusal, t)
  | .ok nonce =>
    let t := pruneNonces env r.now t
    if ∃ e ∈ t, e.1 = nonce then (some (403, "that bot request was already used"), t)
    else (none, t ++ [(nonce, r.now)])

/-! ## Runs -/

/-- The nonces, and the clock that the last request has read. -/
structure BotState where
  nonces : BotNonces
  clock : ℚ

/-- A request, and its answer. -/
def BotStep (s : BotState) (e : BotRequest × Option (ℕ × String)) (s' : BotState) : Prop :=
  s.clock ≤ e.1.now ∧ botAuthRefusal env e.1 s.nonces = (e.2, s'.nonces) ∧ s'.clock = e.1.now

abbrev BotTrace := List (BotState × (BotRequest × Option (ℕ × String)) × BotState)

abbrev BotRun := Runs.Run (fun s : BotState => s.nonces = []) (BotStep env)

/-- The requests that were not refused. -/
def acceptedIn (trace : BotTrace) : List BotRequest :=
  (trace.filter fun t => t.2.1.2 = none).map fun t => t.2.1.1

/-- The time and the nonce. -/
def BotRequest.stamp (r : BotRequest) : Option ℕ × Option String := (r.ts.map botTime, r.nonce)

/-- It comes from the box itself, and not through a proxy. -/
def BotRequest.Direct (r : BotRequest) : Prop :=
  (r.peer = "127.0.0.1" ∨ r.peer = "::1") ∧ ∀ f ∈ r.forwardedFor, f = ""

/-- The bot's key has signed what is asked for, with the time and the nonce. -/
def BotRequest.SignedBy (signed : String → String → Prop) (r : BotRequest) : Prop :=
  ∃ pub ts nonce, botPubkey r.pubkeyFile = some pub ∧ r.ts = some ts ∧ r.nonce = some nonce ∧
    signed pub (botMessage env r.method r.path ts nonce r.body)

/-! ## What a message says -/

variable {env}

/-- A text up to the first line break is fixed by the whole. -/
theorem line_inj {a a' b b' : List Char} (ha : '\n' ∉ a) (ha' : '\n' ∉ a')
    (h : a ++ '\n' :: b = a' ++ '\n' :: b') : a = a' ∧ b = b' := by
  induction a generalizing a' with
  | nil =>
    cases a' with
    | nil => exact ⟨rfl, (List.cons.inj h).2⟩
    | cons c a' =>
      have hc : '\n' = c := (List.cons.inj h).1
      exact absurd (List.mem_cons.mpr (.inl hc)) ha'
  | cons c a ih =>
    cases a' with
    | nil =>
      have hc : c = '\n' := (List.cons.inj h).1
      exact absurd (List.mem_cons.mpr (.inl hc.symm)) ha
    | cons c' a' =>
      obtain ⟨rfl, htail⟩ := List.cons.inj h
      have hne : '\n' ∉ a := fun hmem => ha (List.mem_cons_of_mem _ hmem)
      have hne' : '\n' ∉ a' := fun hmem => ha' (List.mem_cons_of_mem _ hmem)
      obtain ⟨rfl, rfl⟩ := ih hne hne' htail
      exact ⟨rfl, rfl⟩

/-- The first line of a text, and the rest. -/
theorem string_line_inj {a a' b b' : String} (ha : '\n' ∉ a.toList) (ha' : '\n' ∉ a'.toList)
    (h : a ++ ("\n" ++ b) = a' ++ ("\n" ++ b')) : a = a' ∧ b = b' := by
  have hlist := congrArg String.toList h
  simp only [String.toList_append] at hlist
  obtain ⟨h₁, h₂⟩ := line_inj ha ha' hlist
  exact ⟨String.toList_injective h₁, String.toList_injective h₂⟩

/-- One message says one thing: method, path, time and nonce are lines of it, and what is left is
    the digest. -/
theorem botMessage_inj {method path ts nonce method' path' ts' nonce' : String}
    {body body' : Option (List UInt8)}
    (hlines : ∀ s ∈ [method, path, ts, nonce, method', path', ts', nonce'], '\n' ∉ s.toList)
    (h : botMessage env method path ts nonce body = botMessage env method' path' ts' nonce' body') :
    method = method' ∧ path = path' ∧ ts = ts' ∧ nonce = nonce' ∧
      env.sha256 (body.getD []) = env.sha256 (body'.getD []) := by
  simp only [List.forall_mem_cons] at hlines
  obtain ⟨hm, hp, ht, hn, hm', hp', ht', hn', -⟩ := hlines
  unfold botMessage at h
  obtain ⟨hmethod, h⟩ := string_line_inj hm hm' ((String.append_right_inj _).mp h)
  obtain ⟨hpath, h⟩ := string_line_inj hp hp' h
  obtain ⟨hts, h⟩ := string_line_inj ht ht' h
  obtain ⟨hnonce, h⟩ := string_line_inj hn hn' h
  exact ⟨hmethod, hpath, hts, hnonce, h⟩

/-! ## A request -/

variable {r : BotRequest} {nonce : String} {t : BotNonces} {now : ℚ} {e : String × ℚ}

/-- What a request is whose nonce is looked at: it came from the box itself, its time is within the
    skew, and its message is signed. -/
theorem botNonce_ok (h : botNonce env r = .ok nonce) : r.Direct ∧ r.nonce = some nonce ∧
    ∃ pub ts sig, botPubkey r.pubkeyFile = some pub ∧ r.ts = some ts ∧
      |r.now - botTime ts| ≤ env.skew ∧
      env.verifySig pub sig (botMessage env r.method r.path ts nonce r.body) = true := by
  unfold botNonce at h
  split at h
  · cases h
  rename_i hdirect
  split at h
  · cases h
  rename_i pub hpub
  split at h
  · rename_i ts nonce' sig hts hnonce hsig
    split at h
    · cases h
    rename_i hskew
    split at h
    · cases h
    rename_i hverify
    cases h
    refine ⟨?_, (Option.filter_eq_some_iff.mp hnonce).1, pub, ts, sig, hpub,
      (Option.filter_eq_some_iff.mp hts).1, not_lt.mp hskew, by simpa using hverify⟩
    rw [not_or] at hdirect
    refine ⟨by tauto, ?_⟩
    intro f hf
    rw [Option.mem_def.mp hf] at hdirect
    simpa using hdirect.2
  · cases h

theorem mem_pruneNonces : e ∈ pruneNonces env now t ↔ e ∈ t ∧ now - 2 * env.skew ≤ e.2 := by
  simp [pruneNonces]

/-- What becomes of a request and of the nonces: refused before the table, refused by it, or
    accepted and noted. -/
theorem botAuthRefusal_cases (env : BotEnv) (r : BotRequest) (t : BotNonces) :
    (∃ refusal, botNonce env r = .error refusal ∧ botAuthRefusal env r t = (some refusal, t)) ∨
    (∃ nonce, botNonce env r = .ok nonce ∧ botAuthRefusal env r t =
      (some (403, "that bot request was already used"), pruneNonces env r.now t)) ∨
    (∃ nonce, botNonce env r = .ok nonce ∧ (∀ e ∈ pruneNonces env r.now t, e.1 ≠ nonce) ∧
      botAuthRefusal env r t = (none, pruneNonces env r.now t ++ [(nonce, r.now)])) := by
  unfold botAuthRefusal
  cases hnonce : botNonce env r with
  | error refusal => exact .inl ⟨refusal, rfl, rfl⟩
  | ok nonce =>
    by_cases hused : ∃ e ∈ pruneNonces env r.now t, e.1 = nonce
    · exact .inr (.inl ⟨nonce, rfl, if_pos hused⟩)
    · refine .inr (.inr ⟨nonce, rfl, ?_, if_neg hused⟩)
      intro e he heq
      exact hused ⟨e, he, heq⟩

/-! ## What a run keeps -/

variable {trace : BotTrace} {s s' : BotState}

theorem acceptedIn_snoc {answer : Option (ℕ × String)} :
    acceptedIn (trace ++ [(s, (r, answer), s')]) =
      if answer = none then acceptedIn trace ++ [r] else acceptedIn trace := by
  unfold acceptedIn
  rw [List.filter_append, List.map_append]
  split
  · rename_i hnone
    rw [List.filter_cons_of_pos (by simpa using hnone)]
    rfl
  · rename_i hsome
    rw [List.filter_cons_of_neg (by simpa using hsome)]
    simp

/-- The nonces have come with an accepted request, and those of the last requests are there. -/
structure BotInv (env : BotEnv) (trace : BotTrace) (s : BotState) : Prop where
  /-- Requests come in the order of the clock. -/
  past : ∀ r ∈ acceptedIn trace, r.now ≤ s.clock
  /-- What was accepted has passed the checks before the table of nonces. -/
  passed : ∀ r ∈ acceptedIn trace, ∃ nonce, botNonce env r = .ok nonce
  /-- A nonce in the table is that of an accepted request, with its time. -/
  seen : ∀ e ∈ s.nonces, ∃ r ∈ acceptedIn trace, r.nonce = some e.1 ∧ r.now = e.2
  /-- As long as a request's own time is within the skew, its nonce has not been thrown out. -/
  kept : ∀ r ∈ acceptedIn trace, s.clock - 2 * env.skew ≤ r.now →
    ∃ e ∈ s.nonces, r.nonce = some e.1 ∧ e.2 = r.now
  /-- So its stamp cannot be accepted again. -/
  once : ((acceptedIn trace).map BotRequest.stamp).Nodup

/-- Two requests with one signed time are not further apart than twice the skew. -/
theorem near_of_stamp {r' : BotRequest} {nonce' : String} (h : botNonce env r = .ok nonce)
    (h' : botNonce env r' = .ok nonce') (hstamp : r.stamp = r'.stamp) :
    r'.now - 2 * env.skew ≤ r.now := by
  obtain ⟨-, -, -, ts, -, -, hts, hnear, -⟩ := botNonce_ok h
  obtain ⟨-, -, -, ts', -, -, hts', hnear', -⟩ := botNonce_ok h'
  have htime : botTime ts = botTime ts' := by
    have hfst := congrArg Prod.fst hstamp
    simpa [BotRequest.stamp, hts, hts'] using hfst
  rw [← htime] at hnear'
  have hlow := (abs_le.mp hnear).1
  have hhigh := (abs_le.mp hnear').2
  linarith

/-- One request. An accepted one is noted with its own time; the pruning takes out what `kept` does
    not ask for. -/
theorem BotInv.step {e : BotRequest × Option (ℕ × String)} (hs : BotInv env trace s)
    (hstep : BotStep env s e s') : BotInv env (trace ++ [(s, e, s')]) s' := by
  obtain ⟨r, answer⟩ := e
  obtain ⟨hclock, hanswer, hnow⟩ := hstep
  have hle : s.clock ≤ s'.clock := by
    rw [hnow]
    exact hclock
  -- the nonces that stay are those of before, without the old ones
  have hpruned : ∀ r' ∈ acceptedIn trace, s'.clock - 2 * env.skew ≤ r'.now →
      ∃ e ∈ pruneNonces env r.now s.nonces, r'.nonce = some e.1 ∧ e.2 = r'.now := by
    intro r' hr' hrecent
    obtain ⟨e, he, hfst, hsnd⟩ := hs.kept r' hr' (by linarith)
    refine ⟨e, mem_pruneNonces.mpr ⟨he, ?_⟩, hfst, hsnd⟩
    rw [hsnd, ← hnow]
    exact hrecent
  rcases botAuthRefusal_cases env r s.nonces with ⟨refusal, -, heq⟩ | ⟨nonce, -, heq⟩ |
    ⟨nonce, hok, hnew, heq⟩
  · obtain ⟨rfl, hnonces⟩ := Prod.mk.inj (heq.symm.trans hanswer)
    refine ⟨?_, ?_, ?_, ?_, ?_⟩ <;> rw [acceptedIn_snoc, if_neg (Option.some_ne_none _)]
    · exact fun r' hr' => (hs.past r' hr').trans hle
    · exact hs.passed
    · rw [← hnonces]
      exact hs.seen
    · intro r' hr' hrecent
      rw [← hnonces]
      exact hs.kept r' hr' (by linarith)
    · exact hs.once
  · obtain ⟨rfl, hnonces⟩ := Prod.mk.inj (heq.symm.trans hanswer)
    refine ⟨?_, ?_, ?_, ?_, ?_⟩ <;> rw [acceptedIn_snoc, if_neg (Option.some_ne_none _)]
    · exact fun r' hr' => (hs.past r' hr').trans hle
    · exact hs.passed
    · rw [← hnonces]
      exact fun e he => hs.seen e (mem_pruneNonces.mp he).1
    · rw [← hnonces]
      exact hpruned
    · exact hs.once
  · obtain ⟨rfl, hnonces⟩ := Prod.mk.inj (heq.symm.trans hanswer)
    have hnonce : r.nonce = some nonce := (botNonce_ok hok).2.1
    refine ⟨?_, ?_, ?_, ?_, ?_⟩ <;> rw [acceptedIn_snoc, if_pos rfl]
    · intro r' hr'
      rcases List.mem_append.mp hr' with hr' | hr'
      · exact (hs.past r' hr').trans hle
      · rw [List.mem_singleton.mp hr', hnow]
    · intro r' hr'
      rcases List.mem_append.mp hr' with hr' | hr'
      · exact hs.passed r' hr'
      · rw [List.mem_singleton.mp hr']
        exact ⟨nonce, hok⟩
    · intro e he
      rw [← hnonces] at he
      rcases List.mem_append.mp he with he | he
      · obtain ⟨r', hr', hseen⟩ := hs.seen e (mem_pruneNonces.mp he).1
        exact ⟨r', List.mem_append_left _ hr', hseen⟩
      · rw [List.mem_singleton.mp he]
        exact ⟨r, List.mem_append_right _ (List.mem_singleton_self r), hnonce, rfl⟩
    · intro r' hr' hrecent
      rw [← hnonces]
      rcases List.mem_append.mp hr' with hr' | hr'
      · obtain ⟨e, he, hkept⟩ := hpruned r' hr' hrecent
        exact ⟨e, List.mem_append_left _ he, hkept⟩
      · rw [List.mem_singleton.mp hr']
        exact ⟨_, List.mem_append_right _ (List.mem_singleton_self _), hnonce, rfl⟩
    · -- one that came with the same time and nonce would still be there
      rw [List.map_append, List.nodup_append]
      refine ⟨hs.once, List.nodup_singleton _, ?_⟩
      intro a ha b hb hab
      obtain ⟨r', hr', rfl⟩ := List.mem_map.mp ha
      rw [List.map_singleton, List.mem_singleton] at hb
      rw [hb] at hab
      obtain ⟨nonce', hok'⟩ := hs.passed r' hr'
      have hrecent := near_of_stamp hok' hok hab
      rw [← hnow] at hrecent
      obtain ⟨e, he, hfst, -⟩ := hpruned r' hr' hrecent
      have hsame : r'.nonce = r.nonce := congrArg Prod.snd hab
      rw [hfst, hnonce] at hsame
      exact hnew e he (Option.some.inj hsame)

theorem BotInv.of_run (h : BotRun env trace s) : BotInv env trace s := by
  induction h with
  | nil hinit =>
    refine ⟨?_, ?_, ?_, ?_, List.nodup_nil⟩
    · exact fun r hr => absurd hr List.not_mem_nil
    · exact fun r hr => absurd hr List.not_mem_nil
    · intro e he
      rw [hinit] at he
      cases he
    · exact fun r hr => absurd hr List.not_mem_nil
  | snoc _ hstep ih => exact ih.step hstep

/-- A time and a nonce are accepted once, of what the bot has signed and sent from the box itself.
After each request whose nonce is looked at, the nonces are not older than twice the skew. -/
structure BotKept (env : BotEnv) (signed : String → String → Prop) (trace : BotTrace)
    (s : BotState) : Prop where
  /-- No replay: a stamp is a time and a nonce. -/
  once : ((acceptedIn trace).map BotRequest.stamp).Nodup
  /-- No request that came through the proxy. -/
  direct : ∀ r ∈ acceptedIn trace, r.Direct
  /-- Where signatures are checked at all, each is of the bot's key and over this very request. -/
  signed : env.haveEd = true ∨ env.allowUnsigned = false →
    ∀ r ∈ acceptedIn trace, r.SignedBy env signed
  /-- The table has nonces of accepted requests only, so that what is refused does not fill it. -/
  seen : ∀ e ∈ s.nonces, ∃ r ∈ acceptedIn trace, r.nonce = some e.1 ∧ r.now = e.2
  /-- It is pruned whenever a nonce is looked at. -/
  recent : ∀ t ∈ trace, (∃ nonce, botNonce env t.2.1.1 = .ok nonce) →
    ∀ e ∈ t.2.2.nonces, t.2.2.clock - 2 * env.skew ≤ e.2 ∧ e.2 ≤ t.2.2.clock
  /-- And touched by nothing else. -/
  others : ∀ t ∈ trace, (∀ nonce, botNonce env t.2.1.1 ≠ .ok nonce) → t.2.2.nonces = t.1.nonces

/-- A request whose nonce is looked at has a time within the skew, so there is a skew. -/
theorem skew_nonneg (h : botNonce env r = .ok nonce) : (0 : ℚ) ≤ env.skew := by
  obtain ⟨-, -, -, ts, -, -, -, hnear, -⟩ := botNonce_ok h
  exact (abs_nonneg _).trans hnear

theorem recent_of_run {e : BotRequest × Option (ℕ × String)} (h : BotRun env trace s)
    (hstep : BotStep env s e s') (hok : botNonce env e.1 = .ok nonce) :
    ∀ x ∈ s'.nonces, s'.clock - 2 * env.skew ≤ x.2 ∧ x.2 ≤ s'.clock := by
  obtain ⟨r, answer⟩ := e
  have hs := BotInv.of_run h
  obtain ⟨hclock, hanswer, hnow⟩ := hstep
  have hold : ∀ x ∈ pruneNonces env r.now s.nonces,
      s'.clock - 2 * env.skew ≤ x.2 ∧ x.2 ≤ s'.clock := by
    intro x hx
    rw [hnow]
    obtain ⟨hmem, hlow⟩ := mem_pruneNonces.mp hx
    obtain ⟨r', hr', -, hat⟩ := hs.seen x hmem
    rw [← hat]
    rw [← hat] at hlow
    exact ⟨hlow, (hs.past r' hr').trans hclock⟩
  rcases botAuthRefusal_cases env r s.nonces with ⟨refusal, herr, -⟩ | ⟨_, -, heq⟩ |
    ⟨nonce, -, -, heq⟩
  · rw [hok] at herr
    cases herr
  · obtain ⟨-, hnonces⟩ := Prod.mk.inj (heq.symm.trans hanswer)
    rw [← hnonces]
    exact hold
  · obtain ⟨-, hnonces⟩ := Prod.mk.inj (heq.symm.trans hanswer)
    intro x hx
    rw [← hnonces] at hx
    rcases List.mem_append.mp hx with hx | hx
    · exact hold x hx
    · have hskew := skew_nonneg hok
      rw [List.mem_singleton.mp hx, hnow]
      constructor
      · linarith
      · exact le_rfl

/-- **A bot's request is accepted once.** Over any sequence of requests, with a clock that does not
    go back, a time and a nonce are accepted together at most once; what is accepted is direct and
    signed; and the table has only what it needs to have. -/
theorem bot_auth_kept {signed : String → String → Prop} (h : BotRun env trace s)
    (hforge : ∀ pub sig msg, env.edVerify pub sig msg = true → signed pub msg) :
    BotKept env signed trace s := by
  have hs := BotInv.of_run h
  refine ⟨hs.once, ?_, ?_, hs.seen, ?_, ?_⟩
  · intro r hr
    obtain ⟨nonce, hok⟩ := hs.passed r hr
    exact (botNonce_ok hok).1
  · intro hmode r hr
    obtain ⟨nonce, hok⟩ := hs.passed r hr
    obtain ⟨-, hnonce, pub, ts, sig, hpub, hts, -, hverify⟩ := botNonce_ok hok
    refine ⟨pub, ts, nonce, hpub, hts, hnonce, ?_⟩
    unfold BotEnv.verifySig at hverify
    split at hverify
    · exact hforge pub sig _ hverify
    · rename_i hno
      rcases hmode with hed | hun
      · exact absurd hed hno
      · rw [hun] at hverify
        cases hverify
  · intro t ht hok
    obtain ⟨nonce, hok⟩ := hok
    obtain ⟨pre, post, heq⟩ := List.append_of_mem ht
    obtain ⟨hrun, hstep⟩ := h.split heq
    exact recent_of_run hrun hstep hok
  · intro t ht hno
    obtain ⟨pre, post, heq⟩ := List.append_of_mem ht
    obtain ⟨-, -, hanswer, -⟩ := h.split heq
    rcases botAuthRefusal_cases env t.2.1.1 t.1.nonces with ⟨_, -, heq⟩ | ⟨nonce, hok, -⟩ |
      ⟨nonce, hok, -⟩
    · exact (Prod.mk.inj (heq.symm.trans hanswer)).2.symm
    · exact absurd hok (hno nonce)
    · exact absurd hok (hno nonce)

/-! ## Requests with nothing in them -/

/-- A coordinator that knows one key and one signature of it, and the digest of no body. -/
def botBox (haveEd : Bool) : BotEnv where
  haveEd := haveEd
  allowUnsigned := !haveEd
  skew := 120
  edVerify := fun pub sig _ => haveEd && pub = zeros 64 && sig = zeroSig
  sha256 := fun _ => "e3b0c44298fc1c149afbf4c8996fb92427ae41e4649b934ca495991b7852b855"

def queueRequest : BotRequest where
  peer := "127.0.0.1"
  forwardedFor := none
  ts := some (zeros 1)
  nonce := some (zeros 16)
  sig := some zeroSig
  method := "GET"
  path := "/api/bot/queue"
  body := none
  pubkeyFile := some (zeros 64)
  now := 0

/-- A request through a proxy, hours later. -/
def proxiedRequest : BotRequest :=
  { queueRequest with forwardedFor := some "10.0.0.1", now := 10000 }

theorem botPubkey_zeros : botPubkey (some (zeros 64)) = some (zeros 64) := by
  have hclean : (stripSpace (zeros 64)).toLower = zeros 64 := by
    apply clean_of_bits
    intro c hc
    rw [zeros, String.toList_ofList] at hc
    exact .inl (List.eq_of_mem_replicate hc)
  have hhex : isHex (zeros 64) 32 = true := isHex_zeros 32
  simp [botPubkey, hclean, hhex]

theorem botNonce_queue (haveEd : Bool) :
    botNonce (botBox haveEd) queueRequest = .ok (zeros 16) := by
  have hts : (some (zeros 1)).filter isBotTs = some (zeros 1) := by decide
  have htime : botTime (zeros 1) = 0 := by decide
  have hlen : (zeros 16).length = 16 := by
    unfold zeros
    rw [String.length_ofList, List.length_replicate]
  have hnonce : (some (zeros 16)).filter isBotNonce = some (zeros 16) := by
    have hhex : isBotNonce (zeros 16) = true := by
      unfold isBotNonce
      rw [hlen]
      decide
    rw [Option.filter_some, hhex]
    rfl
  have hsig : (some zeroSig).filter (isHex · 64) = some zeroSig := by
    rw [Option.filter_some, show isHex zeroSig 64 = true from isHex_zeros 64]
    rfl
  have hskew : ¬ (((120 : ℤ) : ℚ) < |0 - ((0 : ℕ) : ℚ)|) := by simp
  unfold botNonce
  simp only [queueRequest, botPubkey_zeros]
  rw [hts, hnonce, hsig]
  dsimp only
  rw [htime]
  refine (if_neg hskew).trans (if_neg ?_)
  cases haveEd <;> simp [botBox, BotEnv.verifySig]

theorem queue_step (haveEd : Bool) :
    BotStep (botBox haveEd) ⟨[], 0⟩ (queueRequest, none) ⟨[(zeros 16, 0)], 0⟩ := by
  refine ⟨le_rfl, ?_, rfl⟩
  unfold botAuthRefusal
  rw [botNonce_queue]
  rfl

theorem queue_run (haveEd : Bool) : BotRun (botBox haveEd)
    [(⟨[], 0⟩, (queueRequest, none), ⟨[(zeros 16, 0)], 0⟩)] ⟨[(zeros 16, 0)], 0⟩ := by
  have hstart : BotRun (botBox haveEd) [] ⟨[], 0⟩ := .nil rfl
  exact hstart.snoc (queue_step haveEd)

/-- A nonce that nobody takes out, and a request that nobody has signed. -/
theorem bot_auth_lapses :
    (∃ trace s, BotRun (botBox true) trace s ∧
      ∃ e ∈ s.nonces, e.2 < s.clock - (2 * (botBox true).skew + 1)) ∧
    (∃ trace s, BotRun (botBox false) trace s ∧
      (∀ pub sig msg, (botBox false).edVerify pub sig msg ≠ true) ∧
      ∃ r ∈ acceptedIn trace, ¬ r.SignedBy (botBox false) fun _ _ => False) := by
  constructor
  · have hproxied : BotStep (botBox true) ⟨[(zeros 16, 0)], 0⟩ (proxiedRequest,
        some (403, "the sponsor bot API answers only the coordinator's own box"))
        ⟨[(zeros 16, 0)], 10000⟩ := by
      refine ⟨by decide, ?_, rfl⟩
      simp [botAuthRefusal, botNonce, proxiedRequest, queueRequest]
    refine ⟨_, _, (queue_run true).snoc hproxied, _, List.mem_singleton_self _, ?_⟩
    show (0 : ℚ) < 10000 - (2 * ((120 : ℤ) : ℚ) + 1)
    norm_num
  · refine ⟨_, _, queue_run false, by simp [botBox], queueRequest, List.mem_singleton_self _, ?_⟩
    rintro ⟨_, _, _, _, _, _, hsigned⟩
    exact hsigned

theorem bot_auth_kept_queue : ∃ trace s, BotRun (botBox true) trace s ∧ trace ≠ [] ∧
    BotKept (botBox true) (fun pub _ => pub = zeros 64) trace s := by
  refine ⟨_, _, queue_run true, List.cons_ne_nil _ _, bot_auth_kept (queue_run true) ?_⟩
  intro pub sig msg h
  simp only [botBox, Bool.true_and, Bool.and_eq_true, decide_eq_true_eq] at h
  exact h.1

end Coordinator
end Hazync
