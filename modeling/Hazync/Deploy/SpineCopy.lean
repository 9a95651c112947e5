import Hazync.Coordinator.Spine
import Mathlib.Logic.Function.Basic

/-!
# The spine's copy off the box (`spine_copy`, `coordinator/deploy/hazync-offsite-proofs.py`)

A run reads `spine.json` and `spine.bin` until the two agree, and uploads them under a name that is
made of the span alone, the receipt first. An object that is there already stays, and of what is
there the run knows the size. Receipts of one span have one length. So a record can go up beside a
receipt that it is not of, when a run before it got as far as the receipt and the coordinator has
put another receipt of the span in its place since.

The coordinator replaces its two files at any time, a run can end at any time, and an upload that
fails may have got through. Of all that, one thing decides: what a run finds under its name when it
lists the store. Where it finds no receipt, or one that has the sha256 and the size in the record
that it has read, the record and the receipt fit each other from then on, since what the run itself
would upload has been compared by `read_spine`, and nothing in the store is ever replaced.

## The order of a copy

The receipt goes up first, so that a record in the store stands for a whole copy. That is sound as
long as what is under the name was put there by the same pair: then the record goes beside the
receipt that it was read with, and `read_spine` has compared the two. A run that ends between the
uploads leaves a receipt without a record, which is the state that the order is made for, and the
next run finishes it (`resumedCopy`).

What the order does not see is a receipt of the same span from another submission. The spine can be
proved up to the same height twice, the two receipts differ in their bytes and not in their length,
and `list_remote` has names and sizes. So a later run takes the object for its own, uploads its
record beside it and finds the sizes right (`anotherReceipt`). The condition is on that step and no
other: what the store has under the name when the run lists it.
-/

namespace Hazync
namespace Deploy
namespace SpineCopy

open Coordinator.Spine (Digest Disk Head Operates Inside Verifier)

/-! ## Files and objects -/

/-- The fields of `spine.json` that are read. `lo` and `hi` are what `int` makes of them, if it does
not raise. -/
structure Record (Sha : Type) where
  lo : Option ℤ
  hi : Option ℤ
  sha256 : Option Sha
  bytes : Option ℤ

/-- What `json.loads` does: it raises a `ValueError`, or what it returns has no `get`, or it has. -/
inductive Loaded (Sha : Type) where
  | invalid
  | noDict
  | dict (r : Record Sha)

/-- `hashlib`, `json`, the size of a text, and `SPINE_READ_TRIES`. -/
structure Config (Receipt Text Sha : Type) where
  digest : Digest Receipt Sha
  loads : Text → Loaded Sha
  size : Text → ℕ
  tries : ℕ := 5

/-- The name `spine_<lo>-<hi>`. -/
structure Span where
  lo : ℤ
  hi : ℤ
  deriving DecidableEq

/-- The objects under the prefix: `<name>.bin` and `<name>.json`. -/
structure Objects (Receipt Text : Type) where
  bin : Span → Option Receipt := fun _ => none
  json : Span → Option Text := fun _ => none

/-- `list_remote`: names and sizes. -/
structure Remote where
  bin : Span → Option ℕ
  json : Span → Option ℕ

/-- What `read_spine` returns, with its name. -/
structure Pair (Receipt Text : Type) where
  data : Receipt
  js : Text
  span : Span

/-- Where a run is. It has returned 0 or 1, with the pair that it had read, if it had. -/
inductive Phase (Receipt Text : Type) where
  | idle
  | opening (i : ℕ)
  | opened (i : ℕ) (js : Text)
  | found (p : Pair Receipt Text)
  | verified (p : Pair Receipt Text)
  | copyBin (p : Pair Receipt Text) (remote : Remote)
  | copyJson (p : Pair Receipt Text) (remote : Remote)
  | copied (p : Pair Receipt Text)
  | returned (p : Option (Pair Receipt Text)) (code : ℕ)

/-- The two files on the box, the store, and the run. -/
structure Site (Receipt Text : Type) where
  bin : Option Receipt
  json : Option Text
  store : Objects Receipt Text
  phase : Phase Receipt Text

/-- What happens next. The coordinator replaces a file, or the run takes a step or ends. An upload
lands or not, and is answered or raises. -/
inductive Act (Receipt Text : Type) where
  | replaceBin (r : Option Receipt)
  | replaceJson (js : Option Text)
  | start
  | readJson
  | readBin
  | readFails
  | verify (ok : Bool)
  | list
  | upload (lands answered : Bool)
  | finish
  | die

section Model

variable {Receipt Text Sha : Type} [DecidableEq Sha] (cfg : Config Receipt Text Sha)

/-- The receipt has the sha256 and the size that the record states. -/
def Record.Agrees (r : Record Sha) (data : Receipt) : Prop :=
  r.sha256 = some (cfg.digest.sha256 data) ∧ r.bytes = some (cfg.digest.len data : ℤ)

instance (r : Record Sha) (data : Receipt) : Decidable (r.Agrees cfg data) :=
  inferInstanceAs (Decidable (_ ∧ _))

/-- `spine_name` -/
def Record.name (r : Record Sha) : Option Span := do
  let lo ← r.lo
  let hi ← r.hi
  some ⟨lo, hi⟩

/-- `list_remote`: of each object its size. -/
def Objects.list (o : Objects Receipt Text) : Remote where
  bin span := (o.bin span).map cfg.digest.len
  json span := (o.json span).map cfg.size

/-- `put_object` -/
def Objects.putBin (o : Objects Receipt Text) (p : Pair Receipt Text) : Objects Receipt Text :=
  { o with bin := Function.update o.bin p.span (some p.data) }

def Objects.putJson (o : Objects Receipt Text) (p : Pair Receipt Text) : Objects Receipt Text :=
  { o with json := Function.update o.json p.span (some p.js) }

/-- `all(remote.get(k) == len(b) for k, b in pair)` -/
def Remote.complete (remote : Remote) (p : Pair Receipt Text) : Bool :=
  remote.bin p.span = some (cfg.digest.len p.data) ∧ remote.json p.span = some (cfg.size p.js)

namespace Site

variable (s : Site Receipt Text)

/-- The next round of `read_spine`, if there is one. -/
def retry (i : ℕ) : Site Receipt Text :=
  if i + 1 < max 1 cfg.tries then { s with phase := .opening (i + 1) }
  else { s with phase := .returned none 1 }

/-- `spine.json` and `spine.bin` have been read. Outside the `try` an exception ends the run. -/
def compare (i : ℕ) (js : Text) (data : Receipt) : Site Receipt Text :=
  match cfg.loads js with
  | .invalid => s.retry cfg i
  | .noDict => { s with phase := .idle }
  | .dict r =>
    if r.Agrees cfg data then
      match r.name with
      | some span => { s with phase := .found ⟨data, js, span⟩ }
      | none => { s with phase := .idle }
    else s.retry cfg i

/-- One step: the coordinator replaces one of its files, or the run does what comes next. A step
    that cannot be taken in the phase is none. -/
def next : Act Receipt Text → Option (Site Receipt Text)
  | .replaceBin r => some { s with bin := r }
  | .replaceJson js => some { s with json := js }
  | .start =>
    match s.phase with
    | .idle | .returned .. => some { s with phase := .opening 0 }
    | _ => none
  | .readJson =>
    match s.phase, s.json with
    | .opening i, some js => some { s with phase := .opened i js }
    | .opening i, none => some (s.retry cfg i)
    | _, _ => none
  | .readBin =>
    match s.phase, s.bin with
    | .opened i js, some data => some (s.compare cfg i js data)
    | .opened i _, none => some (s.retry cfg i)
    | _, _ => none
  | .readFails =>
    match s.phase with
    | .opening i | .opened i _ => some (s.retry cfg i)
    | _ => none
  | .verify ok =>
    match s.phase with
    | .found p => some { s with phase := if ok then .verified p else .returned (some p) 1 }
    | _ => none
  | .list =>
    match s.phase with
    | .verified p => some { s with phase := .copyBin p (s.store.list cfg) }
    | _ => none
  | .upload lands answered =>
    match s.phase with
    | .copyBin p remote =>
      if (remote.bin p.span).isSome then some { s with phase := .copyJson p remote }
      else if answered && !lands then none
      else some { s with
        store := if lands then s.store.putBin p else s.store
        phase := if answered then .copyJson p remote else .returned (some p) 1 }
    | .copyJson p remote =>
      if (remote.json p.span).isSome then some { s with phase := .copied p }
      else if answered && !lands then none
      else some { s with
        store := if lands then s.store.putJson p else s.store
        phase := if answered then .copied p else .returned (some p) 1 }
    | _ => none
  | .finish =>
    match s.phase with
    | .copied p =>
      some { s with
        phase := .returned (some p) (if (s.store.list cfg).complete cfg p then 0 else 1) }
    | _ => none
  | .die => some { s with phase := .idle }

end Site

/-- A step. -/
def CopyStep (s : Site Receipt Text) (act : Act Receipt Text) (s' : Site Receipt Text) : Prop :=
  s.next cfg act = some s'

/-! ## What a copy is for -/

/-- The receipt has the sha256 and the size that the text of the record states. -/
def Fits (data : Receipt) (js : Text) : Prop := ∃ r, cfg.loads js = .dict r ∧ r.Agrees cfg data

/-- Every record in the store is beside its receipt. -/
def Objects.Whole (o : Objects Receipt Text) : Prop :=
  ∀ span js, o.json span = some js → ∃ data, o.bin span = some data ∧ Fits cfg data js

/-- The store is whole, and where a run has returned 0 the record that it read is of the receipt
    that the store has. -/
structure CopyKept (s : Site Receipt Text) : Prop where
  whole : s.store.Whole cfg
  stored : ∀ p, s.phase = .returned (some p) 0 →
    (∃ data, s.store.bin p.span = some data ∧ Fits cfg data p.js) ∧ s.store.json p.span ≠ none

/-- No run is under way, and the store is as runs should leave it, such as empty. -/
def Starts (s : Site Receipt Text) : Prop := s.phase = .idle ∧ s.store.Whole cfg

/-- A run from a site where no copy is under way. -/
abbrev CopyRun := Runs.Run (Starts cfg) (CopyStep cfg)

/-! ## When a copy is what it is for -/

/-- Where a run lists the store, the receipt that is there under the name of the pair it has read,
if one is, has the sha256 and the size that the record of the pair states. No other step is asked
for anything: neither what the coordinator writes, nor when, nor which uploads land. -/
def Meets (s : Site Receipt Text) (act : Act Receipt Text) : Prop :=
  match s.phase, act with
  | .verified p, .list => ∀ data, s.store.bin p.span = some data → Fits cfg data p.js
  | _, _ => True

/-! ## What a step does -/

variable {cfg} {s s' : Site Receipt Text} {act : Act Receipt Text} {p : Pair Receipt Text}
  {remote : Remote}

/-- The run has read nothing that it could upload, or has returned 1. -/
def Phase.Quiet : Phase Receipt Text → Prop
  | .found _ | .verified _ | .copyBin .. | .copyJson .. | .copied _ => False
  | .returned _ code => code ≠ 0
  | _ => True

/-- What a step does to the store and to a run that has a pair. -/
inductive Moves (cfg : Config Receipt Text Sha) (s : Site Receipt Text) :
    Act Receipt Text → Site Receipt Text → Prop
  | files {act : Act Receipt Text} {bin : Option Receipt} {json : Option Text} :
      Moves cfg s act { s with bin, json }
  | quiet {act : Act Receipt Text} {phase : Phase Receipt Text} (h : phase.Quiet) :
      Moves cfg s act { s with phase }
  -- what `read_spine` has compared
  | found {act : Act Receipt Text} {p : Pair Receipt Text} (h : Fits cfg p.data p.js) :
      Moves cfg s act { s with phase := .found p }
  | verified {p : Pair Receipt Text} (hphase : s.phase = .found p) :
      Moves cfg s (.verify true) { s with phase := .verified p }
  | list {p : Pair Receipt Text} (hphase : s.phase = .verified p) :
      Moves cfg s .list { s with phase := .copyBin p (s.store.list cfg) }
  | hasBin {p : Pair Receipt Text} {remote : Remote} {lands answered : Bool}
      (hphase : s.phase = .copyBin p remote) (h : remote.bin p.span ≠ none) :
      Moves cfg s (.upload lands answered) { s with phase := .copyJson p remote }
  | putBin {p : Pair Receipt Text} {remote : Remote} {answered : Bool}
      (hphase : s.phase = .copyBin p remote) (h : remote.bin p.span = none) :
      Moves cfg s (.upload true answered) { s with
        store := s.store.putBin p
        phase := if answered then .copyJson p remote else .returned (some p) 1 }
  | hasJson {p : Pair Receipt Text} {remote : Remote} {lands answered : Bool}
      (hphase : s.phase = .copyJson p remote) :
      Moves cfg s (.upload lands answered) { s with phase := .copied p }
  | putJson {p : Pair Receipt Text} {remote : Remote} {answered : Bool}
      (hphase : s.phase = .copyJson p remote) :
      Moves cfg s (.upload true answered) { s with
        store := s.store.putJson p
        phase := if answered then .copied p else .returned (some p) 1 }
  | finish {p : Pair Receipt Text} (hphase : s.phase = .copied p) :
      Moves cfg s .finish { s with
        phase := .returned (some p) (if (s.store.list cfg).complete cfg p then 0 else 1) }

omit [DecidableEq Sha] in
/-- Another round of `read_spine`, or the end of it, is a quiet step. -/
theorem moves_retry (i : ℕ) : Moves cfg s act (s.retry cfg i) := by
  unfold Site.retry
  split
  · exact .quiet trivial
  · exact .quiet one_ne_zero

/-- A comparison finds a pair that fits, or is a quiet step. -/
theorem moves_compare (i : ℕ) (js : Text) (data : Receipt) :
    Moves cfg s act (s.compare cfg i js data) := by
  unfold Site.compare
  split
  · exact moves_retry i
  · exact .quiet trivial
  · rename_i r hloads
    split
    · rename_i hagrees
      split
      · exact .found ⟨r, hloads, hagrees⟩
      · exact .quiet trivial
    · exact moves_retry i

/-- An upload that does not land, and one that does, where the object is not there. -/
theorem upload_cases {lands answered : Bool} (h : ¬ (answered && !lands) = true) :
    lands = true ∨ lands = false ∧ answered = false := by
  cases lands with
  | true => exact .inl rfl
  | false =>
    cases answered with
    | true => exact absurd rfl h
    | false => exact .inr ⟨rfl, rfl⟩

/-- **A step is one of the moves.** -/
theorem CopyStep.moves (h : CopyStep cfg s act s') : Moves cfg s act s' := by
  unfold CopyStep Site.next at h
  cases act with
  | replaceBin r =>
    obtain rfl := Option.some.inj h
    exact .files
  | replaceJson js =>
    obtain rfl := Option.some.inj h
    exact .files
  -- the phases of one pass in turn; what fails goes to the retry
  | start =>
    dsimp only at h
    split at h
    · obtain rfl := Option.some.inj h
      exact .quiet trivial
    · obtain rfl := Option.some.inj h
      exact .quiet trivial
    · cases h
  | readJson =>
    dsimp only at h
    split at h
    · obtain rfl := Option.some.inj h
      exact .quiet trivial
    · obtain rfl := Option.some.inj h
      exact moves_retry _
    · cases h
  | readBin =>
    dsimp only at h
    split at h
    · obtain rfl := Option.some.inj h
      exact moves_compare _ _ _
    · obtain rfl := Option.some.inj h
      exact moves_retry _
    · cases h
  | readFails =>
    dsimp only at h
    split at h
    · obtain rfl := Option.some.inj h
      exact moves_retry _
    · obtain rfl := Option.some.inj h
      exact moves_retry _
    · cases h
  | verify ok =>
    dsimp only at h
    split at h
    · rename_i p hphase
      obtain rfl := Option.some.inj h
      cases ok with
      | true => exact .verified hphase
      | false => exact .quiet one_ne_zero
    · cases h
  | list =>
    dsimp only at h
    split at h
    · rename_i p hphase
      obtain rfl := Option.some.inj h
      exact .list hphase
    · cases h
  | upload lands answered =>
    dsimp only at h
    split at h
    · rename_i p remote hphase
      -- a file that is already there is not sent again
      by_cases hthere : (remote.bin p.span).isSome = true
      · rw [if_pos hthere] at h
        obtain rfl := Option.some.inj h
        exact .hasBin hphase (Option.isSome_iff_ne_none.mp hthere)
      · rw [if_neg hthere] at h
        by_cases hodd : (answered && !lands) = true
        · rw [if_pos hodd] at h
          cases h
        · rw [if_neg hodd] at h
          obtain rfl := Option.some.inj h
          rcases upload_cases hodd with rfl | ⟨rfl, rfl⟩
          · exact .putBin hphase (Option.not_isSome_iff_eq_none.mp hthere)
          · exact .quiet one_ne_zero
    · rename_i p remote hphase
      -- the json goes last, by the same rule
      by_cases hthere : (remote.json p.span).isSome = true
      · rw [if_pos hthere] at h
        obtain rfl := Option.some.inj h
        exact .hasJson hphase
      · rw [if_neg hthere] at h
        by_cases hodd : (answered && !lands) = true
        · rw [if_pos hodd] at h
          cases h
        · rw [if_neg hodd] at h
          obtain rfl := Option.some.inj h
          rcases upload_cases hodd with rfl | ⟨rfl, rfl⟩
          · exact .putJson hphase
          · exact .quiet one_ne_zero
    · cases h
  | finish =>
    dsimp only at h
    split at h
    · rename_i p hphase
      obtain rfl := Option.some.inj h
      exact .finish hphase
    · cases h
  | die =>
    obtain rfl := Option.some.inj h
    exact .quiet trivial

/-! ## What every step keeps -/

/-- The pair that a run has is one that `read_spine` has compared. From the listing on, a receipt
that is under its name is of its record, the run knows whether there is one, and after its turn
there is. -/
def PhaseOk (cfg : Config Receipt Text Sha) (s : Site Receipt Text) : Prop :=
  match s.phase with
  | .found p | .verified p => Fits cfg p.data p.js
  | .copyBin p remote => Fits cfg p.data p.js ∧
      (remote.bin p.span = none ↔ s.store.bin p.span = none) ∧
      ∀ data, s.store.bin p.span = some data → Fits cfg data p.js
  | .copyJson p _ | .copied p => ∃ data, s.store.bin p.span = some data ∧ Fits cfg data p.js
  | _ => True

omit [DecidableEq Sha] in
/-- A run that has read nothing has nothing to be in order. -/
theorem PhaseOk.of_quiet {s : Site Receipt Text} (h : s.phase.Quiet) : PhaseOk cfg s := by
  unfold PhaseOk
  cases hphase : s.phase with
  | idle => trivial
  | opening i => trivial
  | opened i js => trivial
  | returned p code => trivial
  | _ =>
    rw [hphase] at h
    exact h.elim

omit [DecidableEq Sha] in
/-- **A step keeps what a run knows of its pair**, if the step meets the condition: only a run puts
    objects in the store, and only where there is none. -/
theorem PhaseOk.moves (hs : PhaseOk cfg s) (hmeets : Meets cfg s act) (h : Moves cfg s act s') :
    PhaseOk cfg s' := by
  cases h with
  | files => exact hs
  | quiet h => exact .of_quiet h
  | found h => exact h
  | verified hphase =>
    unfold PhaseOk at hs
    rw [hphase] at hs
    exact hs
  | list hphase =>
    unfold PhaseOk at hs
    unfold Meets at hmeets
    rw [hphase] at hs hmeets
    exact ⟨hs, Option.map_eq_none_iff, hmeets⟩
  | hasBin hphase h =>
    unfold PhaseOk at hs
    rw [hphase] at hs
    obtain ⟨-, hlisted, hfits⟩ := hs
    obtain ⟨data, hdata⟩ := Option.ne_none_iff_exists'.mp (mt hlisted.mpr h)
    exact ⟨data, hdata, hfits data hdata⟩
  | @putBin p remote answered hphase h =>
    unfold PhaseOk at hs
    rw [hphase] at hs
    cases answered with
    | true => exact ⟨p.data, Function.update_self .., hs.1⟩
    | false => trivial
  | hasJson hphase =>
    unfold PhaseOk at hs
    rw [hphase] at hs
    exact hs
  | @putJson p remote answered hphase =>
    unfold PhaseOk at hs
    rw [hphase] at hs
    cases answered with
    | true => exact hs
    | false => trivial
  | finish hphase => trivial

omit [DecidableEq Sha] in
/-- A receipt that comes where none was spoils no record, since a record needs a receipt beside
    it. -/
theorem Objects.Whole.putBin {o : Objects Receipt Text} (ho : o.Whole cfg)
    (h : o.bin p.span = none) : (o.putBin p).Whole cfg := by
  intro span js hjs
  obtain ⟨data, hdata, hfits⟩ := ho span js hjs
  have hne : span ≠ p.span := by
    intro heq
    rw [heq, h] at hdata
    cases hdata
  refine ⟨data, ?_, hfits⟩
  exact (Function.update_of_ne hne _ _).trans hdata

omit [DecidableEq Sha] in
/-- A record that fits the receipt beside it keeps the store whole. -/
theorem Objects.Whole.putJson {o : Objects Receipt Text} (ho : o.Whole cfg) {data : Receipt}
    (hdata : o.bin p.span = some data) (hfits : Fits cfg data p.js) :
    (o.putJson p).Whole cfg := by
  intro span js hjs
  change Function.update o.json p.span (some p.js) span = some js at hjs
  by_cases heq : span = p.span
  · rw [heq, Function.update_self] at hjs
    obtain rfl := Option.some.inj hjs
    exact ⟨data, heq ▸ hdata, hfits⟩
  · rw [Function.update_of_ne heq] at hjs
    exact ho span js hjs

omit [DecidableEq Sha] in
theorem CopyKept.of_quiet {s : Site Receipt Text} (hwhole : s.store.Whole cfg)
    (h : ∀ p, s.phase ≠ .returned (some p) 0) : CopyKept cfg s :=
  ⟨hwhole, fun p hp => absurd hp (h p)⟩

omit [DecidableEq Sha] in
/-- A step keeps the store whole: a receipt goes where none is, and a record goes beside a receipt
that it is of. -/
theorem CopyKept.moves (hs : CopyKept cfg s) (hphase : PhaseOk cfg s) (h : Moves cfg s act s') :
    CopyKept cfg s' := by
  cases h with
  | files => exact ⟨hs.whole, hs.stored⟩
  | @quiet act phase h =>
    refine .of_quiet hs.whole ?_
    intro p hp
    obtain rfl : phase = .returned (some p) 0 := hp
    exact h rfl
  | found _ => exact .of_quiet hs.whole (fun _ hp => by cases hp)
  | verified _ => exact .of_quiet hs.whole (fun _ hp => by cases hp)
  | list _ => exact .of_quiet hs.whole (fun _ hp => by cases hp)
  | hasBin _ _ => exact .of_quiet hs.whole (fun _ hp => by cases hp)
  | @putBin p remote answered hcopy h =>
    unfold PhaseOk at hphase
    rw [hcopy] at hphase
    refine .of_quiet (hs.whole.putBin (hphase.2.1.mp h)) ?_
    intro q hq
    cases answered <;> cases hq
  | hasJson _ => exact .of_quiet hs.whole (fun _ hp => by cases hp)
  | @putJson p remote answered hcopy =>
    unfold PhaseOk at hphase
    rw [hcopy] at hphase
    obtain ⟨data, hdata, hfits⟩ := hphase
    refine .of_quiet (hs.whole.putJson hdata hfits) ?_
    intro q hq
    cases answered <;> cases hq
  | @finish p hcopy =>
    refine ⟨hs.whole, ?_⟩
    intro q hq
    unfold PhaseOk at hphase
    rw [hcopy] at hphase
    dsimp only at hq
    split_ifs at hq with hcomplete
    · obtain rfl := Option.some.inj (Phase.returned.inj hq).1
      -- the sizes in the listing say that the record is there, and nothing of what it states
      obtain ⟨js, hjs, -⟩ := Option.map_eq_some_iff.mp (of_decide_eq_true hcomplete).2
      exact ⟨hphase, hjs ▸ Option.some_ne_none js⟩
    · cases hq

/-- **A copy in the store is complete, and is when a run says so**, in every state of every run in
which no run lists a store that has a receipt of its span that is not of the record it has read. -/
theorem spine_copies_kept {trace : List (Site Receipt Text × Act Receipt Text × Site Receipt Text)}
    (h : CopyRun cfg trace s) (hmeets : ∀ t ∈ trace, Meets cfg t.1 t.2.1) :
    CopyKept cfg s ∧ ∀ t ∈ trace, CopyKept cfg t.1 := by
  have hinit : ∀ s : Site Receipt Text, Starts cfg s → CopyKept cfg s ∧ PhaseOk cfg s := by
    intro s hs
    constructor
    · refine .of_quiet hs.2 ?_
      intro p hp
      rw [hs.1] at hp
      cases hp
    · refine .of_quiet ?_
      rw [hs.1]
      trivial
  have hstep : ∀ (s : Site Receipt Text) (act : Act Receipt Text) (s' : Site Receipt Text),
      CopyKept cfg s ∧ PhaseOk cfg s → CopyStep cfg s act s' ∧ Meets cfg s act →
        CopyKept cfg s' ∧ PhaseOk cfg s' := fun s act s' hs hstep =>
    ⟨hs.1.moves hs.2 hstep.1.moves, hs.2.moves hstep.2 hstep.1.moves⟩
  have hrun := h.restrict (q := fun s act _ => Meets cfg s act) hmeets
  exact ⟨(hrun.invariant hinit hstep).1, fun t ht => (hrun.forall_steps hinit hstep t ht).1.1⟩

/-! ## The coordinator -/

variable {v : Verifier Receipt} {g : Digest Receipt Sha} {x : Inside Receipt}
  {d d' : Disk Receipt Sha} {after : Option (Inside Receipt)} {dumps : Head Sha → Text}

/-- A file operation of `submit_spine` replaces one of the two files at most. -/
theorem operates_replaces (h : Operates v g x d d' after) (hbin : s.bin = d.bin)
    (hjson : s.json = d.json.map dumps) :
    ∃ s', (s' = s ∨ ∃ act, CopyStep cfg s act s') ∧ s'.bin = d'.bin ∧
      s'.json = d'.json.map dumps ∧ s'.store = s.store ∧ s'.phase = s.phase := by
  cases h with
  | writeBin _ => exact ⟨s, .inl rfl, hbin, hjson, rfl, rfl⟩
  | replaceBin _ =>
    exact ⟨{ s with bin := some x.sub.receipt }, .inr ⟨.replaceBin _, rfl⟩, rfl, hjson, rfl, rfl⟩
  | writeJs _ => exact ⟨s, .inl rfl, hbin, hjson, rfl, rfl⟩
  | replaceJs _ =>
    refine ⟨{ s with json := some (dumps (g.head x.sub x.accepted x.ts)) }, ?_, hbin, rfl, rfl, rfl⟩
    exact .inr ⟨.replaceJson _, rfl⟩
  | leave _ => exact ⟨s, .inl rfl, hbin, hjson, rfl, rfl⟩

end Model

/-! ## Two receipts of one span -/

/-- What `sha256` is of the bytes `a` and `b`. -/
def sha256Of (receipt : List UInt8) : ℕ :=
  if receipt = [0x61] then 0xca978112ca1bbdcafac231b39a23dc4da786eff8147c4e72b9807785afee48bb
  else 0x3e23e8160039594a33894f6564e1b1348bbd7a0088d42c4acb73eeaed59c009d

/-- The record of the receipt `a`. -/
def textA : String :=
  "\x7b\"lo\": 1, \"hi\": 7, \"sha256\": \"ca978112ca1bbdcafac231b39a23dc4da786eff8147c4e72b9807785afee48bb\", \"bytes\": 1\x7d"

/-- The record of the receipt `b`, of the same span. -/
def textB : String :=
  "\x7b\"lo\": 1, \"hi\": 7, \"sha256\": \"3e23e8160039594a33894f6564e1b1348bbd7a0088d42c4acb73eeaed59c009d\", \"bytes\": 1\x7d"

/-- The digest and the parser, on these two receipts and texts. -/
def config : Config (List UInt8) String ℕ where
  digest := ⟨sha256Of, List.length⟩
  loads js :=
    .dict ⟨some 1, some 7, some (sha256Of (if js = textA then [0x61] else [0x62])), some 1⟩
  size := String.length

/-- The box has the receipt `a` and its record, and the store is empty. -/
def site : Site (List UInt8) String :=
  { bin := some [0x61], json := some textA, store := {}, phase := .idle }

/-- A run that comes as far as its first upload. -/
def reads : List (Act (List UInt8) String) := [.start, .readJson, .readBin, .verify true, .list]

/-- The first run ends after the receipt. The coordinator has another one of the span when the
second comes. -/
def anotherReceipt : List (Act (List UInt8) String) :=
  reads ++ [.upload true true, .upload false false, .replaceBin (some [0x62]),
    .replaceJson (some textB)] ++ reads ++ [.upload true true, .upload true true, .finish]

/-- The run of a script, as far as it goes. -/
def played (script : List (Act (List UInt8) String)) := Runs.play (Site.next config) site script

theorem played_run (script : List (Act (List UInt8) String)) :
    CopyRun config (played script).1 (played script).2 := by
  have hstarts : Starts config site := by
    refine ⟨rfl, ?_⟩
    intro span js hjs
    cases hjs
  exact Runs.Run.play (fun _ _ _ h => h) hstarts script

theorem not_fits_textB : ¬ Fits config [0x61] textB := by
  rintro ⟨r, hr, hsha, -⟩
  obtain rfl := Loaded.dict.inj hr
  have hne : textB ≠ textA := by decide
  rw [if_neg hne] at hsha
  exact absurd (Option.some.inj hsha) (by decide)

/-- The record of `b` is in the store beside the receipt `a`, and the run has returned 0. -/
theorem copy_marked_incomplete : ∃ trace s, CopyRun config trace s ∧ ¬ s.store.Whole config ∧
    ∃ p, s.phase = .returned (some p) 0 ∧ s.store.bin p.span = some [0x61] ∧
      ¬ Fits config [0x61] p.js := by
  have hbin : (played anotherReceipt).2.store.bin ⟨1, 7⟩ = some [0x61] := rfl
  refine ⟨_, _, played_run anotherReceipt, ?_, ⟨[0x62], textB, 1, 7⟩, rfl, hbin, not_fits_textB⟩
  intro hwhole
  obtain ⟨data, hdata, hfits⟩ := hwhole ⟨1, 7⟩ textB rfl
  obtain rfl := Option.some.inj (hbin.symm.trans hdata)
  exact not_fits_textB hfits

/-- A run ends after the receipt, and the next one finds it and brings its record. -/
def resumedCopy : List (Act (List UInt8) String) :=
  reads ++ [.upload true true, .die] ++ reads ++ [.upload false false, .upload true true, .finish]

theorem fits_textA : Fits config [0x61] textA := ⟨_, rfl, rfl, rfl⟩

/-- A copy that was cut off after its receipt is completed by the next run. -/
theorem spine_copies_kept_resumed : CopyKept config (played resumedCopy).2 ∧
    ∃ p, (played resumedCopy).2.phase = .returned (some p) 0 := by
  have hlists : ∀ o : Option (List UInt8), o = none ∨ o = some [0x61] →
      ∀ data, o = some data → Fits config data textA := by
    rintro o (rfl | rfl) data hdata
    · cases hdata
    · exact Option.some.inj hdata ▸ fits_textA
  have hmeets : List.Forall (fun t => Meets config t.1 t.2.1) (played resumedCopy).1 :=
    ⟨trivial, trivial, trivial, trivial, hlists _ (.inl rfl), trivial, trivial,
      trivial, trivial, trivial, trivial, hlists _ (.inr rfl), trivial, trivial, trivial⟩
  exact ⟨(spine_copies_kept (played_run resumedCopy) (List.forall_iff_forall_mem.mp hmeets)).1,
    ⟨[0x61], textA, 1, 7⟩, rfl⟩

end SpineCopy
end Deploy
end Hazync
