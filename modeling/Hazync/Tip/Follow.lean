import Hazync.Lib.Runs
import Hazync.Tip.Chain
import Mathlib.Data.Finset.Lattice.Lemmas
import Mathlib.Logic.Function.Basic

/-!
# Following the tip (`coordinator/tip_smoke.py`, the session)

A session proves the tip blocks whose bundles are on the bridge, and blocks of the board while none
waits. The bridge is read when work is chosen, again before the board is asked, and while a board block
is proved. What was seen and what was passed over goes into a ledger. The height and the header of the
block that was proved last are kept, and the next one is held against them.

## One loop, three readings

The session has one loop. It looks for tip blocks; if there is none, it looks once more just before
it asks the board for work, so that a block which has appeared is not kept waiting; and while it
proves a board block it looks again from time to time, only to note what has appeared. Each reading
is the same function with the same effect: what is seen is marked as seen, and what is passed over
is put into the ledger, once. The difference is in what is done with the block that is chosen. After
the first reading a jump is declared to the check of the link, by adding the height to `jumped`.
After the second it is not.

The bundles are only ever added, with growing heights. A reading may fail, for the bridge is another
machine; it then lists nothing, which looks the same as an empty bridge. The coordinator may accept
the receipt of a block or not, and the session goes on from the block in both cases.

`next` is the step function, event by event. What each step does is said once, in `FollowMove`, with
what is known where it is taken; the proofs that follow split into its cases and never unfold
`next`.
-/

namespace Hazync
namespace Tip

open ByteStrings

/-- What is set for a session. A bundle from `TIP_FROM` on is one of the tip. -/
structure FollowConfig where
  tipMaxBehind : ℤ := 3
  TIP_FROM : ℕ := 967500
  allowTipGaps : Bool := false
  sha256 : Bytes → Bytes

/-- A line of the tip ledger. -/
inductive Note where
  | appeared (height : ℕ)
  | skipped (height chose : ℕ)
  | link (height : ℕ) (ok linked : Bool) (parent : Option String) (why : LinkWhy)
  | accepted (height : ℕ)
  deriving DecidableEq

/-- A tip block that was proved, and whether the coordinator accepted the receipt. -/
structure Proved where
  height : ℕ
  header : Option Bytes
  submitted : Bool
  deriving DecidableEq

/-- Where the session is. Of a range it has the height, if the range is one block. -/
inductive Doing where
  | top
  | asked
  | rechecked
  | offered (rng : Option ℕ)
  | proving (rng : Option ℕ)
  deriving DecidableEq

/-- The bridge and the session. `floor` and `header` are `proved_tip`. `proved` is not kept by the
    code. -/
structure Following where
  bundles : List ℕ
  floor : ℕ
  header : Option Bytes := none
  seenAt : Finset ℕ := ∅
  gapNoted : Finset ℕ := ∅
  jumped : Finset ℕ := ∅
  stagedHeader : ℕ → Option Bytes := fun _ => none
  ledger : List Note := []
  doing : Doing := .top
  proved : List Proved := []

/-- What happens next. A reading of the bridge may fail, and then it lists nothing. The document of a
    bundle is `none` if it cannot be fetched or read. -/
inductive FollowEvent where
  | appears (height : ℕ)
  | select (listed : Bool)
  | recheck (listed : Bool)
  | claim (answer : Option (Option ℕ))
  | decline
  | check (doc : Option (Option Bundle))
  | start
  | poll (listed : Bool)
  | fail
  | finish (submitted : Bool)

section Steps

variable (cfg : FollowConfig)

/-- `from_tip` -/
def FollowConfig.fromTip (rng : Option ℕ) : Bool := rng.any (cfg.TIP_FROM ≤ ·)

namespace Following

variable (s : Following)

/-- `tip_bundles_above`, the height of the block that was proved last. -/
def waiting (listed : Bool) : List ℕ := if listed then s.bundles.filter (s.floor < ·) else []

/-- What `pick_tip` chooses and passes over. -/
def choice (listed : Bool) : Option ℕ × List ℕ := chooseTip (s.waiting listed) cfg.tipMaxBehind

/-- What `pick_tip` notes. -/
def pickTip (listed : Bool) : Following :=
  let hs := s.waiting listed
  let (chosen, skipped) := s.choice cfg listed
  { s with
    seenAt := s.seenAt ∪ hs.toFinset
    gapNoted := s.gapNoted ∪ skipped.toFinset
    ledger := s.ledger ++ (hs.filter (· ∉ s.seenAt)).map .appeared ++
      (skipped.filter (· ∉ s.gapNoted)).map fun h => .skipped h (chosen.getD 0) }

/-- The header that the next link is held against. A jump that was recorded is held against none. -/
def parent (height : ℕ) : Option Bytes := if height ∈ s.jumped then none else s.header

/-- The check of a tip block before it is proved. -/
def checked (height : ℕ) (doc : Option Bundle) : Following :=
  let v := verdict cfg.sha256 doc height (s.parent height) none
  let noted := { s with ledger := s.ledger ++ [Note.link height v.ok v.linked v.parent v.why] }
  if ¬ v.ok ∧ ¬ cfg.allowTipGaps then { noted with doing := .top }
  else
    match doc with
    | none => { noted with doing := .top }
    | some b =>
      { noted with
        stagedHeader := Function.update s.stagedHeader height (bundleHeader b)
        doing := .proving (some height) }

/-- What `prove_one` does when a tip block is proved, whatever the coordinator said to its receipt. -/
def promoted (height : ℕ) (submitted : Bool) : Following :=
  { s with
    floor := height
    header := s.stagedHeader height
    stagedHeader := fun _ => none
    ledger := s.ledger ++ [Note.accepted height]
    doing := .top
    proved := s.proved ++ [⟨height, s.stagedHeader height, submitted⟩] }

/-- The step of the session. -/
def next : FollowEvent → Option Following
  | .appears height =>
    if ∀ b ∈ s.bundles, b < height then some { s with bundles := s.bundles ++ [height] } else none
  | .select listed =>
    if s.doing = .top then
      let s' := s.pickTip cfg listed
      match s.choice cfg listed with
      | (some h, skipped) =>
        some { s' with
          jumped := if skipped = [] then s.jumped else insert h s.jumped
          doing := .offered (some h) }
      | (none, _) => some { s' with doing := .asked }
    else none
  | .recheck listed =>
    if s.doing = .asked then
      let s' := s.pickTip cfg listed
      match s.choice cfg listed with
      | (some h, _) => some { s' with doing := .offered (some h) }
      | (none, _) => some { s' with doing := .rechecked }
    else none
  | .claim answer =>
    if s.doing = .rechecked then
      match answer with
      | none => some { s with doing := .top }
      | some rng => some { s with doing := .offered rng }
    else none
  | .decline =>
    match s.doing with
    | .asked | .offered _ => some { s with doing := .top }
    | _ => none
  | .check doc =>
    match s.doing with
    | .offered (some h) =>
      if cfg.fromTip (some h) then
        match doc with
        | none => some { s with doing := .top }
        | some d => some (s.checked cfg h d)
      else none
    | _ => none
  | .start =>
    match s.doing with
    | .offered rng => if cfg.fromTip rng then none else some { s with doing := .proving rng }
    | _ => none
  | .poll listed =>
    match s.doing with
    | .proving rng =>
      if cfg.fromTip rng then none
      else
        let s' := s.pickTip cfg listed
        -- a tip block that waits ends the board block
        if (s.choice cfg listed).1.isSome then some { s' with doing := .top } else some s'
    | _ => none
  | .fail =>
    match s.doing with
    | .proving _ => some { s with doing := .top }
    | _ => none
  | .finish submitted =>
    match s.doing with
    | .proving (some h) =>
      if cfg.fromTip (some h) then some (s.promoted h submitted) else some { s with doing := .top }
    | .proving none => some { s with doing := .top }
    | _ => none

end Following

end Steps

/-! ## Moves -/

/-- What a step does, with what it is known to start from. -/
inductive FollowMove (cfg : FollowConfig) (s : Following) : FollowEvent → Following → Prop
  | appears {h : ℕ} (hnew : ∀ b ∈ s.bundles, b < h) :
      FollowMove cfg s (.appears h) { s with bundles := s.bundles ++ [h] }
  | selected {listed : Bool} {h : ℕ} {skipped : List ℕ}
      (hchoice : s.choice cfg listed = (some h, skipped)) :
      FollowMove cfg s (.select listed)
        { s.pickTip cfg listed with
          jumped := if skipped = [] then s.jumped else insert h s.jumped
          doing := .offered (some h) }
  | rechecked {listed : Bool} {h : ℕ} {skipped : List ℕ}
      (hchoice : s.choice cfg listed = (some h, skipped)) :
      FollowMove cfg s (.recheck listed) { s.pickTip cfg listed with doing := .offered (some h) }
  | read {listed : Bool} {e : FollowEvent} {doing : Doing} (hidle : ∀ rng, doing ≠ .offered rng)
      (hboard : ∀ rng, doing = .proving rng → cfg.fromTip rng = false) :
      FollowMove cfg s e { s.pickTip cfg listed with doing := doing }
  | claimed {rng : Option ℕ} : FollowMove cfg s (.claim (some rng)) { s with doing := .offered rng }
  | rests {e : FollowEvent} : FollowMove cfg s e { s with doing := .top }
  | checks {h : ℕ} {doc : Option Bundle} (hdoing : s.doing = .offered (some h))
      (htip : cfg.fromTip (some h)) : FollowMove cfg s (.check (some doc)) (s.checked cfg h doc)
  | starts {rng : Option ℕ} (hboard : cfg.fromTip rng = false) :
      FollowMove cfg s .start { s with doing := .proving rng }
  | promotes {h : ℕ} {submitted : Bool} (hdoing : s.doing = .proving (some h))
      (htip : cfg.fromTip (some h)) : FollowMove cfg s (.finish submitted) (s.promoted h submitted)

/-- Each step is one of the moves. -/
theorem FollowMove.of_next {cfg : FollowConfig} {s s' : Following} {e : FollowEvent}
    (h : s.next cfg e = some s') : FollowMove cfg s e s' := by
  -- one case per event and per what the follower was doing
  cases e with
  | appears height =>
    simp only [Following.next] at h
    split_ifs at h with hnew
    obtain rfl := Option.some.inj h
    exact .appears hnew
  | select listed =>
    simp only [Following.next] at h
    split_ifs at h
    split at h
    case h_1 hchoice =>
      obtain rfl := Option.some.inj h
      exact .selected hchoice
    case h_2 =>
      obtain rfl := Option.some.inj h
      exact .read (by simp) (by simp)
  | recheck listed =>
    simp only [Following.next] at h
    split_ifs at h
    split at h
    case h_1 hchoice =>
      obtain rfl := Option.some.inj h
      exact .rechecked hchoice
    case h_2 =>
      obtain rfl := Option.some.inj h
      exact .read (by simp) (by simp)
  | claim answer =>
    simp only [Following.next] at h
    split_ifs at h
    cases answer with
    | none =>
      obtain rfl := Option.some.inj h
      exact .rests
    | some rng =>
      obtain rfl := Option.some.inj h
      exact .claimed
  | decline =>
    simp only [Following.next] at h
    split at h
    case h_1 | h_2 =>
      obtain rfl := Option.some.inj h
      exact .rests
    case h_3 => exact absurd h (by simp)
  | check doc =>
    simp only [Following.next] at h
    split at h
    case h_1 hdoing =>
      split_ifs at h with htip
      cases doc with
      | none =>
        obtain rfl := Option.some.inj h
        exact .rests
      | some d =>
        obtain rfl := Option.some.inj h
        exact .checks hdoing htip
    case h_2 => exact absurd h (by simp)
  | start =>
    simp only [Following.next] at h
    split at h
    case h_1 =>
      split_ifs at h with htip
      obtain rfl := Option.some.inj h
      exact .starts (Bool.eq_false_of_not_eq_true htip)
    case h_2 => exact absurd h (by simp)
  | poll listed =>
    simp only [Following.next] at h
    split at h
    case h_1 rng hdoing =>
      split_ifs at h with htip hchosen
      · obtain rfl := Option.some.inj h
        exact .read (by simp) (by simp)
      · obtain rfl := Option.some.inj h
        have hread : FollowMove cfg s (.poll listed) { s.pickTip cfg listed with doing := .proving rng } :=
          .read (by simp) fun rng' heq => by
            obtain rfl := Doing.proving.inj heq
            exact Bool.eq_false_of_not_eq_true htip
        have hsame : (s.pickTip cfg listed).doing = .proving rng := hdoing
        rw [← hsame] at hread
        exact hread
    case h_2 => exact absurd h (by simp)
  | fail =>
    simp only [Following.next] at h
    split at h
    · obtain rfl := Option.some.inj h
      exact .rests
    · exact absurd h (by simp)
  | finish submitted =>
    simp only [Following.next] at h
    split at h
    case h_1 hdoing =>
      split_ifs at h with htip
      · obtain rfl := Option.some.inj h
        exact .promotes hdoing htip
      · obtain rfl := Option.some.inj h
        exact .rests
    case h_2 =>
      obtain rfl := Option.some.inj h
      exact .rests
    case h_3 => exact absurd h (by simp)

end Tip
end Hazync
