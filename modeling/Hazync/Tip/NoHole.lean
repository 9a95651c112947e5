import Hazync.Tip.Follow
import Mathlib.Data.List.Chain

/-!
# A session leaves no silent hole

Every height that was seen is proved, still to be proved, or in the ledger as passed over, and the
blocks that were proved follow on one another. Two slips are in the way. A jump that is found when the
bridge is read again is recorded, but the check of the link is not told, and refuses the block. And a
block is noted as accepted whatever the coordinator said to its receipt.

## A hole that nobody sees

To skip a block is allowed. What must not happen is that a block is skipped and nobody can tell:
that it was seen, was not proved, and is not in the ledger. Nor should two blocks be proved in a row
as if they were linked when they are not. These are the clauses `covered` and `linked` of `NoHole`.
The others are on the ledger being right: that a jump which it admits to is not then refused by the
check, and that what it calls accepted was accepted.

## Why the invariant is as it is

A block goes through several hands before it is proved: it is chosen, its link is checked, its
header is staged, it is proved, and then the floor moves up. At each stage something may have been
seen or passed over in the meantime. So the invariant says of the block in hand why it may come next
(`Offered.route`): there was a jump to it and the ledger says so; or there is nothing yet to link
to; or it is the lowest of those that wait. Of one that is being proved it says moreover that the
staged header links to the last one, or need not (`Staged`).

The two slips are excluded by `Clean`, each at the step at which it happens. A jump that is found
when the bridge is read again is in the ledger but not in `jumped`, so the block is then held
against a header that cannot be its parent. A receipt that is rejected promotes the block all the
same. Both runs are given at the end.
-/

namespace Hazync
namespace Tip

open ByteStrings

variable {cfg : FollowConfig} {floor₀ : ℕ} {s s' : Following} {e : FollowEvent} {h x : ℕ}
  {listed : Bool} {skipped : List ℕ}

/-! ## What is meant -/

/-- The ledger says that the height was passed over. -/
def Recorded (ledger : List Note) (x : ℕ) : Prop := ∃ c, Note.skipped x c ∈ ledger

/-- The second block has the first for its parent. -/
def Child (sha256 : Bytes → Bytes) (p q : Proved) : Prop :=
  ∃ a b, p.header = some a ∧ q.header = some b ∧ parentOf b = blockHash sha256 a

/-- The blocks between two that are proved one after the other are recorded as passed over. -/
def JumpRecorded (ledger : List Note) (p q : ℕ) : Prop := ∃ x, Recorded ledger x ∧ p < x ∧ x < q

/-- One comes after the other, by its parent, or over a jump. -/
def Follows (sha256 : Bytes → Bytes) (ledger : List Note) (p q : Proved) : Prop :=
  Child sha256 p q ∨ JumpRecorded ledger p.height q.height

/-- The step refuses a block for its parent. -/
def RefusedAsGap (t : Following × FollowEvent × Following) (h : ℕ) : Prop :=
  ∃ linked parent why, why.isGap ∧ t.2.2.ledger = t.1.ledger ++ [Note.link h false linked parent why]

/-- That a session leaves no silent hole. `proved` are the blocks in the order they were proved, and
    the ledger is what is said of the others. -/
structure NoHole (cfg : FollowConfig) (floor₀ : ℕ)
    (trace : List (Following × FollowEvent × Following)) (s : Following) : Prop where
  /-- Blocks are proved in the order of their heights. -/
  increasing : s.proved.Pairwise (·.height < ·.height)
  /-- A height that was seen has been proved, is still there to be proved with nothing proved above
      it, or is in the ledger. -/
  covered : ∀ h ∈ s.seenAt, floor₀ < h →
    (∃ p ∈ s.proved, p.height = h) ∨
      (h ∈ s.bundles ∧ s.floor < h ∧ ∀ p ∈ s.proved, p.height < h) ∨ Recorded s.ledger h
  /-- Of two that follow each other the second is the other's child, or the jump between them is in
      the ledger. -/
  linked : s.proved.IsChain (Follows cfg.sha256 s.ledger)
  /-- No block is refused for its parent over a jump that is in the ledger. -/
  jumps : ∀ t ∈ trace, ∀ h, RefusedAsGap t h → ¬ JumpRecorded t.1.ledger t.1.floor h
  /-- What the ledger calls accepted has been proved, and the coordinator has taken its receipt. -/
  accepted : ∀ h, Note.accepted h ∈ s.ledger → ∃ p ∈ s.proved, p.height = h ∧ p.submitted

/-- What is asked of a step, in the state before it. -/
def Clean (cfg : FollowConfig) (s : Following) : FollowEvent → Prop
  -- the bridge has bundles of the tip only, and the board has none
  | .appears h => cfg.TIP_FROM ≤ h
  | .claim (some rng) => cfg.fromTip rng = false
  -- no jump is found only when the bridge is read again
  | .recheck listed =>
    (s.choice cfg listed).2 = [] ∨ (∃ h ∈ (s.choice cfg listed).1, h ∈ s.jumped) ∨ s.header = none
  -- the coordinator accepts the receipt of a tip block
  | .finish submitted => ∀ h, s.doing = .proving (some h) → cfg.fromTip (some h) → submitted
  | _ => True

/-! ## The invariant -/

/-- A tip block that is to be proved. -/
structure Offered (s : Following) (h : ℕ) : Prop where
  mem : h ∈ s.bundles
  above : s.floor < h
  /-- What is listed below it was recorded as passed over. -/
  between : ∀ x ∈ s.bundles, s.floor < x → x < h → Recorded s.ledger x
  /-- It is not below a block to which a jump was made. -/
  jumped : ∀ p ∈ s.jumped, p ≤ h
  /-- It was jumped to, and that is recorded; or there is nothing yet to link it to; or it is the
      next one. -/
  route : (h ∈ s.jumped ∧ JumpRecorded s.ledger s.floor h) ∨ s.header = none ∨
    (h ∉ s.jumped ∧ ∀ x ∈ s.bundles, s.floor < x → h ≤ x)

/-- The header that was staged is that of the next link. -/
def Staged (sha256 : Bytes → Bytes) (s : Following) (h : ℕ) : Prop :=
  ∃ b, s.stagedHeader h = some b ∧
    (s.header = none ∨ JumpRecorded s.ledger s.floor h ∨
      ∃ a, s.header = some a ∧ parentOf b = blockHash sha256 a)

/-- The invariant of a session. Its core is `below` and `linked`; the rest says why the block in
    hand may be put at the end of what is proved. -/
structure FollowInv (cfg : FollowConfig) (floor₀ : ℕ) (s : Following) : Prop where
  /-- The bundles that were read, in order. -/
  sorted : s.bundles.Pairwise (· < ·)
  /-- All of them are of the tip. -/
  tips : ∀ h ∈ s.bundles, cfg.TIP_FROM ≤ h
  /-- A height that was seen is among them. -/
  seen : ∀ h ∈ s.seenAt, h ∈ s.bundles
  /-- What was noted as a gap is in the ledger, -/
  noted : ∀ h ∈ s.gapNoted, Recorded s.ledger h
  /-- and the ledger passes over what was seen only. -/
  recorded : ∀ h, Recorded s.ledger h → h ∈ s.bundles
  /-- A jump is to a block that is still there, and was made because too many were waiting. -/
  jump : ∀ h ∈ s.jumped, s.floor < h → h ∈ s.bundles ∧ Jumps (s.waiting true) cfg.tipMaxBehind
  /-- Nothing above the floor has been proved. -/
  top : ∀ p ∈ s.proved, p.height ≤ s.floor
  /-- There is a header to link to as soon as a block has been proved, -/
  first : s.header = none → s.proved = []
  /-- and it is that of the last one, which is the floor. -/
  last : ∀ p ∈ s.proved.getLast?, p.height = s.floor ∧ p.header = s.header
  increasing : s.proved.Pairwise (·.height < ·.height)
  linked : s.proved.IsChain (Follows cfg.sha256 s.ledger)
  /-- Nothing that was seen is left behind: below the floor it is proved, or passed over in the
      ledger. -/
  below : ∀ h ∈ s.seenAt, floor₀ < h → h ≤ s.floor →
    (∃ p ∈ s.proved, p.height = h) ∨ Recorded s.ledger h
  accepted : ∀ h, Note.accepted h ∈ s.ledger → ∃ p ∈ s.proved, p.height = h ∧ p.submitted
  /-- A tip block in hand is one to be proved, -/
  offered : ∀ h, s.doing = .offered (some h) → cfg.fromTip (some h) → Offered s h
  /-- and when it is being proved its link has been checked too. -/
  proving : ∀ h, s.doing = .proving (some h) → cfg.fromTip (some h) →
    Offered s h ∧ Staged cfg.sha256 s h

/-- A session that starts: the bundles on the bridge are in order and of the tip. -/
def Following.Starts (cfg : FollowConfig) (floor₀ : ℕ) (s : Following) : Prop :=
  ∃ bundles : List ℕ, bundles.Pairwise (· < ·) ∧ (∀ h ∈ bundles, cfg.TIP_FROM ≤ h) ∧
    s = { bundles, floor := floor₀ }

/-- At the start nothing is seen, and nothing in hand. -/
theorem FollowInv.starts (hs : s.Starts cfg floor₀) : FollowInv cfg floor₀ s := by
  obtain ⟨bundles, hsorted, htips, rfl⟩ := hs
  have hnone (x : ℕ) : ¬ Recorded [] x := by
    rintro ⟨c, hc⟩
    exact List.not_mem_nil hc
  exact
    { sorted := hsorted
      tips := htips
      seen := by simp
      noted := by simp
      recorded := fun x hx => absurd hx (hnone x)
      jump := by simp
      top := by simp
      first := fun _ => rfl
      last := by simp
      increasing := .nil
      linked := .nil
      below := by simp
      accepted := by simp
      offered := by simp
      proving := by simp }

/-! ## Reading the bridge -/

/-- The ledger only grows. -/
theorem Recorded.append {ledger extra : List Note} (hx : Recorded ledger x) :
    Recorded (ledger ++ extra) x := by
  obtain ⟨c, hc⟩ := hx
  exact ⟨c, List.mem_append_left _ hc⟩

/-- So a jump stays recorded. -/
theorem JumpRecorded.append {ledger extra : List Note} {p q : ℕ} (hx : JumpRecorded ledger p q) :
    JumpRecorded (ledger ++ extra) p q := by
  obtain ⟨x, hx, hlt⟩ := hx
  exact ⟨x, hx.append, hlt⟩

/-- And the blocks follow as before. -/
theorem Follows.append {sha256 : Bytes → Bytes} {ledger extra : List Note} {p q : Proved}
    (hpq : Follows sha256 ledger p q) : Follows sha256 (ledger ++ extra) p q :=
  hpq.imp id JumpRecorded.append

/-- What waits is above the floor. -/
theorem mem_waiting : x ∈ s.waiting true ↔ x ∈ s.bundles ∧ s.floor < x := by
  simp [Following.waiting]

/-- What waits is on the bridge. -/
theorem mem_bundles_of_waiting (hx : x ∈ s.waiting listed) : x ∈ s.bundles := by
  cases listed with
  | true => exact (mem_waiting.mp hx).1
  | false => exact absurd hx List.not_mem_nil

/-- And it is above the floor, however the reading went. -/
theorem above_of_waiting (hx : x ∈ s.waiting listed) : s.floor < x := by
  cases listed with
  | true => exact (mem_waiting.mp hx).2
  | false => exact absurd hx List.not_mem_nil

/-- Only a reading that succeeds chooses a block. -/
theorem listed_of_choice (hchoice : s.choice cfg listed = (some h, skipped)) : listed = true := by
  by_contra hnot
  rw [Bool.eq_false_of_not_eq_true hnot] at hchoice
  exact absurd (Prod.mk.inj hchoice).1 (by simp)

/-- What a reading adds to the ledger. -/
theorem ledger_pickTip :
    (s.pickTip cfg listed).ledger =
      s.ledger ++ (((s.waiting listed).filter (· ∉ s.seenAt)).map Note.appeared ++
        ((s.choice cfg listed).2.filter (· ∉ s.gapNoted)).map fun h =>
          Note.skipped h ((s.choice cfg listed).1.getD 0)) := by
  simp [Following.pickTip]

/-- A reading records what it passes over. -/
theorem recorded_pickTip (hnoted : ∀ h ∈ s.gapNoted, Recorded s.ledger h) :
    Recorded (s.pickTip cfg listed).ledger x ↔
      Recorded s.ledger x ∨ x ∈ (s.choice cfg listed).2 := by
  rw [ledger_pickTip]
  constructor
  · rintro ⟨c, hc⟩
    obtain hc | hc := List.mem_append.mp hc
    · exact .inl ⟨c, hc⟩
    · obtain hc | hc := List.mem_append.mp hc
      · obtain ⟨h, -, heq⟩ := List.mem_map.mp hc
        exact absurd heq (by simp)
      · obtain ⟨h, hh, heq⟩ := List.mem_map.mp hc
        obtain rfl := (Note.skipped.inj heq).1
        exact .inr (List.mem_filter.mp hh).1
  · rintro (hx | hx)
    · exact hx.append
    · by_cases hin : x ∈ s.gapNoted
      · exact (hnoted x hin).append
      · refine ⟨_, List.mem_append_right _ (List.mem_append_right _ (List.mem_map.mpr ⟨x, ?_, rfl⟩))⟩
        exact List.mem_filter.mpr ⟨hx, decide_eq_true hin⟩

/-- A reading accepts nothing. -/
theorem accepted_pickTip :
    Note.accepted x ∈ (s.pickTip cfg listed).ledger ↔ Note.accepted x ∈ s.ledger := by
  simp [ledger_pickTip]

section Choice

variable (hs : FollowInv cfg floor₀ s)
include hs

/-- What waits is in order. -/
theorem FollowInv.waiting_sorted : (s.waiting true).Pairwise (· < ·) := hs.sorted.filter _

/-- What is passed over is on the bridge. -/
theorem FollowInv.mem_skipped (hchoice : s.choice cfg listed = (some h, skipped)) :
    x ∈ skipped ↔ (x ∈ s.bundles ∧ s.floor < x) ∧ x < h := by
  obtain rfl := listed_of_choice hchoice
  rw [Tip.mem_skipped hs.waiting_sorted hchoice, mem_waiting]

/-- What is chosen waits. -/
theorem FollowInv.chosen (hchoice : s.choice cfg listed = (some h, skipped)) :
    h ∈ s.bundles ∧ s.floor < h := by
  obtain rfl := listed_of_choice hchoice
  exact mem_waiting.mp (chosen_mem hs.waiting_sorted hchoice)

/-- Some are passed over only where too many wait. -/
theorem FollowInv.jumps_of_skipped (hchoice : s.choice cfg listed = (some h, skipped))
    (hskipped : skipped ≠ []) : Jumps (s.waiting true) cfg.tipMaxBehind := by
  obtain rfl := listed_of_choice hchoice
  by_contra hnot
  exact hskipped ((skipped_eq_nil hs.waiting_sorted hchoice).mpr hnot)

/-- Where none is passed over, not too many wait. -/
theorem FollowInv.not_jumps (hchoice : s.choice cfg listed = (some h, [])) :
    ¬ Jumps (s.waiting true) cfg.tipMaxBehind := by
  obtain rfl := listed_of_choice hchoice
  exact (skipped_eq_nil hs.waiting_sorted hchoice).mp rfl

/-- No jump that was declared before goes beyond the block that is chosen. -/
theorem FollowInv.jumped_le (hchoice : s.choice cfg listed = (some h, skipped)) {p : ℕ}
    (hp : p ∈ s.jumped) : p ≤ h := by
  obtain ⟨-, habove⟩ := hs.chosen hchoice
  obtain rfl := listed_of_choice hchoice
  by_cases hfloor : s.floor < p
  · obtain ⟨hmem, hjumps⟩ := hs.jump p hp hfloor
    exact chosen_greatest hs.waiting_sorted hchoice hjumps (mem_waiting.mpr ⟨hmem, hfloor⟩)
  · exact (not_lt.mp hfloor).trans habove.le

/-- What a reading records is on the bridge. -/
theorem FollowInv.recorded_pick (hrec : Recorded (s.pickTip cfg listed).ledger x) : x ∈ s.bundles := by
  obtain hrec | hskip := (recorded_pickTip hs.noted).mp hrec
  · exact hs.recorded x hrec
  · exact mem_bundles_of_waiting (subset_of_skipped hskip)

/-- A reading keeps what is known, whatever is done next. -/
theorem FollowInv.pick {j : Finset ℕ} {doing : Doing}
    (hj : ∀ p ∈ j, p ∈ s.jumped ∨ (p ∈ s.bundles ∧ Jumps (s.waiting true) cfg.tipMaxBehind))
    (hoffered : ∀ h, doing = .offered (some h) → cfg.fromTip (some h) →
      Offered { s.pickTip cfg listed with jumped := j, doing := doing } h)
    (hboard : ∀ rng, doing = .proving rng → cfg.fromTip rng = false) :
    FollowInv cfg floor₀ { s.pickTip cfg listed with jumped := j, doing := doing } where
  sorted := hs.sorted
  tips := hs.tips
  seen x hx := (Finset.mem_union.mp hx).elim (hs.seen x) fun hx =>
    mem_bundles_of_waiting (List.mem_toFinset.mp hx)
  noted x hx := (recorded_pickTip hs.noted).mpr <| (Finset.mem_union.mp hx).imp (hs.noted x) fun hx =>
    List.mem_toFinset.mp hx
  recorded x hx := hs.recorded_pick hx
  jump p hp hfloor := (hj p hp).elim (fun h => hs.jump p h hfloor) id
  top := hs.top
  first := hs.first
  last := hs.last
  increasing := hs.increasing
  linked := hs.linked.imp fun p q hpq => by
    rw [ledger_pickTip]
    exact hpq.append
  below x hx habove hle := by
    obtain hx | hx := Finset.mem_union.mp hx
    · exact (hs.below x hx habove hle).imp id fun hrec => (recorded_pickTip hs.noted).mpr (.inl hrec)
    · -- what is read now is above the block that was proved last
      have hfloor : s.floor < x := above_of_waiting (List.mem_toFinset.mp hx)
      exact absurd hfloor (not_lt.mpr hle)
  accepted x hx := hs.accepted x (accepted_pickTip.mp hx)
  offered := hoffered
  proving h hdoing htip := absurd (hboard _ hdoing) (by simp [htip])

/-- A block that is chosen can be proved, if its jump is declared. -/
theorem FollowInv.offer {j : Finset ℕ} {doing : Doing}
    (hchoice : s.choice cfg listed = (some h, skipped))
    (hj : ∀ p ∈ j, p ∈ s.jumped ∨ (p = h ∧ skipped ≠ []))
    (hroute : skipped ≠ [] → h ∈ j ∨ s.header = none) :
    Offered { s.pickTip cfg listed with jumped := j, doing := doing } h := by
  obtain ⟨hmem, habove⟩ := hs.chosen hchoice
  have hrec {x : ℕ} (hx : x ∈ skipped) : Recorded (s.pickTip cfg listed).ledger x := by
    rw [recorded_pickTip hs.noted, hchoice]
    exact .inr hx
  refine ⟨hmem, habove, fun x hx hfloor hlt => ?_, fun p hp => ?_, ?_⟩
  · exact hrec ((hs.mem_skipped hchoice).mpr ⟨⟨hx, hfloor⟩, hlt⟩)
  · obtain hp | ⟨rfl, -⟩ := hj p hp
    · exact hs.jumped_le hchoice hp
    · exact le_rfl
  · obtain rfl | hne := eq_or_ne skipped []
    · refine .inr (.inr ⟨fun hp => ?_, fun x hx hfloor => ?_⟩)
      · obtain hp | ⟨-, hne⟩ := hj h hp
        · exact hs.not_jumps hchoice (hs.jump h hp habove).2
        · exact hne rfl
      · by_contra hlt
        exact absurd ((hs.mem_skipped hchoice).mpr ⟨⟨hx, hfloor⟩, not_le.mp hlt⟩) List.not_mem_nil
    · obtain ⟨x, hx⟩ := List.exists_mem_of_ne_nil skipped hne
      obtain hdeclared | hnone := hroute hne
      · have hbetween := (hs.mem_skipped hchoice).mp hx
        exact .inl ⟨hdeclared, x, hrec hx, hbetween.1.2, hbetween.2⟩
      · exact .inr (.inl hnone)

end Choice

/-! ## Steps -/

/-- What is only about the place in the loop. -/
theorem FollowInv.rest {doing : Doing} (hs : FollowInv cfg floor₀ s)
    (hoffered : ∀ h, doing = .offered (some h) → cfg.fromTip (some h) = false)
    (hproving : ∀ h, doing = .proving (some h) → cfg.fromTip (some h) = false) :
    FollowInv cfg floor₀ { s with doing := doing } :=
  { hs with
    offered := fun h hdoing htip => absurd (hoffered h hdoing) (by simp [htip])
    proving := fun h hdoing htip => absurd (hproving h hdoing) (by simp [htip]) }

/-- A bundle appears, above the others. -/
theorem FollowInv.appears (hs : FollowInv cfg floor₀ s) (hnew : ∀ b ∈ s.bundles, b < h)
    (htip : cfg.TIP_FROM ≤ h) : FollowInv cfg floor₀ { s with bundles := s.bundles ++ [h] } := by
  have hkeeps {q : ℕ} (hq : Offered s q) : Offered { s with bundles := s.bundles ++ [h] } q := by
    refine ⟨List.mem_append_left _ hq.mem, hq.above, fun x hx hfloor hlt => ?_, hq.jumped, ?_⟩
    · obtain hx | hx := List.mem_append.mp hx
      · exact hq.between x hx hfloor hlt
      · rw [List.mem_singleton.mp hx] at hlt
        exact absurd (hnew q hq.mem) hlt.asymm
    · refine hq.route.imp id (Or.imp id (And.imp id fun hall x hx hfloor => ?_))
      obtain hx | hx := List.mem_append.mp hx
      · exact hall x hx hfloor
      · rw [List.mem_singleton.mp hx]
        exact (hnew q hq.mem).le
  have hgrows (hj : Jumps (s.waiting true) cfg.tipMaxBehind) :
      Jumps (Following.waiting { s with bundles := s.bundles ++ [h] } true) cfg.tipMaxBehind := by
    have hle : (s.waiting true).length ≤
        (Following.waiting { s with bundles := s.bundles ++ [h] } true).length := by
      simp [Following.waiting]
    exact ⟨hj.1, hj.2.1.trans_le (by exact_mod_cast hle), hj.2.2.trans hle⟩
  refine { hs with
    sorted := ?_, tips := ?_, seen := ?_, recorded := ?_, jump := ?_, offered := ?_, proving := ?_ }
  · refine List.pairwise_append.mpr ⟨hs.sorted, List.pairwise_singleton _ _, fun b hb x hx => ?_⟩
    rw [List.mem_singleton.mp hx]
    exact hnew b hb
  · intro x hx
    obtain hx | hx := List.mem_append.mp hx
    · exact hs.tips x hx
    · rw [List.mem_singleton.mp hx]
      exact htip
  · exact fun x hx => List.mem_append_left _ (hs.seen x hx)
  · exact fun x hx => List.mem_append_left _ (hs.recorded x hx)
  · exact fun p hp hfloor => (hs.jump p hp hfloor).imp (List.mem_append_left _) hgrows
  · exact fun q hdoing hq => hkeeps (hs.offered q hdoing hq)
  · exact fun q hdoing hq => (hs.proving q hdoing hq).imp hkeeps id

/-- The link that is checked is the next one, or is declared as a jump, or is the first. -/
theorem Offered.staged {header : Bytes} (hoffer : Offered s h)
    (hchild : ∀ p ∈ s.parent h, parentOf header = blockHash cfg.sha256 p) :
    s.header = none ∨ JumpRecorded s.ledger s.floor h ∨
      ∃ a, s.header = some a ∧ parentOf header = blockHash cfg.sha256 a := by
  obtain ⟨-, hrecorded⟩ | hnone | ⟨hnot, -⟩ := hoffer.route
  · exact .inr (.inl hrecorded)
  · exact .inl hnone
  · rw [Following.parent, if_neg hnot] at hchild
    cases hheader : s.header with
    | none => exact .inl rfl
    | some a => exact .inr (.inr ⟨a, rfl, hchild a hheader⟩)

/-- A line about a link passes nothing over. -/
theorem recorded_link {ledger : List Note} {linked ok : Bool} {parent : Option String} {why : LinkWhy} :
    Recorded (ledger ++ [Note.link h ok linked parent why]) x ↔ Recorded ledger x := by
  simp [Recorded]

/-- Nor does it accept anything. -/
theorem accepted_link {ledger : List Note} {linked ok : Bool} {parent : Option String} {why : LinkWhy} :
    Note.accepted x ∈ ledger ++ [Note.link h ok linked parent why] ↔ Note.accepted x ∈ ledger := by
  simp

/-- A block in hand stays one, whatever is added to the ledger. -/
theorem Offered.append {extra : List Note} {staged : ℕ → Option Bytes} {doing : Doing}
    (hoffer : Offered s h) :
    Offered { s with ledger := s.ledger ++ extra, stagedHeader := staged, doing := doing } h :=
  { hoffer with
    between := fun x hx hfloor hlt => (hoffer.between x hx hfloor hlt).append
    route := hoffer.route.imp (And.imp id JumpRecorded.append) id }

/-- A line about the link changes nothing that is known. -/
theorem FollowInv.link {linked ok : Bool} {parent : Option String} {why : LinkWhy} {q : ℕ}
    {staged : ℕ → Option Bytes} {doing : Doing} (hs : FollowInv cfg floor₀ s)
    (hoffered : ∀ h, doing ≠ .offered (some h))
    (hproving : ∀ h, doing = .proving (some h) → cfg.fromTip (some h) →
      Offered s h ∧ Staged cfg.sha256 { s with stagedHeader := staged } h) :
    FollowInv cfg floor₀
      { s with
        ledger := s.ledger ++ [Note.link q ok linked parent why]
        stagedHeader := staged
        doing := doing } := by
  refine { hs with
    noted := ?_, recorded := ?_, linked := ?_, below := ?_, accepted := ?_, offered := ?_, proving := ?_ }
  · exact fun x hx => (hs.noted x hx).append
  · exact fun x hx => hs.recorded x (recorded_link.mp hx)
  · exact hs.linked.imp fun _ _ hpq => hpq.append
  · exact fun x hx habove hle => (hs.below x hx habove hle).imp id Recorded.append
  · exact fun x hx => hs.accepted x (accepted_link.mp hx)
  · exact fun x hx => absurd hx (hoffered x)
  · intro x hx htip
    obtain ⟨hoffer, b, hb, hlink⟩ := hproving x hx htip
    exact ⟨hoffer.append, b, hb, hlink.imp id (Or.imp JumpRecorded.append id)⟩

/-- The link is checked. -/
theorem FollowInv.checks {doc : Option Bundle} (hgaps : cfg.allowTipGaps = false)
    (hs : FollowInv cfg floor₀ s) (hoffer : Offered s h) : FollowInv cfg floor₀ (s.checked cfg h doc) := by
  by_cases hok : (verdict cfg.sha256 doc h (s.parent h) none).ok
  · obtain ⟨b, header, rfl, hheader, hchild⟩ := header_of_ok hok
    have hchecked : s.checked cfg h (some b) =
        { s with
          ledger := s.ledger ++ [Note.link h true (verdict cfg.sha256 (some b) h (s.parent h) none).linked
            (verdict cfg.sha256 (some b) h (s.parent h) none).parent
            (verdict cfg.sha256 (some b) h (s.parent h) none).why]
          stagedHeader := Function.update s.stagedHeader h (bundleHeader b)
          doing := .proving (some h) } := by
      simp only [Following.checked, hok]
      rfl
    rw [hchecked]
    refine hs.link (by simp) fun q hq _ => ?_
    obtain rfl := Option.some.inj (Doing.proving.inj hq)
    exact ⟨hoffer, header, by simp [hheader], hoffer.staged hchild⟩
  · have hchecked : s.checked cfg h doc =
        { s with
          ledger := s.ledger ++ [Note.link h false (verdict cfg.sha256 doc h (s.parent h) none).linked
            (verdict cfg.sha256 doc h (s.parent h) none).parent
            (verdict cfg.sha256 doc h (s.parent h) none).why]
          stagedHeader := s.stagedHeader
          doing := .top } := by
      simp [Following.checked, hok, hgaps]
    rw [hchecked]
    exact hs.link (by simp) (by simp)

/-- The block is proved, and its receipt accepted. -/
theorem FollowInv.promotes (hs : FollowInv cfg floor₀ s) (hoffer : Offered s h)
    (hstaged : Staged cfg.sha256 s h) : FollowInv cfg floor₀ (s.promoted h true) := by
  obtain ⟨b, hb, hlink⟩ := hstaged
  have hrecorded {x : ℕ} (hx : Recorded (s.ledger ++ [Note.accepted h]) x) : Recorded s.ledger x := by
    simpa [Recorded] using hx
  have hmem : (⟨h, s.stagedHeader h, true⟩ : Proved) ∈ s.proved ++ [⟨h, s.stagedHeader h, true⟩] :=
    List.mem_append_right _ (List.mem_singleton.mpr rfl)
  refine { hs with
    noted := ?_, recorded := ?_, jump := ?_, top := ?_, first := ?_, last := ?_, increasing := ?_,
    linked := ?_, below := ?_, accepted := ?_, offered := ?_, proving := ?_ }
  · exact fun x hx => (hs.noted x hx).append
  · exact fun x hx => hs.recorded x (hrecorded hx)
  · exact fun p hp hlt => absurd hlt (not_lt.mpr (hoffer.jumped p hp))
  · intro p hp
    obtain hp | hp := List.mem_append.mp hp
    · exact (hs.top p hp).trans hoffer.above.le
    · rw [List.mem_singleton.mp hp]
      exact le_rfl
  -- the header that was staged is the last one now, so there is one
  · intro hnone
    exact absurd (hb.symm.trans hnone) (by simp)
  · intro p hp
    rw [Following.promoted, List.getLast?_concat] at hp
    obtain rfl := Option.some.inj hp
    exact ⟨rfl, rfl⟩
  · refine List.pairwise_append.mpr ⟨hs.increasing, List.pairwise_singleton _ _, fun p hp q hq => ?_⟩
    rw [List.mem_singleton.mp hq]
    exact (hs.top p hp).trans_lt hoffer.above
  · refine List.isChain_append.mpr
      ⟨hs.linked.imp fun _ _ hpq => hpq.append, .singleton _, fun p hp q hq => ?_⟩
    obtain rfl := Option.some.inj hq
    obtain ⟨hheight, hheader⟩ := hs.last p hp
    -- the new head's parent is the last proved one, unless a jump is noted
    obtain hnone | hjump | ⟨a, ha, hchild⟩ := hlink
    · rw [hs.first hnone] at hp
      exact absurd hp (by simp)
    · exact .inr (hheight ▸ hjump.append)
    · exact .inl ⟨a, b, hheader.trans ha, hb, hchild⟩
  · intro x hx habove hle
    by_cases hfloor : s.floor < x
    -- heights between were noted when they were passed over
    · obtain hlt | rfl := lt_or_eq_of_le hle
      · exact .inr (hoffer.between x (hs.seen x hx) hfloor hlt).append
      · exact .inl ⟨_, hmem, rfl⟩
    · refine (hs.below x hx habove (not_lt.mp hfloor)).imp ?_ Recorded.append
      rintro ⟨p, hp, heq⟩
      exact ⟨p, List.mem_append_left _ hp, heq⟩
  · intro x hx
    obtain hx | hx := List.mem_append.mp hx
    · obtain ⟨p, hp, hpx⟩ := hs.accepted x hx
      exact ⟨p, List.mem_append_left _ hp, hpx⟩
    · obtain rfl := Note.accepted.inj (List.mem_singleton.mp hx)
      exact ⟨_, hmem, rfl, rfl⟩
  · exact fun q hq => absurd hq (by simp [Following.promoted])
  · exact fun q hq => absurd hq (by simp [Following.promoted])

/-- A clean step. -/
theorem FollowInv.step (hgaps : cfg.allowTipGaps = false) (hs : FollowInv cfg floor₀ s)
    (hclean : Clean cfg s e) (h : FollowMove cfg s e s') : FollowInv cfg floor₀ s' := by
  cases h with
  | appears hnew => exact hs.appears hnew hclean
  | @selected listed h skipped hchoice =>
    have hdeclared : ∀ p ∈ (if skipped = [] then s.jumped else insert h s.jumped),
        p ∈ s.jumped ∨ (p = h ∧ skipped ≠ []) := by
      intro p hp
      split_ifs at hp with hnil
      · exact .inl hp
      · exact (Finset.mem_insert.mp hp).symm.imp id fun heq => ⟨heq, hnil⟩
    refine hs.pick (fun p hp => ?_) (fun q hq _ => ?_) (by simp)
    · refine (hdeclared p hp).imp id ?_
      rintro ⟨rfl, hne⟩
      exact ⟨(hs.chosen hchoice).1, hs.jumps_of_skipped hchoice hne⟩
    · obtain rfl := Option.some.inj (Doing.offered.inj hq)
      refine hs.offer hchoice hdeclared fun hne => .inl ?_
      rw [if_neg hne]
      exact Finset.mem_insert_self _ _
  | @rechecked listed h skipped hchoice =>
    refine hs.pick (fun p hp => .inl hp) (fun q hq _ => ?_) (by simp)
    obtain rfl := Option.some.inj (Doing.offered.inj hq)
    refine hs.offer hchoice (fun p hp => .inl hp) fun hne => ?_
    simp only [Clean, hchoice] at hclean
    obtain hnil | ⟨c, hc, hdeclared⟩ | hnone := hclean
    · exact absurd hnil hne
    · exact .inl (Option.some.inj hc ▸ hdeclared)
    · exact .inr hnone
  | read hidle hboard =>
    exact hs.pick (fun p hp => .inl hp) (fun q hq => absurd hq (hidle _)) hboard
  | @claimed rng =>
    refine hs.rest (fun q hq => ?_) (by simp)
    obtain rfl := Doing.offered.inj hq
    exact hclean
  | rests => exact hs.rest (by simp) (by simp)
  | checks hdoing htip => exact hs.checks hgaps (hs.offered _ hdoing htip)
  | starts hboard =>
    refine hs.rest (by simp) fun q hq => ?_
    obtain rfl := Doing.proving.inj hq
    exact hboard
  | @promotes h submitted hdoing htip =>
    obtain rfl : submitted = true := hclean h hdoing htip
    obtain ⟨hoffer, hstaged⟩ := hs.proving h hdoing htip
    exact hs.promotes hoffer hstaged

/-! ## Runs -/

/-- A run of a session. -/
def FollowRun (cfg : FollowConfig) (floor₀ : ℕ) :
    List (Following × FollowEvent × Following) → Following → Prop :=
  Runs.Run (Following.Starts cfg floor₀) fun s e s' => s.next cfg e = some s'

variable {trace : List (Following × FollowEvent × Following)}

/-- The check adds one line. -/
theorem ledger_checked {doc : Option Bundle} :
    (s.checked cfg h doc).ledger =
      s.ledger ++ [Note.link h (verdict cfg.sha256 doc h (s.parent h) none).ok
        (verdict cfg.sha256 doc h (s.parent h) none).linked
        (verdict cfg.sha256 doc h (s.parent h) none).parent
        (verdict cfg.sha256 doc h (s.parent h) none).why] := by
  simp only [Following.checked]
  split_ifs
  · rfl
  · cases doc <;> rfl

/-- Only the check of a link notes one. -/
theorem gap_of_move {linked : Bool} {parent : Option String} {why : LinkWhy} {q : ℕ}
    (h : FollowMove cfg s e s') (hgap : why.isGap)
    (hledger : s'.ledger = s.ledger ++ [Note.link q false linked parent why]) :
    s.doing = .offered (some q) ∧ cfg.fromTip (some q) ∧ s.parent q ≠ none := by
  have hread (listed : Bool) :
      (s.pickTip cfg listed).ledger ≠ s.ledger ++ [Note.link q false linked parent why] := by
    rw [ledger_pickTip]
    intro heq
    have hmem := List.append_cancel_left heq ▸ List.mem_singleton.mpr rfl
    simp at hmem
  cases h with
  | appears | claimed | rests | starts => exact absurd hledger (by simp)
  | selected | rechecked | read => exact absurd hledger (hread _)
  | promotes => exact absurd hledger (by simp [Following.promoted])
  | @checks h doc hdoing htip =>
    rw [ledger_checked] at hledger
    obtain ⟨rfl, -, -, -, rfl⟩ := Note.link.inj (List.singleton_inj.mp (List.append_cancel_left hledger))
    exact ⟨hdoing, htip, prev_of_gap hgap⟩

/-- A block that is refused for its parent was not jumped to. -/
theorem FollowInv.not_jump (hs : FollowInv cfg floor₀ s) (h : FollowMove cfg s e s') {q : ℕ}
    (hrefused : RefusedAsGap (s, e, s') q) : ¬ JumpRecorded s.ledger s.floor q := by
  obtain ⟨linked, parent, why, hgap, hledger⟩ := hrefused
  obtain ⟨hdoing, htip, hparent⟩ := gap_of_move h hgap hledger
  have hoffer := hs.offered q hdoing htip
  rintro ⟨x, hx, habove, hlt⟩
  obtain ⟨hjumped, -⟩ | hnone | ⟨-, hall⟩ := hoffer.route
  · exact hparent (if_pos hjumped)
  · refine hparent ?_
    rw [Following.parent, hnone, ite_self]
  · exact absurd (hall x (hs.recorded x hx) habove) (not_le.mpr hlt)

/-- In a session whose steps are clean, no height is lost from sight, the blocks that are proved follow
    on one another, no jump is refused, and what is noted as accepted was accepted. -/
theorem no_hole (hgaps : cfg.allowTipGaps = false) (hrun : FollowRun cfg floor₀ trace s)
    (hclean : ∀ t ∈ trace, Clean cfg t.1 t.2.1) : NoHole cfg floor₀ trace s := by
  have hrun := Runs.Run.restrict (q := fun s e _ => Clean cfg s e) hrun hclean
  have hstep : ∀ s e s', FollowInv cfg floor₀ s → (s.next cfg e = some s' ∧ Clean cfg s e) →
      FollowInv cfg floor₀ s' :=
    fun s e s' hs h => hs.step hgaps h.2 (.of_next h.1)
  have hs : FollowInv cfg floor₀ s := hrun.invariant (fun _ => FollowInv.starts) hstep
  refine ⟨hs.increasing, fun h hh habove => ?_, hs.linked, fun t ht h hrefused => ?_, hs.accepted⟩
  · by_cases hfloor : s.floor < h
    · exact .inr (.inl ⟨hs.seen h hh, hfloor, fun p hp => (hs.top p hp).trans_lt hfloor⟩)
    · exact (hs.below h hh habove (not_lt.mp hfloor)).imp id .inr
  · obtain ⟨hinv, hnext, -⟩ := hrun.forall_steps (fun _ => FollowInv.starts) hstep t ht
    exact hinv.not_jump (.of_next hnext) hrefused

/-! ## Two slips -/

/-- The header of zeros, its SHA-256 and the SHA-256 of that. -/
def zeros : Bytes := List.replicate 80 0

def zerosOnce : Bytes :=
  [0x5b, 0x6f, 0xb5, 0x8e, 0x61, 0xfa, 0x47, 0x59, 0x39, 0x76, 0x7d, 0x68, 0xa4, 0x46, 0xf9,
    0x7f, 0x1b, 0xff, 0x2, 0xc0, 0xe5, 0x93, 0x5a, 0x3e, 0xa8, 0xbb, 0x51, 0xe6, 0x51, 0x57,
    0x83, 0xd8]

def zerosTwice : Bytes :=
  [0x4b, 0xe7, 0x57, 0xe, 0x8f, 0x70, 0xeb, 0x9, 0x36, 0x40, 0xc8, 0x46, 0x82, 0x74, 0xba, 0x75,
    0x97, 0x45, 0xa7, 0xaa, 0x2b, 0x7d, 0x25, 0xab, 0x1e, 0x4, 0x21, 0xb2, 0x59, 0x84, 0x50,
    0x14]

/-- The session of the runs below. No other text is hashed in them. -/
def session : FollowConfig :=
  { sha256 := fun b => if b = zeros then zerosOnce else if b = zerosOnce then zerosTwice else [] }

/-- A bundle whose header names the parent and is zero elsewhere. -/
def bundleOn (height : ℤ) (parent : Bytes) : Bundle :=
  { height := some height
    headerBytes := some (List.replicate 4 0 ++ parent ++ List.replicate 44 0)
    inTip := none }

/-- The run of a script from a bridge that has the first bundle. -/
def followed (script : List FollowEvent) : List (Following × FollowEvent × Following) × Following :=
  Runs.play (Following.next session) { bundles := [967500], floor := 967499 } script

/-- It is a run. -/
theorem followed_run (script : List FollowEvent) :
    FollowRun session 967499 (followed script).1 (followed script).2 :=
  Runs.Run.play (fun _ _ _ h => h) ⟨[967500], by simp, by simp [session], rfl⟩ script

/-- The first tip block, and what the coordinator says to its receipt. -/
def firstBlock (submitted : Bool) : List FollowEvent :=
  [.select true, .check (some (some (bundleOn 967500 (List.replicate 32 0)))), .finish submitted]

/-- Its child. -/
def nextBlock : List FollowEvent :=
  [.appears 967501, .select true, .check (some (some (bundleOn 967501 zerosTwice))), .finish true]

/-- Four bundles appear after the bridge was read, and are found when it is read again. -/
def lateJump : List FollowEvent :=
  [.select true, .appears 967501, .appears 967502, .appears 967503, .appears 967504, .recheck true,
    .check (some (some (bundleOn 967504 (List.replicate 32 1))))]

/-- Two blocks, the second the child of the first. -/
theorem no_hole_two :
    (followed (firstBlock true ++ nextBlock)).2.proved.map Proved.height = [967500, 967501] ∧
      NoHole session 967499 (followed (firstBlock true ++ nextBlock)).1
        (followed (firstBlock true ++ nextBlock)).2 := by
  refine ⟨by decide, no_hole rfl (followed_run _) fun t ht => ?_⟩
  have hlabel := Runs.label_mem_of_play ht
  simp only [firstBlock, nextBlock, List.cons_append, List.nil_append, List.mem_cons,
    List.not_mem_nil, or_false] at hlabel
  obtain h | h | h | h | h | h | h := hlabel <;> rw [h]
  · trivial
  · trivial
  · exact fun _ _ _ => rfl
  · exact (by decide : 967500 ≤ 967501)
  · trivial
  · trivial
  · exact fun _ _ _ => rfl

/-- The run has steps. -/
theorem lateJump_moves : (followed (firstBlock true ++ lateJump)).1.getLast?.isSome := by
  decide

/-- The last step of the run, in which the block is checked. -/
def lateCheck : Following × FollowEvent × Following :=
  (followed (firstBlock true ++ lateJump)).1.getLast?.get lateJump_moves

/-- A receipt that is rejected is noted as accepted, and the jump to 967504, which is recorded, is
    refused as a gap. -/
theorem a_rejected_receipt_is_noted_as_accepted :
    (FollowRun session 967499 (followed (firstBlock false)).1 (followed (firstBlock false)).2 ∧
        ¬ NoHole session 967499 (followed (firstBlock false)).1 (followed (firstBlock false)).2) ∧
      (FollowRun session 967499 (followed (firstBlock true ++ lateJump)).1
          (followed (firstBlock true ++ lateJump)).2 ∧
        ¬ NoHole session 967499 (followed (firstBlock true ++ lateJump)).1
          (followed (firstBlock true ++ lateJump)).2) := by
  refine ⟨⟨followed_run _, fun hhole => ?_⟩, followed_run _, fun hhole => ?_⟩
  · have hnoted : Note.accepted 967500 ∈ (followed (firstBlock false)).2.ledger := by decide
    have hrejected : ∀ p ∈ (followed (firstBlock false)).2.proved, p.submitted = false := by
      decide
    obtain ⟨p, hp, -, hsubmitted⟩ := hhole.accepted 967500 hnoted
    exact absurd ((hrejected p hp).symm.trans hsubmitted) Bool.false_ne_true
  · have hledger : lateCheck.2.2.ledger = lateCheck.1.ledger ++
        [Note.link 967504 false false (some (displayHash (List.replicate 32 1)))
          (.gap 967504 (List.replicate 32 1) zerosTwice)] := by decide
    have hskipped : Note.skipped 967501 967504 ∈ lateCheck.1.ledger := by decide
    have hfloor : lateCheck.1.floor < 967501 := by decide
    exact hhole.jumps lateCheck (List.mem_of_getLast? (Option.some_get lateJump_moves).symm) 967504
      ⟨_, _, _, rfl, hledger⟩ ⟨967501, ⟨_, hskipped⟩, hfloor, by decide⟩

end Tip
end Hazync
