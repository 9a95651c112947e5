import Hazync.Lib.Runs
import Mathlib.Algebra.Order.Ring.Rat
import Mathlib.Data.Rat.Defs

/-!
# The spine (`coordinator/server.py`, `submit_spine`)

The head of the spine is a receipt in `spine.bin` and its record in `spine.json`. A submission is
verified outside the lock. Under the lock it is compared with the record, the receipt is replaced, and
then the record is. Each file is written beside the old one and takes its place by a rename, so what
is read is a whole file, but the two are replaced one after the other, and the coordinator can end
between them.

The record then says less than the receipt proves. The next submission to go through mends it.

## Why the files and not the head

One could model the spine as a head that a submission replaces by a higher one, and prove that it
only goes up. The question is what the disk has when the coordinator is killed, and for that the
replacement must be what it is: four operations on files, each of which may be the last. So a
submission under the lock has a point that it has come to, `advance` does the operation that comes
next, and `cut` ends it anywhere, with whatever the temporary files hold.

`Inv` is what is so between any two of these steps. The receipt goes first and its description
after, so the receipt on disk proves what the description says, or more. A crash between the two
replacements leaves them of different submissions (`Torn`), and what a worker then downloads does
not fit together: the description ends at a height at which the receipt does not. The next
replacement of `spine.json` puts it right, because that submission has replaced the receipt as well
(`Inv.published`).
-/

namespace Hazync
namespace Coordinator
namespace Spine

variable {Receipt Sha : Type}

/-! ## Verification -/

/-- What `verify_spine` returns of a receipt that it accepts. -/
structure Meta where
  lo : ℤ
  hi : ℤ
  inTip : String
  outTip : String
  outLeaves : ℤ
  rangeWork : String
  deriving DecidableEq

/-- What the host binary says of a receipt: whether `verify-range` exits with 0, and the `RANGE-OK`
    line of `verify-any` if that does. -/
structure Host (Receipt : Type) where
  verifyRange : Receipt → Bool
  verifyAny : Receipt → Option Meta

/-- `VERIFY`, with `COORD_ALLOW_MOCK` and `HOST_BIN`. -/
inductive Verifier (Receipt : Type) where
  | mock (allowed : Bool) (GENESIS_TIP : String)
  | real (host : Option (Host Receipt))

/-- `verify_spine`. A host that fails or is too slow only refuses. -/
def verifySpine : Verifier Receipt → Receipt → Option Meta
  | .mock false _, _ => none
  | .mock true genesis, _ =>
    some { lo := 1, hi := 0, outTip := "mock", inTip := genesis, outLeaves := 0, rangeWork := "0" }
  | .real none, _ => none
  | .real (some host), receipt =>
    if host.verifyRange receipt then (host.verifyAny receipt).filter (·.lo = 1) else none

/-! ## Files -/

/-- What a submission gives. -/
structure Submission (Receipt : Type) where
  receipt : Receipt
  pubkey : String
  handle : String

/-- `spine.json` -/
structure Head (Sha : Type) where
  lo : ℤ := 1
  hi : ℤ
  outTip : String
  outLeaves : ℤ
  rangeWork : String
  sha256 : Sha
  bytes : ℕ
  handle : String
  pubkey : String
  ts : ℚ
  deriving DecidableEq

/-- `SPINE_DIR`: the two files and the two that they are written to first. -/
structure Disk (Receipt Sha : Type) where
  bin : Option Receipt
  json : Option (Head Sha)
  tmpBin : Option Receipt := none
  tmpJs : Option (Head Sha) := none

/-- How a receipt is hashed and measured. -/
structure Digest (Receipt Sha : Type) where
  sha256 : Receipt → Sha
  len : Receipt → ℕ

/-- The record of a receipt that was accepted. -/
def Digest.head (g : Digest Receipt Sha) (b : Submission Receipt) (m : Meta) (ts : ℚ) : Head Sha :=
  { hi := m.hi, outTip := m.outTip, outLeaves := m.outLeaves, rangeWork := m.rangeWork
    sha256 := g.sha256 b.receipt, bytes := g.len b.receipt, handle := b.handle, pubkey := b.pubkey, ts }

/-! ## The critical section -/

/-- What was done last. -/
inductive Point where
  | checked
  | wroteBin
  | replacedBin
  | wroteJs
  | replacedJs
  deriving DecidableEq

/-- A submission under the lock. -/
structure Inside (Receipt : Type) where
  sub : Submission Receipt
  accepted : Meta
  ts : ℚ
  point : Point

/-- The coordinator and its disk. `verified` has the submissions that were accepted and wait for the
    lock. -/
structure Server (Receipt Sha : Type) where
  disk : Disk Receipt Sha
  verified : List (Submission Receipt × Meta) := []
  inside : Option (Inside Receipt) := none

/-- What can happen next. `advance` is the next file operation, and after the last of them the lock is
    given back. With `cut` a file operation fails or, if it is a `crash`, the coordinator ends and is
    started again. It leaves anything in the files that are written first. -/
inductive Act (Receipt Sha : Type) where
  | verify (b : Submission Receipt)
  | enter (i : ℕ) (ts : ℚ)
  | advance
  | cut (crash : Bool) (tmpBin : Option Receipt) (tmpJs : Option (Head Sha))

/-- The record does not refuse a height. -/
def advancesOn (cur : Option (Head Sha)) (hi : ℤ) : Prop := ∀ h ∈ cur, h.hi < hi

instance (cur : Option (Head Sha)) (hi : ℤ) : Decidable (advancesOn cur hi) :=
  inferInstanceAs (Decidable (∀ h ∈ cur, h.hi < hi))

section Steps

variable (v : Verifier Receipt) (g : Digest Receipt Sha)

/-- The next file operation of a submission. -/
def Disk.operate (d : Disk Receipt Sha) (x : Inside Receipt) :
    Option (Disk Receipt Sha × Option (Inside Receipt)) :=
  match x.point with
  | .checked => some ({ d with tmpBin := some x.sub.receipt }, some { x with point := .wroteBin })
  | .wroteBin =>
    d.tmpBin.map fun r => ({ d with bin := some r, tmpBin := none }, some { x with point := .replacedBin })
  | .replacedBin =>
    some ({ d with tmpJs := some (g.head x.sub x.accepted x.ts) }, some { x with point := .wroteJs })
  | .wroteJs =>
    d.tmpJs.map fun h => ({ d with json := some h, tmpJs := none }, some { x with point := .replacedJs })
  | .replacedJs => some (d, none)

/-- One step: a submission is verified, enters the section if it is free and is refused there if it
    does not advance the head, does its next operation, or is cut short. -/
def Server.next (s : Server Receipt Sha) : Act Receipt Sha → Option (Server Receipt Sha)
  | .verify b => (verifySpine v b.receipt).map fun m => { s with verified := (b, m) :: s.verified }
  | .enter i ts =>
    match s.inside, s.verified[i]? with
    | none, some (sub, accepted) =>
      -- the record is read again under the lock
      if advancesOn s.disk.json accepted.hi then
        some { s with verified := s.verified.eraseIdx i, inside := some ⟨sub, accepted, ts, .checked⟩ }
      else some { s with verified := s.verified.eraseIdx i }
    | _, _ => none
  | .advance => do
    let (disk, inside) ← s.disk.operate g (← s.inside)
    return { s with disk, inside }
  | .cut crash tmpBin tmpJs =>
    let disk := { s.disk with tmpBin, tmpJs }
    if crash then some { disk }
    else if s.inside.isSome then some { s with disk, inside := none }
    else none

end Steps

/-! ## What holds of the files -/

section Invariant

variable (v : Verifier Receipt) (g : Digest Receipt Sha)

/-- The record is that of the receipt, and the receipt was accepted. -/
def Records (h : Head Sha) (r : Receipt) : Prop :=
  ∃ b m ts, b.receipt = r ∧ verifySpine v r = some m ∧ h = g.head b m ts

/-- There is no spine, or a receipt and its record. -/
inductive Disk.Matched (d : Disk Receipt Sha) : Prop
  | none (hbin : d.bin = none) (hjson : d.json = none)
  | some {r : Receipt} {h : Head Sha} (hbin : d.bin = some r) (hjson : d.json = some h)
      (hrecords : Records v g h r)

/-- The receipt was accepted, and proves as much as the record says. -/
def Disk.Covers (d : Disk Receipt Sha) (hi : ℤ) : Prop :=
  ∃ r m, d.bin = some r ∧ verifySpine v r = some m ∧ hi ≤ m.hi

/-- What is done at a point of the section. -/
structure Inside.Done (x : Inside Receipt) (d : Disk Receipt Sha) : Prop where
  /-- The verifier has accepted the receipt before the section is entered. -/
  accepted : verifySpine v x.sub.receipt = some x.accepted
  /-- The head on disk still is behind, up to the last replacement. -/
  advances : x.point ≠ .replacedJs → advancesOn d.json x.accepted.hi
  /-- Each file is written under a temporary name and then moved. -/
  wroteBin : x.point = .wroteBin → d.tmpBin = some x.sub.receipt
  /-- The receipt goes first, the description of it after. -/
  replacedBin : x.point ∈ [.replacedBin, .wroteJs, .replacedJs] → d.bin = some x.sub.receipt
  wroteJs : x.point = .wroteJs → d.tmpJs = some (g.head x.sub x.accepted x.ts)
  replacedJs : x.point = .replacedJs → d.json = some (g.head x.sub x.accepted x.ts)

/-- What is so of a server between any two steps. The two files may disagree for a moment, and then
    the receipt goes further than its description, never less far. -/
structure Inv (s : Server Receipt Sha) : Prop where
  /-- What waits for the lock has been verified. -/
  verified : ∀ w ∈ s.verified, verifySpine v w.1.receipt = some w.2
  /-- What is in the section has done what its point says. -/
  inside : ∀ x ∈ s.inside, x.Done v g s.disk
  /-- The receipt on disk verifies, whoever wrote it. -/
  bin : ∀ r ∈ s.disk.bin, (verifySpine v r).isSome
  /-- And it covers the height that the description claims. -/
  json : ∀ h ∈ s.disk.json, s.disk.Covers v h.hi

/-- Where a coordinator starts: nothing is being submitted, and the two files are those that a
    submission leaves, if there are any. -/
def Server.Starts (s : Server Receipt Sha) : Prop :=
  s.disk.Matched v g ∧ s.verified = [] ∧ s.inside = none

end Invariant

variable {v : Verifier Receipt} {g : Digest Receipt Sha} {s s' : Server Receipt Sha}
  {a : Act Receipt Sha} {d d' : Disk Receipt Sha} {x x' : Inside Receipt}

/-- Where the two files are of one submission, the receipt proves what the record says. -/
theorem Disk.Matched.covers {h : Head Sha} (hd : d.Matched v g) (hjson : h ∈ d.json) :
    d.Covers v h.hi := by
  cases hd with
  | none _ hnone => exact absurd (hnone ▸ hjson) (Option.not_mem_none h)
  | @some r h' hbin hsome hrecords =>
    obtain rfl : h' = h := Option.some.inj (hsome.symm.trans hjson)
    obtain ⟨b, m, ts, rfl, hm, rfl⟩ := hrecords
    exact ⟨_, m, hbin, hm, le_rfl⟩

/-- The invariant holds where a coordinator starts. -/
theorem Inv.starts (h : s.Starts v g) : Inv v g s := by
  obtain ⟨hd, hverified, hinside⟩ := h
  constructor
  · intro w hw
    exact absurd (hverified ▸ hw) List.not_mem_nil
  · intro x hx
    exact absurd (hinside ▸ hx) (Option.not_mem_none x)
  · intro r hr
    cases hd with
    | none hnone _ => exact absurd (hnone ▸ hr) (Option.not_mem_none r)
    | @some r' h hbin _ hrecords =>
      obtain rfl : r' = r := Option.some.inj (hbin.symm.trans hr)
      obtain ⟨b, m, ts, _, hm, _⟩ := hrecords
      exact Option.isSome_of_eq_some hm
  · intro h hh
    exact hd.covers hh

/-! ## What a step does -/

/-- The file operations, where each finds what the one before it left. -/
inductive Operates (v : Verifier Receipt) (g : Digest Receipt Sha) (x : Inside Receipt)
    (d : Disk Receipt Sha) : Disk Receipt Sha → Option (Inside Receipt) → Prop
  | writeBin (h : x.point = .checked) :
      Operates v g x d { d with tmpBin := some x.sub.receipt } (some { x with point := .wroteBin })
  | replaceBin (h : x.point = .wroteBin) :
      Operates v g x d { d with bin := some x.sub.receipt, tmpBin := none }
        (some { x with point := .replacedBin })
  | writeJs (h : x.point = .replacedBin) :
      Operates v g x d { d with tmpJs := some (g.head x.sub x.accepted x.ts) }
        (some { x with point := .wroteJs })
  | replaceJs (h : x.point = .wroteJs) :
      Operates v g x d { d with json := some (g.head x.sub x.accepted x.ts), tmpJs := none }
        (some { x with point := .replacedJs })
  | leave (h : x.point = .replacedJs) : Operates v g x d d none

/-- A submission that has done what its point says finds the file that it moves. -/
theorem Inside.Done.operates {after : Option (Inside Receipt)} (hx : x.Done v g d)
    (h : d.operate g x = some (d', after)) : Operates v g x d d' after := by
  unfold Disk.operate at h
  split at h
  case h_1 hp =>
    obtain ⟨rfl, rfl⟩ := Prod.mk.inj (Option.some.inj h)
    exact .writeBin hp
  case h_2 hp =>
    rw [hx.wroteBin hp] at h
    obtain ⟨rfl, rfl⟩ := Prod.mk.inj (Option.some.inj h)
    exact .replaceBin hp
  case h_3 hp =>
    obtain ⟨rfl, rfl⟩ := Prod.mk.inj (Option.some.inj h)
    exact .writeJs hp
  case h_4 hp =>
    rw [hx.wroteJs hp] at h
    obtain ⟨rfl, rfl⟩ := Prod.mk.inj (Option.some.inj h)
    exact .replaceJs hp
  case h_5 hp =>
    obtain ⟨rfl, rfl⟩ := Prod.mk.inj (Option.some.inj h)
    exact .leave hp

/-- What a step does to a coordinator. -/
inductive Moves (v : Verifier Receipt) (g : Digest Receipt Sha) (s : Server Receipt Sha) :
    Act Receipt Sha → Server Receipt Sha → Prop
  | verify {b : Submission Receipt} {m : Meta} (h : verifySpine v b.receipt = some m) :
      Moves v g s (.verify b) { s with verified := (b, m) :: s.verified }
  | enter {i : ℕ} {ts : ℚ} {w : Submission Receipt × Meta} (hfree : s.inside = none) (hw : w ∈ s.verified)
      (h : advancesOn s.disk.json w.2.hi) :
      Moves v g s (.enter i ts)
        { s with verified := s.verified.eraseIdx i, inside := some ⟨w.1, w.2, ts, .checked⟩ }
  | refuse {i : ℕ} {ts : ℚ} (hfree : s.inside = none) :
      Moves v g s (.enter i ts) { s with verified := s.verified.eraseIdx i }
  | operate {x : Inside Receipt} {d : Disk Receipt Sha} {after : Option (Inside Receipt)}
      (hx : s.inside = some x) (h : Operates v g x s.disk d after) :
      Moves v g s .advance { s with disk := d, inside := after }
  | cut {crash : Bool} {tmpBin : Option Receipt} {tmpJs : Option (Head Sha)}
      {verified : List (Submission Receipt × Meta)} (h : verified ⊆ s.verified) :
      Moves v g s (.cut crash tmpBin tmpJs)
        { disk := { s.disk with tmpBin := tmpBin, tmpJs := tmpJs }, verified := verified }

/-- **A step is one of the moves**, for a server that satisfies the invariant: no operation fails
    for want of its file. -/
theorem Inv.moves (hs : Inv v g s) (h : s.next v g a = some s') : Moves v g s a s' := by
  cases a with
  | verify b =>
    obtain ⟨m, hm, rfl⟩ := Option.map_eq_some_iff.mp h
    exact .verify hm
  | enter i ts =>
    simp only [Server.next] at h
    split at h
    case h_1 hfree hw =>
      split_ifs at h with hcur
      · obtain rfl := Option.some.inj h
        exact .enter hfree (List.mem_of_getElem? hw) hcur
      · obtain rfl := Option.some.inj h
        exact .refuse hfree
    case h_2 => exact absurd h (by simp)
  | advance =>
    obtain ⟨x, hx, h⟩ := Option.bind_eq_some_iff.mp h
    obtain ⟨⟨d, after⟩, hop, h⟩ := Option.bind_eq_some_iff.mp h
    obtain rfl := Option.some.inj h
    exact .operate hx ((hs.inside x hx).operates hop)
  | cut crash tmpBin tmpJs =>
    simp only [Server.next] at h
    split_ifs at h
    · obtain rfl := Option.some.inj h
      exact .cut (List.nil_subset _)
    · obtain rfl := Option.some.inj h
      exact .cut (List.Subset.refl _)

/-! ## What every step keeps -/

/-- A submission under the lock goes on from one point to the next. -/
theorem Inside.Done.operated {after : Option (Inside Receipt)} (hx : x.Done v g d)
    (h : Operates v g x d d' after) : ∀ x' ∈ after, x'.Done v g d' := by
  intro x' hx'
  cases h with
  | leave => exact absurd hx' (Option.not_mem_none x')
  | writeBin hp =>
    obtain rfl := Option.some.inj hx'
    exact ⟨hx.accepted, fun _ => hx.advances (by simp [hp]), fun _ => rfl, by simp, by simp, by simp⟩
  | replaceBin hp =>
    obtain rfl := Option.some.inj hx'
    exact ⟨hx.accepted, fun _ => hx.advances (by simp [hp]), by simp, fun _ => rfl, by simp, by simp⟩
  | writeJs hp =>
    obtain rfl := Option.some.inj hx'
    have hbin := hx.replacedBin (by simp [hp])
    exact ⟨hx.accepted, fun _ => hx.advances (by simp [hp]), by simp, fun _ => hbin, fun _ => rfl, by simp⟩
  | replaceJs hp =>
    obtain rfl := Option.some.inj hx'
    have hbin := hx.replacedBin (by simp [hp])
    exact ⟨hx.accepted, by simp, by simp, fun _ => hbin, by simp, fun _ => rfl⟩

/-- The receipt is only replaced by one that was accepted, and the record only by one that says as
    much as the receipt proves. -/
theorem Inside.Done.covers {after : Option (Inside Receipt)} (hx : x.Done v g d)
    (hjson : ∀ h ∈ d.json, d.Covers v h.hi) (h : Operates v g x d d' after) :
    ∀ h ∈ d'.json, d'.Covers v h.hi := by
  cases h with
  | writeBin | writeJs | leave => exact hjson
  | replaceBin hp =>
    intro h hh
    exact ⟨_, _, rfl, hx.accepted, (hx.advances (by simp [hp]) h hh).le⟩
  | replaceJs hp =>
    intro h hh
    obtain rfl := Option.some.inj hh
    exact ⟨_, _, hx.replacedBin (by simp [hp]), hx.accepted, le_rfl⟩

/-- **A step keeps the invariant.** -/
theorem Inv.step (hs : Inv v g s) (h : Moves v g s a s') : Inv v g s' := by
  cases h with
  | @verify b m hm =>
    refine ⟨fun w hw => ?_, hs.inside, hs.bin, hs.json⟩
    obtain rfl | hw := List.mem_cons.mp hw
    · exact hm
    · exact hs.verified w hw
  | @enter i ts w hfree hw hcur =>
    refine ⟨fun w hw => hs.verified w (List.mem_of_mem_eraseIdx hw), fun x hx => ?_, hs.bin, hs.json⟩
    obtain rfl := Option.some.inj hx
    exact ⟨hs.verified w hw, fun _ => hcur, by simp, by simp, by simp, by simp⟩
  | refuse hfree =>
    exact ⟨fun w hw => hs.verified w (List.mem_of_mem_eraseIdx hw), hs.inside, hs.bin, hs.json⟩
  | @operate x d after hx hop =>
    have hdone := hs.inside x hx
    refine ⟨hs.verified, hdone.operated hop, fun r hr => ?_, hdone.covers hs.json hop⟩
    cases hop with
    | writeBin | writeJs | replaceJs | leave => exact hs.bin r hr
    | replaceBin =>
      obtain rfl := Option.some.inj hr
      exact Option.isSome_of_eq_some hdone.accepted
  | cut hsub =>
    exact ⟨fun w hw => hs.verified w (hsub hw), fun x hx => absurd hx (Option.not_mem_none x), hs.bin,
      hs.json⟩

/-- The height in the record does not go down. -/
theorem Inv.height (hs : Inv v g s) (h : Moves v g s a s') :
    ∀ h ∈ s.disk.json, ∃ h' ∈ s'.disk.json, h.hi ≤ h'.hi := by
  intro h₀ hh
  cases h with
  | verify | enter | refuse | cut => exact ⟨h₀, hh, le_rfl⟩
  | @operate x d after hx hop =>
    cases hop with
    | writeBin | replaceBin | writeJs | leave => exact ⟨h₀, hh, le_rfl⟩
    | replaceJs hp => exact ⟨_, rfl, ((hs.inside x hx).advances (by simp [hp]) h₀ hh).le⟩

/-! ## Runs -/

/-- A submission has replaced `spine.bin` and not yet `spine.json`. -/
def Server.Between (s : Server Receipt Sha) : Prop :=
  ∃ x ∈ s.inside, x.point = .replacedBin ∨ x.point = .wroteJs

/-- A submission that ends between the two replacements. -/
def Torn (t : Server Receipt Sha × Act Receipt Sha × Server Receipt Sha) : Prop :=
  (∃ crash tmpBin tmpJs, t.2.1 = .cut crash tmpBin tmpJs) ∧ t.1.Between

/-- A replacement of `spine.json`. -/
def Publishes (t : Server Receipt Sha × Act Receipt Sha × Server Receipt Sha) : Prop :=
  t.2.1 = .advance ∧ ∃ x ∈ t.1.inside, x.point = .wroteJs

/-- Each submission that ended between the two replacements was followed by a replacement of
    `spine.json`. -/
def Mended (trace : List (Server Receipt Sha × Act Receipt Sha × Server Receipt Sha)) : Prop :=
  ∀ pre t post, trace = pre ++ t :: post → Torn t → ∃ t' ∈ post, Publishes t'

/-- A run of the coordinator. -/
def SpineRun (v : Verifier Receipt) (g : Digest Receipt Sha) :
    List (Server Receipt Sha × Act Receipt Sha × Server Receipt Sha) → Server Receipt Sha → Prop :=
  Runs.Run (Server.Starts v g) fun s a s' => s.next v g a = some s'

variable {trace : List (Server Receipt Sha × Act Receipt Sha × Server Receipt Sha)}
  {t : Server Receipt Sha × Act Receipt Sha × Server Receipt Sha}

theorem SpineRun.inv (h : SpineRun v g trace s) : Inv v g s :=
  Runs.Run.invariant (fun _ => Inv.starts) (fun _ _ _ hs h => hs.step (hs.moves h)) h

/-- A step that does not replace the record has mended nothing. -/
theorem Mended.of_snoc (h : Mended (trace ++ [t])) (ht : ¬ Publishes t) : Mended trace := by
  intro pre t₀ post heq htorn
  obtain ⟨t', ht', hpub⟩ := h pre t₀ (post ++ [t]) (by simp [heq]) htorn
  obtain ht' | ht' := List.mem_append.mp ht'
  · exact ⟨t', ht', hpub⟩
  · rw [List.mem_singleton.mp ht'] at hpub
    exact absurd hpub ht

/-- In a run that is mended, no submission is cut off between the two replacements at the end. -/
theorem Mended.not_torn (h : Mended (trace ++ [t])) : ¬ Torn t := by
  intro htorn
  obtain ⟨t', ht', _⟩ := h trace t [] rfl htorn
  exact List.not_mem_nil ht'

theorem Disk.Matched.of_eq (h : d.Matched v g) (hbin : d'.bin = d.bin) (hjson : d'.json = d.json) :
    d'.Matched v g := by
  cases h with
  | none hb hj => exact .none (hbin.trans hb) (hjson.trans hj)
  | some hb hj hrecords => exact .some (hbin.trans hb) (hjson.trans hj) hrecords

/-- A step that is not cut short between the two replacements leaves the files matched, or leaves a
    submission between them. -/
theorem Inv.matched (hs : Inv v g s) (h : Moves v g s a s') (htorn : ¬ Torn (s, a, s'))
    (hd : ¬ s.Between → s.disk.Matched v g) (hbetween : ¬ s'.Between) : s'.disk.Matched v g := by
  cases h with
  | verify => exact hd hbetween
  | enter hfree | refuse hfree =>
    refine hd ?_
    rintro ⟨x, hx, -⟩
    exact absurd (hfree ▸ hx) (Option.not_mem_none x)
  | cut hsub =>
    have hout : ¬ s.Between := fun h => htorn ⟨⟨_, _, _, rfl⟩, h⟩
    exact (hd hout).of_eq rfl rfl
  | @operate x d after hx hop =>
    have hdone := hs.inside x hx
    have hat (hp : x.point ≠ .replacedBin ∧ x.point ≠ .wroteJs) : s.disk.Matched v g := by
      refine hd ?_
      rintro ⟨x', hx', h⟩
      obtain rfl := Option.some.inj (hx.symm.trans hx')
      exact h.elim hp.1 hp.2
    cases hop with
    | writeBin hp => exact (hat (by simp [hp])).of_eq rfl rfl
    | replaceBin => exact absurd ⟨_, rfl, .inl rfl⟩ hbetween
    | writeJs => exact absurd ⟨_, rfl, .inr rfl⟩ hbetween
    | replaceJs hp =>
      exact .some (hdone.replacedBin (by simp [hp])) rfl
        ⟨x.sub, x.accepted, x.ts, rfl, hdone.accepted, rfl⟩
    | leave hp => exact hat (by simp [hp])

/-- A replacement of `spine.json` leaves the files matched, whatever they were. -/
theorem Inv.published (hs : Inv v g s) (h : Moves v g s a s') (hpub : Publishes (s, a, s')) :
    s'.disk.Matched v g := by
  obtain ⟨rfl, x, hx, hp⟩ := hpub
  cases h with
  | @operate x' d after hx' hop =>
    obtain rfl := Option.some.inj (hx'.symm.trans hx)
    have hdone := hs.inside _ hx'
    cases hop with
    | replaceJs _ =>
      exact .some (hdone.replacedBin (by simp [hp])) rfl
        ⟨_, _, _, rfl, hdone.accepted, rfl⟩
    | writeBin h | replaceBin h | writeJs h | leave h => exact absurd (h.symm.trans hp) (by decide)

/-- Outside the section the files match, in a run that is mended. -/
theorem SpineRun.matched (h : SpineRun v g trace s) (hmended : Mended trace) (hs : ¬ s.Between) :
    s.disk.Matched v g := by
  induction h with
  | nil h => exact h.1
  | @snoc trace s s' a h hstep ih =>
    have hinv := SpineRun.inv h
    have hmoves := hinv.moves hstep
    by_cases hpub : Publishes (s, a, s')
    · exact hinv.published hmoves hpub
    · exact hinv.matched hmoves hmended.not_torn (ih (hmended.of_snoc hpub)) hs

/-- The height in the record does not go down, through a whole run with its crashes. -/
theorem SpineRun.height (h : SpineRun v g trace s) :
    ∀ t ∈ trace, ∀ h ∈ t.1.disk.json, ∃ h' ∈ s.disk.json, h.hi ≤ h'.hi := by
  induction h with
  | nil _ => exact fun t ht => absurd ht List.not_mem_nil
  | @snoc trace s s' a h hstep ih =>
    have hinv := SpineRun.inv h
    have hlast := hinv.height (hinv.moves hstep)
    intro t ht h₀ hh
    obtain ht | ht := List.mem_append.mp ht
    · obtain ⟨h₁, hh₁, hle₁⟩ := ih t ht h₀ hh
      obtain ⟨h₂, hh₂, hle₂⟩ := hlast h₁ hh₁
      exact ⟨h₂, hh₂, hle₁.trans hle₂⟩
    · rw [List.mem_singleton.mp ht] at hh
      exact hlast h₀ hh

/-! ## The spine -/

/-- The chunk that `extend-spine` takes starts where the spine ends. -/
def adjacent (spine chunk : Meta) : Prop := chunk.lo = spine.hi + 1

instance (spine chunk : Meta) : Decidable (adjacent spine chunk) :=
  inferInstanceAs (Decidable (chunk.lo = spine.hi + 1))

/-- A worker that downloads the record and the receipt can extend the spine from where the record says
    that it ends. -/
def Disk.Extends (v : Verifier Receipt) (d : Disk Receipt Sha) : Prop :=
  ∀ h ∈ d.json, ∃ r m, d.bin = some r ∧ verifySpine v r = some m ∧
    ∀ chunk : Meta, chunk.lo = h.hi + 1 → adjacent m chunk

/-- From matched files a worker can go on where the record ends. -/
theorem Disk.Matched.extends (hd : d.Matched v g) : d.Extends v := by
  intro h hh
  cases hd with
  | none _ hnone => exact absurd (hnone ▸ hh) (Option.not_mem_none h)
  | @some r h' hbin hsome hrecords =>
    obtain rfl : h' = h := Option.some.inj (hsome.symm.trans hh)
    obtain ⟨b, m, ts, rfl, hm, rfl⟩ := hrecords
    exact ⟨_, m, hbin, hm, fun chunk hlo => hlo⟩

/-- What a run of submissions comes to, with crashes at any point of the section: the spine only
    goes forward. -/
structure Advances (v : Verifier Receipt) (g : Digest Receipt Sha)
    (trace : List (Server Receipt Sha × Act Receipt Sha × Server Receipt Sha)) (s : Server Receipt Sha) :
    Prop where
  /-- A head that was served once is never followed by a lower one. -/
  height : ∀ t ∈ trace, ∀ h ∈ t.1.disk.json, ∃ h' ∈ s.disk.json, h.hi ≤ h'.hi
  /-- The receipt that is served verifies. -/
  accepted : ∀ r ∈ s.disk.bin, (verifySpine v r).isSome
  /-- And proves no less than its description says. -/
  covers : ∀ h ∈ s.disk.json, s.disk.Covers v h.hi
  /-- Where every crash between the two files was mended, and nobody is in the section, they are of
      one submission, and a worker that downloads them can go on from where the description ends. -/
  matched : Mended trace → s.inside = none → s.disk.Matched v g ∧ s.disk.Extends v

/-- The spine does not go back, its receipt is always one that was accepted and proves as much as the
    record says, and outside the lock the two agree once every torn submission is mended. -/
theorem spine_advances (h : SpineRun v g trace s) : Advances v g trace s := by
  have hinv := h.inv
  refine ⟨h.height, hinv.bin, hinv.json, fun hmended hfree => ?_⟩
  have hmatched : s.disk.Matched v g := by
    refine h.matched hmended ?_
    rintro ⟨x, hx, -⟩
    exact absurd (hfree ▸ hx) (Option.not_mem_none x)
  exact ⟨hmatched, hmatched.extends⟩

/-! ## A crash between the two replacements -/

/-- A host that takes a number for the spine up to it. -/
def numbered : Verifier ℕ :=
  .real (some
    { verifyRange := fun _ => true
      verifyAny := fun n =>
        some { lo := 1, hi := n, inTip := "genesis", outTip := "tip", outLeaves := 0, rangeWork := "0" } })

/-- A number is its own hash. -/
def plain : Digest ℕ ℕ := ⟨id, id⟩

/-- The submission of the spine up to a height. -/
def submitted (n : ℕ) : Submission ℕ := ⟨n, "pk", "worker"⟩

/-- A submission that goes through. -/
def passes (n : ℕ) : List (Act ℕ ℕ) :=
  [.verify (submitted n), .enter 0 n, .advance, .advance, .advance, .advance, .advance]

/-- A submission during which the coordinator ends after it has replaced `spine.bin`. -/
def tears (n : ℕ) : List (Act ℕ ℕ) :=
  [.verify (submitted n), .enter 0 n, .advance, .advance, .cut true none none]

/-- The run of a script from an empty disk. -/
def played (script : List (Act ℕ ℕ)) :
    List (Server ℕ ℕ × Act ℕ ℕ × Server ℕ ℕ) × Server ℕ ℕ :=
  Runs.play (Server.next numbered plain) { disk := ⟨none, none, none, none⟩ } script

theorem played_run (script : List (Act ℕ ℕ)) :
    SpineRun numbered plain (played script).1 (played script).2 :=
  Runs.Run.play (fun _ _ _ h => h) ⟨.none rfl rfl, rfl, rfl⟩ script

theorem spine_advances_mended :
    (played (passes 1 ++ tears 2 ++ passes 3)).2.disk.bin = some 3 ∧
      Advances numbered plain (played (passes 1 ++ tears 2 ++ passes 3)).1
        (played (passes 1 ++ tears 2 ++ passes 3)).2 :=
  ⟨rfl, spine_advances (played_run _)⟩

/-- The record says 1 and the receipt is the spine up to 2, and a worker cannot extend it from 2. -/
theorem a_crash_leaves_the_old_record :
    ∃ trace s, SpineRun numbered plain trace s ∧ s.inside = none ∧
      s.disk.bin = some 2 ∧ s.disk.json.map Head.hi = some 1 ∧
      s.disk.json.map Head.sha256 ≠ s.disk.bin.map plain.sha256 ∧ ¬ s.disk.Extends numbered := by
  refine ⟨_, _, played_run (passes 1 ++ tears 2), rfl, rfl, rfl, by decide, fun hextends => ?_⟩
  obtain ⟨r, m, hbin, hm, hjoin⟩ := hextends _ rfl
  obtain rfl : 2 = r := Option.some.inj hbin
  obtain rfl := Option.some.inj hm
  have hadjacent := hjoin { lo := 2, hi := 2, inTip := "", outTip := "", outLeaves := 0, rangeWork := "" } rfl
  exact absurd hadjacent (by decide)

end Spine
end Coordinator
end Hazync
