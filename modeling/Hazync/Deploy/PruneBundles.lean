import Hazync.Coordinator.RangeId
import Hazync.SponsorBot.Regen

/-!
# Pruning bundles (`coordinator/deploy/prune_bundles.py`, `hazync-prune-bundles.py`)

A bundle is deleted when its block is finished: proved, deep enough in the spine, its receipt in both
stores, and with a checkpoint below it from which it could be made again. The stores are asked for
what they list, and of that the names are kept. The checkpoints are read from the names of files, and
`regen_bundles.py`, which would make the bundle again, reads the same names in its own way.

## What can go wrong, and how

The script is careful with what it cannot read: each input that is missing ends the run before
anything is deleted, some with an exit code of their own and some by an exception. Both are in the
model, for what is claimed of unreadable inputs is that nothing is removed. So an input is a value
or the failure to read it, and `doomed` goes through them in the order of `main`.

The names of files are read with Python's `int` on one side and with `str.isdigit` on the other.
Neither is what it looks like: `int` takes a sign, underscores and white space, and `isdigit` takes
superscripts, which `int` then refuses. The tables of digits are here so that the two readings can
be compared on every name.

A deletion can fail too. They are done from the lowest height on, and the first that fails ends the
run with what has been removed so far (`mem_removeAll`).
-/

namespace Hazync
namespace Deploy

open Coordinator (isSpace isIntSpace digitValue intDigits)

/-! ## Texts -/

/-- `str.split()` -/
def split (s : String) : List String :=
  ((s.toList.splitOnP isSpace).filter (· ≠ [])).map String.ofList

/-- The digits of a number without its sign. -/
def unsignedInt : List Char → Option ℕ
  | [] => none
  | c :: cs => (digitValue c).bind fun d => intDigits d cs

/-- `int` of a string. -/
def int (s : List Char) : Option ℤ :=
  match (s.dropWhile isIntSpace).rdropWhile isIntSpace with
  | '-' :: cs => (unsignedInt cs).map fun n => -n
  | '+' :: cs => (unsignedInt cs).map fun n => n
  | cs => (unsignedInt cs).map fun n => n

/-- The characters that are digits and not decimal ones: superscripts, circled digits and the like, as
    ranges from the first to the last. -/
def digitRanges : List (ℕ × ℕ) :=
  [(0xb2, 0xb3), (0xb9, 0xb9), (0x1369, 0x1371), (0x19da, 0x19da), (0x2070, 0x2070), (0x2074, 0x2079),
    (0x2080, 0x2089), (0x2460, 0x2468), (0x2474, 0x247c), (0x2488, 0x2490), (0x24ea, 0x24ea),
    (0x24f5, 0x24fd), (0x24ff, 0x24ff), (0x2776, 0x277e), (0x2780, 0x2788), (0x278a, 0x2792),
    (0x10a40, 0x10a43), (0x10e60, 0x10e68), (0x11052, 0x1105a), (0x1f100, 0x1f10a)]

/-- `str.isdigit` -/
def isdigit (s : List Char) : Bool :=
  s ≠ [] && s.all fun c =>
    (digitValue c).isSome || digitRanges.any fun r => r.1 ≤ c.toNat && c.toNat ≤ r.2

/-- What is between `pre` and `suf` in a name that starts and ends with them. -/
def middle (pre suf name : String) : Option (List Char) :=
  if pre.toList <+: name.toList ∧ suf.toList <:+ name.toList then
    some ((name.toList.drop pre.length).rdrop suf.length)
  else none

/-! ## The inputs -/

/-- A directory: none at the path, one that cannot be listed, or the names in it. -/
inductive Dir where
  | absent
  | unreadable
  | names (l : List String)
  deriving DecidableEq

/-- `os.listdir` -/
def Dir.listdir : Dir → Option (List String)
  | .names l => some l
  | _ => none

/-- Whether the row of the ledger says `verified`. -/
inductive RangeStatus where
  | verified
  | other
  deriving DecidableEq

/-- A row of `ranges`. -/
structure LedgerRow where
  id : String
  lo : ℤ
  hi : ℤ
  status : RangeStatus
  receiptSha : Option String
  deriving DecidableEq

abbrev Bytes := List UInt8

/-- The objects of a store under the prefix of the proofs. -/
structure Store where
  objects : List (String × Bytes)
  nodup : (objects.map Prod.fst).Nodup

/-- What a run is given. An input that cannot be read is `none`, or raises: the marker with the name of
    the error, a store with anything on the way to its listing. `hi` is what the spine's record gives,
    and `removable` says of which files `os.remove` does not fail. -/
structure Input where
  apply : Bool
  margin : ℤ := 10000
  noRequireCheckpoint : Bool := false
  markerFile : String := "check-proofs"
  marker : Except String String
  hi : Option ℤ
  ledger : Option (List LedgerRow)
  archive : Dir
  bundles : Dir
  r2 : Option Store
  b2 : Option Store
  removable : String → Bool

/-! ## `prune_bundles.py` -/

/-- What is known of a height. -/
structure Facts where
  verified : Bool
  inSpine : Bool
  inR2 : Bool
  inB2 : Bool
  spineTop : ℤ
  margin : ℤ
  reverifyOk : Bool
  checkpointBelow : Bool
  requireCheckpoint : Bool := true

/-- `prune_decision` -/
def pruneDecision (h : ℤ) (f : Facts) : Bool × String :=
  if ¬ f.reverifyOk then (false, "the latest nightly re-verify did not pass")
  else if f.requireCheckpoint ∧ ¬ f.checkpointBelow then
    (false, "no archived checkpoint below it to rebuild from (hazync#347 6.6)")
  else if ¬ f.verified then (false, "no verified proof on the board")
  else if ¬ f.inSpine then (false, "not inside the genesis-anchored spine")
  else if ¬ f.inR2 then (false, "receipt not confirmed in R2")
  else if ¬ f.inB2 then (false, "receipt not confirmed in B2")
  else if h > f.spineTop - f.margin then
    (false, "within " ++ toString f.margin ++ " blocks of the spine top (" ++ toString f.spineTop ++ ")")
  else (true, "")

/-- `spine_top` -/
def spineTop (hi : Option ℤ) : ℤ := hi.getD 0

/-- The row is that of a single block and has a receipt. -/
def LedgerRow.single (r : LedgerRow) : Bool :=
  r.status = .verified ∧ r.lo = r.hi ∧ r.receiptSha.getD "" ≠ ""

/-- `verified_single_heights`, with the row for its id. A later row takes the place of an earlier
    one. -/
def verifiedSingleHeights (rows : List LedgerRow) (h : ℤ) : Option LedgerRow :=
  (rows.filter fun r => r.single ∧ r.lo = h).getLast?

/-- `reverify_passed`, of the marker in the file `p` -/
def reverifyPassed (p : String) (marker : Except String String) : Bool × String :=
  match marker with
  | .error e => (false, "cannot read " ++ p ++ ": " ++ e)
  | .ok text =>
    match split text with
    | [] => (false, "cannot read " ++ p ++ ": IndexError")
    | fails :: _ =>
      (fails = "0", if fails = "0" then "" else "check-proofs reports " ++ fails ++ " consecutive failures")

/-- `archived_checkpoints`, which raises if the directory cannot be listed. -/
def archivedCheckpoints : Dir → Option (List ℤ)
  | .absent => some []
  | .unreadable => none
  | .names l => some ((l.filterMap fun n => (middle "state_" ".bin" n).bind int).insertionSort (· ≤ ·))

/-- `has_checkpoint_below` -/
def hasCheckpointBelow (h : ℤ) (checkpoints : List ℤ) : Bool := checkpoints.any (· < h)

/-- `bundle_file`, in the directory of the bundles. -/
def bundleFile (h : ℤ) : String := "bundle_" ++ toString h ++ ".json"

/-- The name of a receipt in the stores. -/
def proofName (id : String) : String := "proof_" ++ id ++ ".bin"

/-- The heights of the bundles, in order. -/
def bundleHeights (l : List String) : List ℤ :=
  (l.filterMap fun n => (middle "bundle_" ".json" n).bind int).insertionSort (· ≤ ·)

/-- What the run knows of a height. -/
def facts (inp : Input) (rows : List LedgerRow) (r2 b2 : List String) (ckpts : List ℤ) (h : ℤ) : Facts :=
  let row := verifiedSingleHeights rows h
  let named (store : List String) : Bool := ∃ r ∈ row, r.id ≠ "" ∧ proofName r.id ∈ store
  { verified := row.isSome
    inSpine := 0 < h ∧ h ≤ spineTop inp.hi
    inR2 := named r2
    inB2 := named b2
    spineTop := spineTop inp.hi
    margin := inp.margin
    reverifyOk := (reverifyPassed inp.markerFile inp.marker).1
    checkpointBelow := hasCheckpointBelow h ckpts
    requireCheckpoint := !inp.noRequireCheckpoint }

/-- The heights to delete, or the exit code with which `main` ends before it comes to that. An exception
    that it does not catch ends it with 1. -/
def doomed (inp : Input) (confirmed : Option (List String × List String)) : Except ℤ (List ℤ) :=
  match archivedCheckpoints inp.archive with
  | none => .error 1
  | some ckpts =>
    if ¬ inp.noRequireCheckpoint ∧ inp.archive = .absent then .error 2
    else if inp.bundles = .absent then .error 2
    else
      match inp.ledger, confirmed, inp.bundles.listdir with
      | none, _, _ => .error 2
      | _, none, _ => .error 2
      | _, _, none => .error 1
      | some rows, some (r2, b2), some l =>
        if bundleHeights l = [] then .error 2
        else .ok ((bundleHeights l).filter fun h => (pruneDecision h (facts inp rows r2 b2 ckpts h)).1)

/-- What a run leaves: its exit code, and the files that it removed. -/
structure Ran where
  code : ℤ
  removed : List String
  deriving DecidableEq

/-- The deletions, up to one that fails. -/
def removeAll (removable : String → Bool) : List ℤ → List String → Ran
  | [], _ => ⟨0, []⟩
  | h :: hs, present =>
    if bundleFile h ∈ present ∧ removable (bundleFile h) then
      let ran := removeAll removable hs (present.filter (· ≠ bundleFile h))
      { ran with removed := bundleFile h :: ran.removed }
    else ⟨1, []⟩

/-- `main` of `prune_bundles.py` -/
def pruneMain (inp : Input) (confirmed : Option (List String × List String)) : Ran :=
  match doomed inp confirmed with
  | .error code => ⟨code, []⟩
  | .ok hs => if inp.apply then removeAll inp.removable hs (inp.bundles.listdir.getD []) else ⟨0, []⟩

/-! ## `hazync-prune-bundles.py` -/

/-- `list_remote` -/
def listRemote (s : Store) : List (String × ℕ) := s.objects.map fun o => (o.1, o.2.length)

/-- The names that a store confirms. A listing of nothing is not taken. -/
def confirmStore (store : Option Store) : Option (List String) :=
  (store.map fun s => (listRemote s).map Prod.fst).filter (· ≠ [])

/-- `confirm` -/
def confirm (inp : Input) : Option (List String × List String) := do
  return (← confirmStore inp.r2, ← confirmStore inp.b2)

/-- `main` -/
def main (inp : Input) : Ran :=
  match confirm inp with
  | none => ⟨2, []⟩
  | some confirmed => pruneMain inp (some confirmed)

/-! ## `regen_bundles.py` -/

/-- `archived_rungs`, which raises if the directory cannot be listed, or if `int` does not take what
    `isdigit` does. -/
def archivedRungs : Dir → Option (List ℕ)
  | .absent => some []
  | .unreadable => none
  | .names l =>
    (((l.filterMap (middle "state_" ".bin")).filter (isdigit ·)).mapM unsignedInt).map
      (List.insertionSort (· ≤ ·))

/-! ## What a run reads and what it deletes -/

variable {inp : Input} {ckpts : List ℤ} {rows : List LedgerRow} {r2 b2 l : List String} {hs : List ℤ}
  {h : ℤ} {f : Facts} {row : LedgerRow}

/-- **When a bundle goes**: each of the facts holds that the decision asks for. -/
theorem pruneDecision_iff :
    (pruneDecision h f).1 = true ↔
      f.reverifyOk ∧ (f.requireCheckpoint → f.checkpointBelow) ∧ f.verified ∧ f.inSpine ∧ f.inR2 ∧
        f.inB2 ∧ h ≤ f.spineTop - f.margin := by
  unfold pruneDecision
  split_ifs <;> simp_all

/-- A run that comes to the point where it decides. -/
structure Reads (inp : Input) (ckpts : List ℤ) (rows : List LedgerRow) (r2 b2 l : List String) :
    Prop where
  /-- The checkpoints that the archive lists. -/
  archive : archivedCheckpoints inp.archive = some ckpts
  /-- Without an archive it goes on only when told to. -/
  required : ¬ (¬ inp.noRequireCheckpoint ∧ inp.archive = .absent)
  /-- The verified rows. -/
  ledger : inp.ledger = some rows
  /-- What the two stores list. -/
  confirmed : confirm inp = some (r2, b2)
  bundles : inp.bundles = .names l
  /-- There is a bundle to decide about. -/
  heights : bundleHeights l ≠ []

theorem Reads.doomed_eq (hread : Reads inp ckpts rows r2 b2 l) :
    doomed inp (confirm inp) =
      .ok ((bundleHeights l).filter fun h => (pruneDecision h (facts inp rows r2 b2 ckpts h)).1) := by
  unfold doomed
  rw [hread.archive, hread.ledger, hread.confirmed, hread.bundles]
  simp only [Dir.listdir]
  rw [if_neg hread.required, if_neg (by simp), if_neg hread.heights]

/-- A run that comes to a list of heights has read what it is given. -/
theorem reads_of_doomed (h : doomed inp (confirm inp) = .ok hs) :
    ∃ ckpts rows r2 b2 l, Reads inp ckpts rows r2 b2 l := by
  unfold doomed at h
  split at h
  · exact absurd h (by simp)
  case h_2 ckpts harchive =>
    split_ifs at h with hrequired habsent
    split at h
    case h_1 | h_2 | h_3 => exact absurd h (by simp)
    case h_4 rows r2 b2 l hledger hconfirmed hlist =>
      split_ifs at h with hheights
      have hbundles : inp.bundles = .names l := by
        cases hb : inp.bundles <;> rw [hb] at hlist <;> simp_all [Dir.listdir]
      exact ⟨ckpts, rows, r2, b2, l, harchive, hrequired, hledger, hconfirmed, hbundles, hheights⟩

/-- What a run does that has read everything: it removes the bundles that the decision lets go, if
    it is told to. -/
theorem Reads.main_eq (hread : Reads inp ckpts rows r2 b2 l) :
    main inp =
      if inp.apply then
        removeAll inp.removable
          ((bundleHeights l).filter fun h => (pruneDecision h (facts inp rows r2 b2 ckpts h)).1) l
      else ⟨0, []⟩ := by
  have hdoomed := hread.doomed_eq
  rw [hread.confirmed] at hdoomed
  unfold main
  rw [hread.confirmed]
  simp only [pruneMain, hdoomed, hread.bundles]
  rfl

/-- A run that removes a file has read what it is given. -/
theorem reads_of_removed {n : String} (hn : n ∈ (main inp).removed) :
    ∃ ckpts rows r2 b2 l, Reads inp ckpts rows r2 b2 l := by
  unfold main at hn
  cases hconfirm : confirm inp with
  | none =>
    rw [hconfirm] at hn
    exact absurd hn List.not_mem_nil
  | some confirmed =>
    simp only [hconfirm, pruneMain] at hn
    rw [← hconfirm] at hn
    cases hdoomed : doomed inp (confirm inp) with
    | error code =>
      rw [hdoomed] at hn
      exact absurd hn List.not_mem_nil
    | ok hs => exact reads_of_doomed hdoomed

/-! ## The deletions -/

theorem toString_inj {h h' : ℤ} (hpos : 0 < h) (hpos' : 0 < h') (heq : toString h = toString h') :
    h = h' := by
  obtain ⟨n, rfl⟩ := Int.eq_ofNat_of_zero_le hpos.le
  obtain ⟨n', rfl⟩ := Int.eq_ofNat_of_zero_le hpos'.le
  have hn : toString n = toString n' := heq
  exact congrArg _ (Coordinator.toString_inj hn)

/-- Two heights have different bundles. -/
theorem bundleFile_inj {h h' : ℤ} (hpos : 0 < h) (hpos' : 0 < h') (heq : bundleFile h = bundleFile h') :
    h = h' := by
  have heq := congrArg String.toList heq
  simp only [bundleFile, String.toList_append] at heq
  exact toString_inj hpos hpos'
    (String.toList_injective (List.append_cancel_left (List.append_cancel_right heq)))

/-- Of heights in order the files are removed up to the first that is not there or does not go. -/
theorem mem_removeAll {removable : String → Bool} {hs : List ℤ} {present : List String} {n : String}
    (hpos : ∀ h ∈ hs, 0 < h) (hsorted : hs.Pairwise (· ≤ ·)) :
    n ∈ (removeAll removable hs present).removed ↔
      ∃ h ∈ hs, n = bundleFile h ∧ ∀ h' ∈ hs, h' ≤ h →
        (bundleFile h' ∈ present ∧ removable (bundleFile h')) ∧ (h' < h → hs.count h' = 1) := by
  induction hs generalizing present with
  | nil => simp [removeAll]
  | cons a hs ih =>
    obtain ⟨hfirst, hsorted⟩ := List.pairwise_cons.mp hsorted
    have hle : ∀ h ∈ a :: hs, a ≤ h := fun h hh =>
      (List.mem_cons.mp hh).elim (fun heq => heq.ge) (hfirst h)
    have ih := @ih (present.filter (· ≠ bundleFile a))
      (fun h hh => hpos h (List.mem_cons_of_mem _ hh)) hsorted
    rw [removeAll]
    split_ifs with ha
    · rw [List.mem_cons, ih]
      constructor
      · rintro (rfl | ⟨h, hh, rfl, hall⟩)
        · refine ⟨a, List.mem_cons_self, rfl, fun h' hh' hle' => ?_⟩
          obtain rfl := le_antisymm hle' (hle h' hh')
          exact ⟨ha, fun hlt => absurd hlt (lt_irrefl _)⟩
        · refine ⟨h, List.mem_cons_of_mem _ hh, rfl, fun h' hh' hle' => ?_⟩
          -- a file that is gone stops the run, so `a` is not among what is left
          have hnot : a ∉ hs := fun hmem =>
            (List.mem_filter.mp (hall a hmem (hfirst h hh)).1.1).2 |> fun hne => by simp at hne
          obtain rfl | hh' := List.mem_cons.mp hh'
          · exact ⟨ha, fun _ => by rw [List.count_cons_self, List.count_eq_zero_of_not_mem hnot]⟩
          · have hne : a ≠ h' := fun heq => hnot (heq ▸ hh')
            obtain ⟨⟨hin, hrem⟩, hcount⟩ := hall h' hh' hle'
            exact ⟨⟨(List.mem_filter.mp hin).1, hrem⟩, fun hlt => by
              rw [List.count_cons_of_ne hne]
              exact hcount hlt⟩
      · rintro ⟨h, hh, rfl, hall⟩
        obtain rfl | hh := List.mem_cons.mp hh
        · exact .inl rfl
        · by_cases heq : h = a
          · exact .inl (heq ▸ rfl)
          have hlt : a < h := lt_of_le_of_ne (hfirst h hh) (Ne.symm heq)
          have hcount := (hall a List.mem_cons_self hlt.le).2 hlt
          rw [List.count_cons_self] at hcount
          have hnot : a ∉ hs := fun hmem => by
            have hone := List.count_pos_iff.mpr hmem
            omega
          refine .inr ⟨h, hh, rfl, fun h' hh' hle' => ?_⟩
          have hne : a ≠ h' := fun heq => hnot (heq ▸ hh')
          obtain ⟨⟨hin, hrem⟩, hcount'⟩ := hall h' (List.mem_cons_of_mem _ hh') hle'
          refine ⟨⟨List.mem_filter.mpr ⟨hin, ?_⟩, hrem⟩, fun hlt' => ?_⟩
          · have hfile : bundleFile h' ≠ bundleFile a := fun heq =>
              hne (bundleFile_inj (hpos h' (List.mem_cons_of_mem _ hh')) (hpos a List.mem_cons_self) heq).symm
            exact decide_eq_true hfile
          · rw [← List.count_cons_of_ne hne]
            exact hcount' hlt'
    · refine ⟨fun h => absurd h List.not_mem_nil, ?_⟩
      rintro ⟨h, hh, rfl, hall⟩
      exact absurd (hall a List.mem_cons_self (hle h hh)).1 ha

end Deploy
end Hazync
