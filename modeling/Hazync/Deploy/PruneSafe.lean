import Hazync.Deploy.PruneBundles
import Mathlib.Data.List.Dedup

/-!
# What is pruned can be brought back

A bundle that is removed is that of a proved block deep in the spine. That its receipt is whole in both
stores does not follow, for a listing that is cut down to names tells nothing of an object that was
half uploaded. Nor does it follow that it can be made again, for `int` takes file names for
checkpoints that `isdigit` does not. These two conditions are what is missing.

## What is asked, and what is known

Two lists of conditions are compared. `Due` is what the script asks of a height, in terms of what it
has read: names in listings, a checkpoint as `int` reads it. `MayGo` is what it takes for the bundle
to be given up, in terms of what is there: the bytes of the receipt in each store, and a rung that
the program which would rebuild the bundle can use. Between the two is exactly what the listings do
not tell. An object of the right name may have other bytes (`Intact`), and a file name may be a
checkpoint to one program and not to the other (`RungBelow`). So the condition asks these two of the
bundles that a run comes to delete, and is as strong as the result.

Each failing input is an everyday one: an upload that was cut off, and a stray file in the archive.
-/

namespace Hazync
namespace Deploy

variable {inp : Input} {ckpts : List ℤ} {rows : List LedgerRow} {r2 b2 l : List String}
  {h : ℤ} {row : LedgerRow} {sha256 : Bytes → String}

/-! ## What is meant by safe -/

/-- The store has the receipt that the ledger names. -/
def HeldComplete (sha256 : Bytes → String) (store : Option Store) (row : LedgerRow) : Prop :=
  ∃ s ∈ store, ∃ b, (proofName row.id, b) ∈ s.objects ∧ row.receiptSha = some (sha256 b)

/-- `regen_bundles.plan` for the height finds a rung and misses nothing. -/
def Regenerates (archive : Dir) (height : ℕ) : Prop :=
  ∃ rungs p, archivedRungs archive = some rungs ∧ SponsorBot.plan [height] rungs = some p ∧
    p.rung.isSome ∧ p.missing = []

/-- The bundle of the height may be removed. -/
structure MayGo (sha256 : Bytes → String) (inp : Input) (height : ℕ) (row : LedgerRow) : Prop where
  /-- The file is the one of this height. -/
  bundle : ∃ l, inp.bundles = .names l ∧ bundleFile height ∈ l
  /-- Its block has a verified proof of its own. -/
  proved : ∃ rows, inp.ledger = some rows ∧ verifiedSingleHeights rows height = some row ∧
    row ∈ rows ∧ row.single ∧ row.lo = height
  /-- The spine has absorbed it. -/
  inSpine : 0 < height ∧ height ≤ spineTop inp.hi
  /-- By as many blocks as the margin asks. -/
  deep : height ≤ spineTop inp.hi - inp.margin
  /-- Each store has the proof, whole. -/
  r2 : HeldComplete sha256 inp.r2 row
  b2 : HeldComplete sha256 inp.b2 row
  /-- And the bundle can be made again from a checkpoint that the other program finds too. -/
  rung : inp.noRequireCheckpoint ∨ Regenerates inp.archive height

/-- Something that the run is given could not be read. -/
def Input.Unread (inp : Input) : Prop :=
  (∃ e, inp.marker = .error e) ∨ inp.hi = none ∨ inp.ledger = none ∨ inp.archive = .unreadable ∨
    (¬ inp.noRequireCheckpoint ∧ inp.archive = .absent) ∨ inp.bundles.listdir = none ∨
    inp.r2 = none ∨ inp.b2 = none

/-- Each bundle that a run removes is one that may go, and a run that is given something it cannot
    read removes none. -/
structure PrunesSafely (sha256 : Bytes → String) (inp : Input) : Prop where
  removed : ∀ n ∈ (main inp).removed, ∃ (height : ℕ) (row : LedgerRow),
    n = bundleFile height ∧ MayGo sha256 inp height row
  unread : inp.Unread → (main inp).removed = []

/-! ## What is due -/

/-- What the run asks of a height before it deletes. -/
structure Due (inp : Input) (h : ℤ) (row : LedgerRow) (ckpts : List ℤ) (rows : List LedgerRow)
    (r2 b2 l : List String) : Prop where
  read : Reads inp ckpts rows r2 b2 l
  bundle : h ∈ bundleHeights l
  /-- The last check of the stored proofs has reported no failure. -/
  reverified : (reverifyPassed inp.markerFile inp.marker).1
  /-- A checkpoint below the height, as this program reads the names. -/
  checkpoint : inp.noRequireCheckpoint ∨ ∃ c ∈ ckpts, c < h
  proved : verifiedSingleHeights rows h = some row
  inSpine : 0 < h ∧ h ≤ spineTop inp.hi
  deep : h ≤ spineTop inp.hi - inp.margin
  /-- The row has an id, which the names of the proofs are made of. -/
  named : row.id ≠ ""
  /-- A name in a listing: what is in the file is not looked at. -/
  r2 : proofName row.id ∈ r2
  b2 : proofName row.id ∈ b2

/-- The height is due. -/
def Input.Due (inp : Input) (h : ℤ) (row : LedgerRow) : Prop :=
  ∃ ckpts rows r2 b2 l, Deploy.Due inp h row ckpts rows r2 b2 l

/-- The heights that the run decides to delete are those that are due. -/
theorem decided_iff (hread : Reads inp ckpts rows r2 b2 l) :
    h ∈ (bundleHeights l).filter (fun h => (pruneDecision h (facts inp rows r2 b2 ckpts h)).1) ↔
      ∃ row, Due inp h row ckpts rows r2 b2 l := by
  rw [List.mem_filter, pruneDecision_iff]
  simp only [facts, Bool.not_eq_true', decide_eq_true_eq]
  constructor
  · rintro ⟨hmem, hok, hckpt, hverified, hspine, hr2, hb2, hdeep⟩
    obtain ⟨row, hrow⟩ := Option.isSome_iff_exists.mp hverified
    obtain ⟨r, hr, hid, hr2⟩ := hr2
    obtain ⟨r', hr', -, hb2⟩ := hb2
    obtain rfl := Option.some.inj (hrow.symm.trans hr)
    obtain rfl := Option.some.inj (hrow.symm.trans hr')
    refine ⟨row, hread, hmem, hok, ?_, hrow, hspine, hdeep, hid, hr2, hb2⟩
    cases hwaived : inp.noRequireCheckpoint with
    | true => exact .inl rfl
    | false =>
      obtain ⟨c, hc, hlt⟩ := List.any_eq_true.mp (hckpt hwaived)
      exact .inr ⟨c, hc, of_decide_eq_true hlt⟩
  · rintro ⟨row, hdue⟩
    refine ⟨hdue.bundle, hdue.reverified, fun hneeded => ?_, ?_, hdue.inSpine, ?_, ?_, hdue.deep⟩
    · obtain hwaived | ⟨c, hc, hlt⟩ := hdue.checkpoint
      · exact absurd (hneeded.symm.trans hwaived) Bool.false_ne_true
      · exact List.any_eq_true.mpr ⟨c, hc, decide_eq_true hlt⟩
    · exact Option.isSome_of_eq_some hdue.proved
    · exact ⟨row, hdue.proved, hdue.named, hdue.r2⟩
    · exact ⟨row, hdue.proved, hdue.named, hdue.b2⟩

/-- The deletions come to the height: the bundle of each one that is due up to it is there and goes, and
    none below it is due twice. -/
def Input.Reached (inp : Input) (h : ℤ) : Prop :=
  ∀ l, inp.bundles = .names l → ∀ h' row, inp.Due h' row → h' ≤ h →
    (bundleFile h' ∈ l ∧ inp.removable (bundleFile h')) ∧ (h' < h → (bundleHeights l).count h' = 1)

theorem Reads.unique {ckpts' : List ℤ} {rows' : List LedgerRow} {r2' b2' l' : List String}
    (hread : Reads inp ckpts rows r2 b2 l) (hread' : Reads inp ckpts' rows' r2' b2' l') :
    ckpts' = ckpts ∧ rows' = rows ∧ (r2', b2') = (r2, b2) ∧ l' = l := by
  refine ⟨?_, ?_, ?_, ?_⟩
  · exact Option.some.inj (hread'.archive.symm.trans hread.archive)
  · exact Option.some.inj (hread'.ledger.symm.trans hread.ledger)
  · exact Option.some.inj (hread'.confirmed.symm.trans hread.confirmed)
  · exact Dir.names.inj (hread'.bundles.symm.trans hread.bundles)

/-- The same, for whatever the run has read: it reads one thing. -/
theorem decided_iff_due (hread : Reads inp ckpts rows r2 b2 l) :
    h ∈ (bundleHeights l).filter (fun h => (pruneDecision h (facts inp rows r2 b2 ckpts h)).1) ↔
      ∃ row, inp.Due h row := by
  rw [decided_iff hread]
  constructor
  · rintro ⟨row, hdue⟩
    exact ⟨row, ckpts, rows, r2, b2, l, hdue⟩
  · rintro ⟨row, ckpts', rows', r2', b2', l', hdue⟩
    obtain ⟨rfl, rfl, heq, rfl⟩ := hread.unique hdue.read
    obtain ⟨rfl, rfl⟩ := Prod.mk.inj heq
    exact ⟨row, hdue⟩

/-- What is removed, of a run that has read everything. -/
theorem Reads.mem_removed (hread : Reads inp ckpts rows r2 b2 l) (happly : inp.apply) {n : String} :
    n ∈ (main inp).removed ↔ ∃ h row, n = bundleFile h ∧ inp.Due h row ∧ inp.Reached h := by
  have hcount {h' : ℤ} {row : LedgerRow} (hdue : inp.Due h' row) :
      ((bundleHeights l).filter fun h => (pruneDecision h (facts inp rows r2 b2 ckpts h)).1).count h' =
        (bundleHeights l).count h' :=
    List.count_filter (List.mem_filter.mp ((decided_iff_due hread).mpr ⟨row, hdue⟩)).2
  rw [hread.main_eq, if_pos happly, mem_removeAll]
  · constructor
    · rintro ⟨h, hmem, rfl, hall⟩
      obtain ⟨row, hdue⟩ := (decided_iff_due hread).mp hmem
      refine ⟨h, row, rfl, hdue, fun l' hl' h' row' hdue' hle => ?_⟩
      obtain rfl := Dir.names.inj (hread.bundles.symm.trans hl')
      obtain ⟨hgoes, honce⟩ := hall h' ((decided_iff_due hread).mpr ⟨row', hdue'⟩) hle
      exact ⟨hgoes, fun hlt => (hcount hdue').symm.trans (honce hlt)⟩
    · rintro ⟨h, row, rfl, hdue, hreached⟩
      refine ⟨h, (decided_iff_due hread).mpr ⟨row, hdue⟩, rfl, fun h' hmem hle => ?_⟩
      obtain ⟨row', hdue'⟩ := (decided_iff_due hread).mp hmem
      obtain ⟨hgoes, honce⟩ := hreached l hread.bundles h' row' hdue' hle
      exact ⟨hgoes, fun hlt => (hcount hdue').trans (honce hlt)⟩
  · intro h hmem
    obtain ⟨row, _, _, _, _, _, hdue⟩ := (decided_iff_due hread).mp hmem
    exact hdue.inSpine.1
  · exact (List.pairwise_insertionSort _ _).filter _

/-- A run removes the bundles of the heights that are due and that it comes to. -/
theorem mem_removed_iff {n : String} :
    n ∈ (main inp).removed ↔
      inp.apply ∧ ∃ h row, n = bundleFile h ∧ inp.Due h row ∧ inp.Reached h := by
  constructor
  · intro hn
    obtain ⟨ckpts, rows, r2, b2, l, hread⟩ := reads_of_removed hn
    by_cases happly : inp.apply
    · exact ⟨happly, (hread.mem_removed happly).mp hn⟩
    · rw [hread.main_eq, if_neg happly] at hn
      exact absurd hn List.not_mem_nil
  · rintro ⟨happly, h, row, rfl, hdue, hreached⟩
    obtain ⟨ckpts, rows, r2, b2, l, hd⟩ := id hdue
    exact (hd.read.mem_removed happly).mpr ⟨h, row, rfl, hdue, hreached⟩

/-! ## An input that cannot be read -/

/-- Where a height is due, everything could be read. -/
theorem Input.Due.not_unread (hdue : inp.Due h row) : ¬ inp.Unread := by
  obtain ⟨ckpts, rows, r2, b2, l, hd⟩ := hdue
  obtain ⟨r2', hr2, hconfirmed⟩ := Option.bind_eq_some_iff.mp hd.read.confirmed
  obtain ⟨b2', hb2, -⟩ := Option.bind_eq_some_iff.mp hconfirmed
  rintro (⟨e, he⟩ | hhi | hledger | harchive | habsent | hbundles | hstore | hstore)
  · have hok := hd.reverified
    rw [he] at hok
    exact absurd hok Bool.false_ne_true
  · obtain ⟨hpos, hle⟩ := hd.inSpine
    rw [hhi] at hle
    exact absurd hle (not_le.mpr hpos)
  · exact absurd (hd.read.ledger.symm.trans hledger) (by simp)
  · have hckpts := hd.read.archive
    rw [harchive] at hckpts
    exact absurd hckpts (by simp [archivedCheckpoints])
  · exact hd.read.required habsent
  · rw [hd.read.bundles] at hbundles
    exact absurd hbundles (by simp [Dir.listdir])
  · rw [hstore] at hr2
    exact absurd hr2 (by simp [confirmStore])
  · rw [hstore] at hb2
    exact absurd hb2 (by simp [confirmStore])

/-! ## The objects of the stores -/

/-- No object goes by the name of the receipt that has other bytes. -/
def Intact (sha256 : Bytes → String) (store : Option Store) (row : LedgerRow) : Prop :=
  ∀ s ∈ store, ∀ b, (proofName row.id, b) ∈ s.objects → row.receiptSha = some (sha256 b)

/-- A store has one object of a name. -/
theorem Store.unique {s : Store} {n : String} {b b' : Bytes} (hb : (n, b) ∈ s.objects)
    (hb' : (n, b') ∈ s.objects) : b = b' :=
  (Prod.mk.inj (List.inj_on_of_nodup_map s.nodup hb hb' rfl)).2

theorem confirmStore_eq_some {store : Option Store} {names : List String}
    (h : confirmStore store = some names) : ∃ s, store = some s ∧ names = s.objects.map Prod.fst := by
  obtain ⟨s, hs, rfl⟩ := Option.map_eq_some_iff.mp (Option.filter_eq_some_iff.mp h).1
  exact ⟨s, hs, by simp [listRemote]⟩

/-- **A name in a listing is a whole receipt just where the object is the receipt.** -/
theorem heldComplete_iff {store : Option Store} {names : List String}
    (h : confirmStore store = some names) (hname : proofName row.id ∈ names) :
    HeldComplete sha256 store row ↔ Intact sha256 store row := by
  obtain ⟨s, rfl, rfl⟩ := confirmStore_eq_some h
  obtain ⟨⟨n, b⟩, hb, hn⟩ := List.mem_map.mp hname
  obtain rfl : n = proofName row.id := hn
  constructor
  · rintro ⟨s', hs', b', hb', hsha⟩ s'' hs'' b'' hb''
    obtain rfl := Option.some.inj hs'
    obtain rfl := Option.some.inj hs''
    rw [Store.unique hb'' hb']
    exact hsha
  · intro hintact
    exact ⟨s, rfl, b, hb, hintact s rfl b hb⟩

/-! ## The rungs of the archive -/

/-- `regen_bundles.py` can read the rungs, and one of them is below the height. -/
def RungBelow (archive : Dir) (h : ℤ) : Prop :=
  ∃ rungs, archivedRungs archive = some rungs ∧ ∃ r ∈ rungs, (r : ℤ) < h

theorem rungBelow_eq_none {height : ℕ} {rungs : List ℕ} :
    SponsorBot.rungBelow height rungs = none ↔ ∀ r ∈ rungs, ¬ r < height := by
  rw [SponsorBot.rungBelow, List.max?_eq_none_iff, List.filter_eq_nil_iff]
  simp

/-- The plan for one height: the highest rung below it, or a miss. -/
theorem plan_one {height : ℕ} {rungs : List ℕ} :
    SponsorBot.plan [height] rungs =
      match SponsorBot.rungBelow height rungs with
      | some r => some ⟨some r, height, height, []⟩
      | none => some ⟨none, height, height, [height]⟩ := by
  have hone : ([height].dedup).insertionSort (· ≤ ·) = [height] := by
    rw [List.Nodup.dedup (List.nodup_singleton _)]
    rfl
  unfold SponsorBot.plan
  rw [hone]
  cases hbelow : SponsorBot.rungBelow height rungs <;> simp [hbelow]

/-- A height can be made again just where a rung is below it that `regen_bundles.py` reads. -/
theorem regenerates_iff {archive : Dir} {height : ℕ} :
    Regenerates archive height ↔ RungBelow archive height := by
  constructor
  · rintro ⟨rungs, p, hrungs, hp, hrung, hmissing⟩
    rw [plan_one] at hp
    cases hbelow : SponsorBot.rungBelow height rungs with
    | none =>
      rw [hbelow] at hp
      obtain rfl := Option.some.inj hp
      exact absurd hrung Bool.false_ne_true
    | some r =>
      obtain ⟨hr, hlt⟩ := List.mem_filter.mp (List.max?_mem hbelow)
      exact ⟨rungs, hrungs, r, hr, Int.ofNat_lt.mpr (of_decide_eq_true hlt)⟩
  · rintro ⟨rungs, hrungs, r, hr, hlt⟩
    cases hbelow : SponsorBot.rungBelow height rungs with
    | none => exact absurd (Int.ofNat_lt.mp hlt) (rungBelow_eq_none.mp hbelow r hr)
    | some r' =>
      refine ⟨rungs, ⟨some r', height, height, []⟩, hrungs, ?_, rfl, rfl⟩
      rw [plan_one, hbelow]

/-! ## When it is safe -/

/-- Of the bundles that a run comes to delete, no object in a store is other than the receipt, and the
    archive has a rung that `regen_bundles.py` reads. -/
def Input.Recoverable (sha256 : Bytes → String) (inp : Input) : Prop :=
  inp.apply → ∀ h row, inp.Due h row → inp.Reached h →
    Intact sha256 inp.r2 row ∧ Intact sha256 inp.b2 row ∧
      (inp.noRequireCheckpoint ∨ RungBelow inp.archive h)

theorem verifiedSingleHeights_spec (hrow : verifiedSingleHeights rows h = some row) :
    row ∈ rows ∧ row.single ∧ row.lo = h := by
  obtain ⟨hmem, hp⟩ := List.mem_filter.mp (List.mem_of_getLast? hrow)
  exact ⟨hmem, of_decide_eq_true hp⟩

/-- Of a height that is due and that the deletions come to: its bundle may go where the two
    conditions hold. -/
theorem mayGo_iff {height : ℕ} (hdue : inp.Due height row) (hreached : inp.Reached height) :
    MayGo sha256 inp height row ↔
      Intact sha256 inp.r2 row ∧ Intact sha256 inp.b2 row ∧
        (inp.noRequireCheckpoint ∨ RungBelow inp.archive height) := by
  obtain ⟨ckpts, rows, r2, b2, l, hd⟩ := id hdue
  obtain ⟨r2', hr2, hconfirmed⟩ := Option.bind_eq_some_iff.mp hd.read.confirmed
  obtain ⟨b2', hb2, heq⟩ := Option.bind_eq_some_iff.mp hconfirmed
  obtain ⟨rfl, rfl⟩ := Prod.mk.inj (Option.some.inj heq)
  rw [← heldComplete_iff hr2 hd.r2, ← heldComplete_iff hb2 hd.b2, ← regenerates_iff]
  constructor
  · intro hgo
    exact ⟨hgo.r2, hgo.b2, hgo.rung⟩
  · rintro ⟨hheld, hheld', hrung⟩
    refine ⟨⟨l, hd.read.bundles, ?_⟩, ⟨rows, hd.read.ledger, hd.proved, verifiedSingleHeights_spec hd.proved⟩,
      ?_, hd.deep, hheld, hheld', hrung⟩
    · exact (hreached l hd.read.bundles height row hdue le_rfl).1.1
    · exact ⟨Int.ofNat_lt.mp hd.inSpine.1, hd.inSpine.2⟩

/-- What a run removes can be brought back if and only if, for the bundles that it comes to, no object
    is other than the receipt it is named after and the archive has a rung that is read as one. -/
theorem prunes_safely_iff : PrunesSafely sha256 inp ↔ inp.Recoverable sha256 := by
  constructor
  · intro hsafe happly h row hdue hreached
    obtain ⟨height, row', hfile, hgo⟩ :=
      hsafe.removed _ (mem_removed_iff.mpr ⟨happly, h, row, rfl, hdue, hreached⟩)
    obtain ⟨ckpts, rows, r2, b2, l, hd⟩ := id hdue
    obtain rfl := bundleFile_inj hd.inSpine.1 (Int.ofNat_lt.mpr hgo.inSpine.1) hfile
    obtain ⟨rows', hrows', hrow', -⟩ := hgo.proved
    obtain rfl := Option.some.inj (hd.read.ledger.symm.trans hrows')
    obtain rfl := Option.some.inj (hd.proved.symm.trans hrow')
    exact (mayGo_iff hdue hreached).mp hgo
  · intro hrec
    constructor
    · intro n hn
      obtain ⟨happly, h, row, rfl, hdue, hreached⟩ := mem_removed_iff.mp hn
      obtain ⟨ckpts, rows, r2, b2, l, hd⟩ := id hdue
      obtain ⟨height, rfl⟩ := Int.eq_ofNat_of_zero_le hd.inSpine.1.le
      exact ⟨height, row, rfl, (mayGo_iff hdue hreached).mpr (hrec happly _ row hdue hreached)⟩
    · intro hunread
      refine List.eq_nil_iff_forall_not_mem.mpr fun n hn => ?_
      obtain ⟨-, h, row, -, hdue, -⟩ := mem_removed_iff.mp hn
      exact hdue.not_unread hunread

/-! ## Two ways to lose a bundle -/

/-- The two bytes of a receipt, and what an upload that was cut off left of them. -/
def receipt : Bytes := [0x68, 0x7a]

def cutOff : Bytes := [0x68]

/-- The two hashes that the runs below need. -/
def digest (b : Bytes) : String :=
  if b = receipt then "5a6509b77b9a987ab78ea504689414e4216cede7d0489b8b22296f458daf6c68"
  else if b = cutOff then "aaa9402664f1a41f40ebbc52c9993eb66aeb366602958fdfaa283b71e64db123"
  else ""

/-- The ledger's row of block 5, with the hash of its receipt. -/
def provedRow : LedgerRow := ⟨"5", 5, 5, .verified, some (digest receipt)⟩

/-- A run that deletes the bundle of block 5. -/
def finished (archive : Dir) (held : Bytes) : Input :=
  { apply := true
    margin := 10
    marker := .ok "0 0"
    hi := some 100
    ledger := some [provedRow]
    archive
    bundles := .names ["bundle_5.json"]
    r2 := some ⟨[("proof_5.bin", held)], by simp⟩
    b2 := some ⟨[("proof_5.bin", receipt)], by simp⟩
    removable := fun _ => true }

/-- The bundle goes although R2 has only the first byte of the receipt, and although the archive has
    nothing but `state_-1.bin`. -/
theorem a_cut_off_receipt_is_confirmed :
    ¬ PrunesSafely digest (finished (.names ["state_1.bin"]) cutOff) ∧
      ¬ PrunesSafely digest (finished (.names ["state_-1.bin"]) receipt) := by
  constructor
  · intro hsafe
    have hgone : "bundle_5.json" ∈ (main (finished (.names ["state_1.bin"]) cutOff)).removed := by
      decide
    obtain ⟨height, row, -, hgo⟩ := hsafe.removed _ hgone
    obtain ⟨rows, hrows, -, hmem, -⟩ := hgo.proved
    obtain rfl := Option.some.inj hrows
    obtain rfl := List.mem_singleton.mp hmem
    obtain ⟨s, hs, b, hb, hsha⟩ := hgo.r2
    obtain rfl := Option.some.inj hs
    obtain rfl := (Prod.mk.inj (List.mem_singleton.mp hb)).2
    exact absurd hsha (by decide)
  · intro hsafe
    have hgone : "bundle_5.json" ∈ (main (finished (.names ["state_-1.bin"]) receipt)).removed := by
      decide
    obtain ⟨height, row, -, hgo⟩ := hsafe.removed _ hgone
    obtain hwaived | hrung := hgo.rung
    · exact absurd hwaived Bool.false_ne_true
    · obtain ⟨rungs, hrungs, r, hr, -⟩ := regenerates_iff.mp hrung
      have hnone : archivedRungs (.names ["state_-1.bin"]) = some [] := by decide
      obtain rfl := Option.some.inj (hnone.symm.trans hrungs)
      exact absurd hr List.not_mem_nil

end Deploy
end Hazync
