import Hazync.Lib.Runs
import Hazync.Lib.SortedMap
import Mathlib.Algebra.Order.BigOperators.Group.List
import Mathlib.Algebra.Order.Ring.Int
import Mathlib.Data.List.ReduceOption

/-!
# The spine's extender (`cmd_spine`, `coordinator/hazync`)

A worker reads how far the spine goes, absorbs the widest chunk that begins there, and submits what
comes of it. Where a chunk is not served, does not fold or is refused, it takes a narrower one, and
the last is the next block alone. Others extend the spine at the same time.

The worker counts the blocks of the chunk that it has absorbed. Where somebody has moved the head in
the meantime, the spine has gone forward by less.

## What can be said of one worker

The others are one kind of step (`others`), which raises the head by any amount at any time; nothing
is asked of them. So what a worker has read may be out of date at every later step, and the run
lemma says what is still so: the head it has read is not above the head there is (`SpotInv`), and
the chunks it tries begin after that head.

A pass is a stretch of a run. Under `Served` the next block alone can be had, so a worker that has
tried everything wider comes to a chunk that works, or finds that the head has moved. `PassInv` is
the invariant of it, and `Spot.left` the measure by which it ends: three steps for each chunk,
fetch, fold, and then a submit or a second look at the head.

## What is counted

For each submission that was taken the worker adds the width that it had in mind, from the head it
has read to the end of its chunk. The head itself went from where it was at the submission to where
the receipt goes. `Taken` keeps all four numbers, and the sums of the two differences agree where
nobody else moved the head in between.
-/

namespace Hazync
namespace Coordinator
namespace Extend

/-! ## The chunks -/

/-- An entry of `/api/vranges`, as `int` and `str` read it. -/
structure VRange where
  lo : ℤ
  hi : ℤ
  proof : String

/-- An end, and the path of its receipt. -/
abbrev Cand := ℤ × String

/-- The entry has a receipt at the coordinator, and more than one block. -/
def VRange.Counts (r : VRange) : Prop := r.lo < r.hi ∧ "/api/proof/".toList <+: r.proof.toList

instance (r : VRange) : Decidable r.Counts :=
  inferInstanceAs (Decidable (r.lo < r.hi ∧ "/api/proof/".toList <+: r.proof.toList))

/-- `spine_index`, at one start. What cannot be read as an entry is passed over. -/
def spineIndex (vranges : List (Option VRange)) (lo : ℤ) : List Cand :=
  let starting := vranges.reduceOption.filter fun r => r.Counts ∧ r.lo = lo
  (SortedMap.empty.insertAll (starting.map fun r => (r.hi, r.proof))).entries.reverse

def ownProof (nxt : ℤ) : String := "/api/proof/" ++ toString nxt

/-- `spine_chunks` -/
def spineChunks (index : ℤ → List Cand) (nxt : ℤ) : List Cand := index nxt ++ [(nxt, ownProof nxt)]

/-! ## The worker -/

/-- What `submit_head` makes of the answer. -/
inductive Reply where
  | ok | ahead | unsupported | rejected
  deriving DecidableEq

/-- Where the worker is, with the head it has read, the end of the chunk it is at, the chunks that
are left, and how far the receipt goes that it has made. -/
inductive Spot where
  | top
  | bootstrap
  | listing (was : ℤ)
  | trying (was : ℤ) (cands : List Cand)
  | folding (was hi : ℤ) (rest : List Cand)
  | checking (was : ℤ) (rest : List Cand)
  | submitting (was hi made : ℤ) (rest : List Cand)
  | stopped
  | exited

/-- A narrower chunk, or the end where there is none. -/
def narrower (was : ℤ) (rest : List Cand) (last : Spot) : Spot :=
  if rest = [] then last else .trying was rest

/-- `cmd_spine`. The index is absent until it has been read. -/
structure Extender where
  want : Option ℕ
  index : Option (ℤ → List Cand) := none
  done : ℕ := 0
  blocks : ℤ := 0
  spot : Spot := .top

/-- What the worker meets: the answers of the coordinator, and of the host. A head, a list or a
receipt is absent where the request has raised. `unanswered` is a request that ends the worker. -/
inductive SpineEvent where
  | finish
  | head (hi : Option ℤ)
  | seed (made : Option ℤ)
  | list (read : Option (List (Option VRange)))
  | trusted
  | fetch (served : Bool)
  | fold (made : Option ℤ)
  | recheck (hi : Option ℤ)
  | submit (reply : Reply)
  | unanswered
  | others (hi : ℤ)

namespace Extender

variable (x : Extender)

/-- `not (want is None or done < want)` -/
def enough : Bool := x.want.any (· ≤ x.done)

/-- The next step of `cmd_spine`. An event that does not belong to the spot is no step. -/
def next (e : SpineEvent) : Option Extender :=
  match e, x.spot with
  | .finish, .top => if x.enough then some { x with spot := .stopped } else none
  | .head none, .top => if x.enough then none else some { x with spot := .bootstrap }
  | .head (some was), .top => if x.enough then none else some { x with spot := .listing was }
  | .seed none, .bootstrap => some { x with spot := .stopped }
  -- the receipt of block 1 is submitted as it is
  | .seed (some made), .bootstrap => some { x with spot := .submitting 0 1 made [] }
  | .list read, .listing was =>
    let index := spineIndex (read.getD [])
    some { x with index := some index, spot := .trying was (spineChunks index (was + 1)) }
  | .trusted, .listing was =>
    x.index.map fun index => { x with spot := .trying was (spineChunks index (was + 1)) }
  | .fetch false, .trying was (_ :: rest) => some { x with spot := narrower was rest .stopped }
  | .fetch true, .trying was (cand :: rest) => some { x with spot := .folding was cand.1 rest }
  | .fold none, .folding was _ rest => some { x with spot := .checking was rest }
  | .fold (some made), .folding was hi rest => some { x with spot := .submitting was hi made rest }
  | .recheck now, .checking was rest =>
    -- the head has moved, and the fold was of a head that is not there any more
    if now.any (· ≠ was) then some { x with spot := .top }
    else some { x with spot := narrower was rest .exited }
  | .submit .ok, .submitting was hi _ _ =>
    some { x with done := x.done + 1, blocks := x.blocks + (hi - was), spot := .top }
  | .submit .rejected, .submitting was _ _ rest => some { x with spot := narrower was rest .stopped }
  | .submit .ahead, .submitting .. => some { x with spot := .stopped }
  | .submit .unsupported, .submitting .. => some { x with spot := .stopped }
  | .unanswered, .stopped => none
  | .unanswered, .exited => none
  | .unanswered, _ => some { x with spot := .exited }
  | _, _ => none

end Extender

/-! ## The worker among others -/

/-- The head, 0 where there is none, and a worker. -/
structure World where
  head : ℤ
  worker : Extender

/-- What can be answered. A head is the one there is, `extend-spine` checks that the spine has
    become longer, and the coordinator that it is longer than the head. Others only raise it. -/
def World.Fits (w : World) : SpineEvent → Prop
  | .head (some hi) => hi = w.head
  | .seed (some made) => 0 < made
  | .fold (some made) => ∀ was hi rest, w.worker.spot = .folding was hi rest → was < made
  | .recheck (some hi) => hi = w.head
  | .submit .ok => ∀ was hi made rest, w.worker.spot = .submitting was hi made rest → w.head < made
  | .submit .ahead => ∀ was hi made rest, w.worker.spot = .submitting was hi made rest → made ≤ w.head
  | .others hi => w.head < hi
  | _ => True

/-- The head after a step. -/
def World.headAfter (w : World) (e : SpineEvent) : ℤ :=
  match e, w.worker.spot with
  | .submit .ok, .submitting _ _ made _ => made
  | .others hi, _ => hi
  | _, _ => w.head

def SpineStep (w : World) (e : SpineEvent) (w' : World) : Prop :=
  w.Fits e ∧ w'.head = w.headAfter e ∧
    ((∃ hi, e = .others hi) ∧ w'.worker = w.worker ∨ w.worker.next e = some w'.worker)

/-- A worker that is started, at any head. -/
def started (want : Option ℕ) (w : World) : Prop := 0 ≤ w.head ∧ w.worker = { want }

abbrev SpineTrace := List (World × SpineEvent × World)

abbrev SpineRun (want : Option ℕ) := Runs.Run (started want) SpineStep

/-- The coordinator answers, and the receipt of the next block alone is served, folds where the head
is still there, and is taken where nobody is ahead. At the top the pass is over. -/
structure Served (w : World) (e : SpineEvent) : Prop where
  /-- No request raises out of the worker. -/
  answered : e ≠ .unanswered
  /-- Nor does the one for the head after a fold that failed. -/
  rechecked : e ≠ .recheck none
  /-- The coordinator has `POST /api/spine`. -/
  supported : e ≠ .submit .unsupported
  /-- At the top of the loop only others move. -/
  onePass : w.worker.spot = .top → ∃ hi, e = .others hi
  /-- The receipt of the next block alone, which is the last candidate, is served. -/
  fetched : e = .fetch false → ∀ was cand, w.worker.spot ≠ .trying was [cand]
  /-- It folds unless the head has moved on. -/
  folded : e = .fold none → ∀ was hi, w.worker.spot = .folding was hi [] → w.head ≠ was
  /-- And its submission is not rejected for another reason than that somebody is ahead. -/
  taken : e = .submit .rejected → ∀ was hi made, w.worker.spot ≠ .submitting was hi made []

/-- What is left of a pass. -/
abbrev PassRun (w : World) :=
  Runs.Run (w = ·) fun u e u' => SpineStep u e u' ∧ Served u e

/-- A submission that went through: the head that was read, the end of the chunk, how far the receipt
goes, and the head that it has replaced. -/
structure Taken where
  was : ℤ
  hi : ℤ
  made : ℤ
  before : ℤ

def Taken.width (t : Taken) : ℤ := t.hi - t.was

def Taken.advance (t : Taken) : ℤ := t.made - t.before

def taken (t : World × SpineEvent × World) : Option Taken :=
  match t.2.1, t.1.worker.spot with
  | .submit .ok, .submitting was hi made _ => some ⟨was, hi, made, t.1.head⟩
  | _, _ => none

def takenIn (trace : SpineTrace) : List Taken := trace.filterMap taken

/-! ## The chunks at a head -/

variable {vranges : List (Option VRange)} {lo nxt : ℤ} {cand : Cand} {index : ℤ → List Cand}

/-- A chunk of the index is an entry of the list that begins there, and wider than a block. -/
theorem mem_spineIndex (h : cand ∈ spineIndex vranges lo) :
    some ⟨lo, cand.1, cand.2⟩ ∈ vranges ∧ lo < cand.1 := by
  unfold spineIndex at h
  dsimp only at h
  rw [List.mem_reverse, SortedMap.mem_entries, SortedMap.get?_insertAll, SortedMap.get?_empty,
    Option.or_none, Option.map_eq_some_iff] at h
  obtain ⟨e, hfind, hproof⟩ := h
  have hkey : e.1 = cand.1 := by simpa using List.find?_some hfind
  obtain ⟨r, hr, rfl⟩ := List.mem_map.mp (List.mem_reverse.mp (List.mem_of_find?_eq_some hfind))
  obtain ⟨hmem, hcounts⟩ := List.mem_filter.mp hr
  obtain ⟨⟨hlt, -⟩, rfl⟩ := of_decide_eq_true hcounts
  dsimp only at hkey hproof
  rw [← hkey, ← hproof]
  exact ⟨List.reduceOption_mem_iff.mp hmem, hlt⟩

theorem spineIndex_falling (vranges : List (Option VRange)) (lo : ℤ) :
    (spineIndex vranges lo).Pairwise fun a b => b.1 < a.1 := by
  unfold spineIndex
  exact List.pairwise_reverse.mpr (SortedMap.sorted _)

theorem spineChunks_falling (vranges : List (Option VRange)) (nxt : ℤ) :
    (spineChunks (spineIndex vranges) nxt).Pairwise fun a b => b.1 < a.1 := by
  unfold spineChunks
  refine List.pairwise_append.mpr ⟨spineIndex_falling vranges nxt, List.pairwise_singleton _ _, ?_⟩
  intro a ha b hb
  rw [List.mem_singleton.mp hb]
  exact (mem_spineIndex ha).2

theorem spineChunks_ne_nil : spineChunks index nxt ≠ [] := by
  unfold spineChunks
  simp

/-- The list has been read. -/
def ReadIn (trace : SpineTrace) (vranges : List (Option VRange)) : Prop :=
  ∃ t ∈ trace, ∃ read, t.2.1 = .list read ∧ vranges = read.getD []

/-- The chunks begin after the head, and each is narrower than the one before it. The last is the next
block alone. -/
structure Tried (trace : SpineTrace) (was : ℤ) (cands : List Cand) : Prop where
  /-- Widest first. -/
  falling : cands.Pairwise fun a b => b.1 < a.1
  last : cands.getLast? = some (was + 1, ownProof (was + 1))
  /-- A wide one is an entry of a list that the worker has read, with the path that the entry
      names. -/
  listed : ∀ c ∈ cands, c = (was + 1, ownProof (was + 1)) ∨
    ∃ vranges, ReadIn trace vranges ∧ some ⟨was + 1, c.1, c.2⟩ ∈ vranges

theorem Tried.of_suffix {trace : SpineTrace} {was : ℤ} {cands : List Cand}
    (hread : ReadIn trace vranges) (hne : cands ≠ [])
    (h : cands <:+ spineChunks (spineIndex vranges) (was + 1)) : Tried trace was cands := by
  refine ⟨(spineChunks_falling vranges (was + 1)).sublist h.sublist, ?_, ?_⟩
  · obtain ⟨front, hfront⟩ := h
    have hlast := congrArg List.getLast? hfront
    rw [List.getLast?_append_of_ne_nil _ hne] at hlast
    rw [hlast]
    unfold spineChunks
    simp
  · intro c hc
    have hmem := h.subset hc
    unfold spineChunks at hmem
    rcases List.mem_append.mp hmem with hwide | hone
    · exact .inr ⟨vranges, hread, (mem_spineIndex hwide).1⟩
    · exact .inl (List.mem_singleton.mp hone)

/-! ## What a step of the worker does -/

/-- Where a step leads that neither reads the list nor extends the spine. -/
inductive Goes (index : Option (ℤ → List Cand)) : Spot → SpineEvent → Spot → Prop where
  | finish : Goes index .top .finish .stopped
  | noHead : Goes index .top (.head none) .bootstrap
  | head {was : ℤ} : Goes index .top (.head (some was)) (.listing was)
  | unproven : Goes index .bootstrap (.seed none) .stopped
  | seed {made : ℤ} : Goes index .bootstrap (.seed (some made)) (.submitting 0 1 made [])
  | trusted {was : ℤ} {known : ℤ → List Cand} (h : known ∈ index) :
      Goes index (.listing was) .trusted (.trying was (spineChunks known (was + 1)))
  | unserved {was : ℤ} {cand : Cand} {rest : List Cand} :
      Goes index (.trying was (cand :: rest)) (.fetch false) (narrower was rest .stopped)
  | served {was : ℤ} {cand : Cand} {rest : List Cand} :
      Goes index (.trying was (cand :: rest)) (.fetch true) (.folding was cand.1 rest)
  | failed {was hi : ℤ} {rest : List Cand} :
      Goes index (.folding was hi rest) (.fold none) (.checking was rest)
  | folded {was hi made : ℤ} {rest : List Cand} :
      Goes index (.folding was hi rest) (.fold (some made)) (.submitting was hi made rest)
  | moved {was : ℤ} {rest : List Cand} {now : Option ℤ} (h : now.any (· ≠ was) = true) :
      Goes index (.checking was rest) (.recheck now) .top
  | unmoved {was : ℤ} {rest : List Cand} {now : Option ℤ} (h : ¬ now.any (· ≠ was) = true) :
      Goes index (.checking was rest) (.recheck now) (narrower was rest .exited)
  | rejected {was hi made : ℤ} {rest : List Cand} :
      Goes index (.submitting was hi made rest) (.submit .rejected) (narrower was rest .stopped)
  | ahead {was hi made : ℤ} {rest : List Cand} :
      Goes index (.submitting was hi made rest) (.submit .ahead) .stopped
  | unsupported {was hi made : ℤ} {rest : List Cand} :
      Goes index (.submitting was hi made rest) (.submit .unsupported) .stopped
  | unanswered {spot : Spot} : Goes index spot .unanswered .exited

/-- What a step of the worker does. -/
inductive Moves (x : Extender) : SpineEvent → Extender → Prop where
  | go {e : SpineEvent} {spot : Spot} (h : Goes x.index x.spot e spot) : Moves x e { x with spot }
  | list {was : ℤ} {read : Option (List (Option VRange))} (h : x.spot = .listing was) :
      Moves x (.list read)
        { x with
          index := some (spineIndex (read.getD []))
          spot := .trying was (spineChunks (spineIndex (read.getD [])) (was + 1)) }
  | extend {was hi made : ℤ} {rest : List Cand} (h : x.spot = .submitting was hi made rest) :
      Moves x (.submit .ok)
        { x with done := x.done + 1, blocks := x.blocks + (hi - was), spot := .top }

/-- What a step of the worker does, by its spot and the event; every later proof is by these
    cases. -/
theorem Extender.moves {x x' : Extender} {e : SpineEvent} (h : x.next e = some x') :
    Moves x e x' := by
  have hgo : ∀ {spot spot' : Spot}, x.spot = spot → Goes x.index spot e spot' →
      Moves x e { x with spot := spot' } := by
    intro spot spot' hspot hgoes
    rw [← hspot] at hgoes
    exact .go hgoes
  -- one case per place the worker can be at and event it can meet there
  unfold Extender.next at h
  split at h
  case h_1 hspot =>
    split_ifs at h
    obtain rfl := Option.some.inj h
    exact hgo hspot .finish
  case h_2 hspot =>
    split_ifs at h
    obtain rfl := Option.some.inj h
    exact hgo hspot .noHead
  case h_3 hspot =>
    split_ifs at h
    obtain rfl := Option.some.inj h
    exact hgo hspot .head
  case h_4 hspot => obtain rfl := Option.some.inj h; exact hgo hspot .unproven
  case h_5 hspot => obtain rfl := Option.some.inj h; exact hgo hspot .seed
  case h_6 hspot => obtain rfl := Option.some.inj h; exact .list hspot
  case h_7 hspot =>
    obtain ⟨known, hknown, rfl⟩ := Option.map_eq_some_iff.mp h
    exact hgo hspot (.trusted hknown)
  case h_8 hspot => obtain rfl := Option.some.inj h; exact hgo hspot .unserved
  case h_9 hspot => obtain rfl := Option.some.inj h; exact hgo hspot .served
  case h_10 hspot => obtain rfl := Option.some.inj h; exact hgo hspot .failed
  case h_11 hspot => obtain rfl := Option.some.inj h; exact hgo hspot .folded
  case h_12 hspot =>
    split_ifs at h with hmoved
    · obtain rfl := Option.some.inj h
      exact hgo hspot (.moved hmoved)
    · obtain rfl := Option.some.inj h
      exact hgo hspot (.unmoved hmoved)
  case h_13 hspot => obtain rfl := Option.some.inj h; exact .extend hspot
  case h_14 hspot => obtain rfl := Option.some.inj h; exact hgo hspot .rejected
  case h_15 hspot => obtain rfl := Option.some.inj h; exact hgo hspot .ahead
  case h_16 hspot => obtain rfl := Option.some.inj h; exact hgo hspot .unsupported
  case h_17 => cases h
  case h_18 => cases h
  case h_19 => obtain rfl := Option.some.inj h; exact hgo rfl .unanswered
  case h_20 => cases h

/-! ## A run -/

variable {want : Option ℕ} {trace : SpineTrace} {w w' : World} {e : SpineEvent}

/-- Nothing is left, or the narrower chunks of a list that has been read. -/
def LeftOf (trace : SpineTrace) (was : ℤ) (rest : List Cand) : Prop :=
  rest = [] ∨ ∃ vranges, ReadIn trace vranges ∧ rest <:+ spineChunks (spineIndex vranges) (was + 1)

/-- What holds where the worker is. -/
def SpotInv (trace : SpineTrace) (head : ℤ) : Spot → Prop
  | .listing was => was ≤ head
  | .trying was cands => was ≤ head ∧ cands ≠ [] ∧ LeftOf trace was cands
  | .folding was _ rest => was ≤ head ∧ LeftOf trace was rest
  | .checking was rest => was ≤ head ∧ LeftOf trace was rest
  | .submitting was _ made rest => was ≤ head ∧ was < made ∧ LeftOf trace was rest
  | .top | .bootstrap | .stopped | .exited => True

/-- What is so in every state of a run: what the worker goes by was read, and what it counts was
    taken. -/
structure ExtendInv (trace : SpineTrace) (w : World) : Prop where
  nonneg : 0 ≤ w.head
  /-- What the worker has in hand where it is, against the head there is now. -/
  spot : SpotInv trace w.head w.worker.spot
  /-- The index is of a list that was read, maybe a pass or more ago. -/
  index : ∀ index ∈ w.worker.index, ∃ vranges, ReadIn trace vranges ∧ index = spineIndex vranges
  /-- What it reports at the end are the submissions that were taken. -/
  done : w.worker.done = (takenIn trace).length
  /-- For each it adds the width that the list gives, and not what the head moved by. -/
  blocks : w.worker.blocks = ((takenIn trace).map Taken.width).sum
  /-- The head does not go back between the read and the submission. -/
  moved : ∀ t ∈ takenIn trace, t.was ≤ t.before

theorem ReadIn.append (h : ReadIn trace vranges) (more : SpineTrace) :
    ReadIn (trace ++ more) vranges := by
  obtain ⟨t, ht, hread⟩ := h
  exact ⟨t, List.mem_append_left _ ht, hread⟩

theorem LeftOf.append {was : ℤ} {rest : List Cand} (h : LeftOf trace was rest)
    (more : SpineTrace) : LeftOf (trace ++ more) was rest := by
  rcases h with h | ⟨vranges, hread, hsuffix⟩
  · exact .inl h
  · exact .inr ⟨vranges, hread.append more, hsuffix⟩

/-- What is left when a chunk is done with. -/
theorem LeftOf.tail {was : ℤ} {cand : Cand} {rest : List Cand}
    (h : LeftOf trace was (cand :: rest)) : LeftOf trace was rest := by
  rcases h with h | ⟨vranges, hread, hsuffix⟩
  · cases h
  · exact .inr ⟨vranges, hread, (List.suffix_cons cand rest).trans hsuffix⟩

theorem SpotInv.append {head head' : ℤ} {spot : Spot} (h : SpotInv trace head spot)
    (hle : head ≤ head') (more : SpineTrace) : SpotInv (trace ++ more) head' spot := by
  cases spot with
  | listing was => exact le_trans h hle
  | trying was cands => exact ⟨h.1.trans hle, h.2.1, h.2.2.append more⟩
  | folding was hi rest => exact ⟨h.1.trans hle, h.2.append more⟩
  | checking was rest => exact ⟨h.1.trans hle, h.2.append more⟩
  | submitting was hi made rest => exact ⟨h.1.trans hle, h.2.1, h.2.2.append more⟩
  | top | bootstrap | stopped | exited => trivial

theorem SpotInv.narrower {head was : ℤ} {rest : List Cand} {last : Spot} (hle : was ≤ head)
    (hleft : LeftOf trace was rest) (hlast : SpotInv trace head last) :
    SpotInv trace head (narrower was rest last) := by
  unfold Extend.narrower
  split
  · exact hlast
  · rename_i hne
    exact ⟨hle, hne, hleft⟩

/-- The head only goes up. -/
theorem le_headAfter (hfits : w.Fits e) : w.head ≤ w.headAfter e := by
  unfold World.headAfter
  split
  · rename_i was hi made rest hspot
    exact (hfits was hi made rest hspot).le
  · exact le_of_lt hfits
  · exact le_rfl

theorem takenIn_snoc (t : World × SpineEvent × World) :
    takenIn (trace ++ [t]) = takenIn trace ++ (taken t).toList := by
  unfold takenIn
  rw [List.filterMap_append]
  cases htaken : taken t <;> simp [htaken]

/-- Where the worker is after a step that only goes somewhere else. -/
theorem ExtendInv.goes {spot : Spot} (hs : ExtendInv trace w) (hfits : w.Fits e)
    (hgoes : Goes w.worker.index w.worker.spot e spot) : SpotInv trace w.head spot := by
  have hspot := hs.spot
  generalize hold : w.worker.spot = old at hgoes hspot
  cases hgoes with
  | finish | noHead | unproven | moved | ahead | unsupported | unanswered => trivial
  | head => exact le_of_eq hfits
  | seed => exact ⟨hs.nonneg, hfits, .inl rfl⟩
  | trusted hknown =>
    obtain ⟨vranges, hread, rfl⟩ := hs.index _ hknown
    exact ⟨hspot, spineChunks_ne_nil, .inr ⟨vranges, hread, List.suffix_refl _⟩⟩
  | unserved => exact .narrower hspot.1 hspot.2.2.tail trivial
  | served => exact ⟨hspot.1, hspot.2.2.tail⟩
  | failed => exact hspot
  | folded => exact ⟨hspot.1, hfits _ _ _ hold, hspot.2⟩
  | unmoved => exact .narrower hspot.1 hspot.2 trivial
  | rejected => exact .narrower hspot.1 hspot.2.2 trivial

theorem taken_of_goes {index : Option (ℤ → List Cand)} {spot spot' : Spot}
    (h : Goes index spot e spot') : taken (w, e, w') = none := by
  cases h <;> rfl

theorem headAfter_of_goes {index : Option (ℤ → List Cand)} {spot spot' : Spot}
    (h : Goes index spot e spot') : w.headAfter e = w.head := by
  cases h <;> rfl

/-- One step: what is read joins the trace, what is taken is counted, and the head is not lower than
    what was read before. -/
theorem ExtendInv.step (hs : ExtendInv trace w) (hstep : SpineStep w e w') :
    ExtendInv (trace ++ [(w, e, w')]) w' := by
  obtain ⟨hfits, hhead, hworker⟩ := hstep
  have hle : w.head ≤ w'.head := by
    rw [hhead]
    exact le_headAfter hfits
  have hindex : ∀ index ∈ w.worker.index, ∃ vranges,
      ReadIn (trace ++ [(w, e, w')]) vranges ∧ index = spineIndex vranges := by
    intro index hmem
    obtain ⟨vranges, hread, heq⟩ := hs.index index hmem
    exact ⟨vranges, hread.append _, heq⟩
  -- another worker raises the head, or this one moves
  rcases hworker with ⟨⟨hi, rfl⟩, hsame⟩ | hnext
  · have hnone : taken (w, .others hi, w') = none := rfl
    refine ⟨hs.nonneg.trans hle, ?_, ?_, ?_, ?_, ?_⟩
    · rw [hsame]
      exact hs.spot.append hle _
    · rw [hsame]
      exact hindex
    · rw [hsame, takenIn_snoc, hnone, hs.done]
      simp
    · rw [hsame, takenIn_snoc, hnone, hs.blocks]
      simp
    · rw [takenIn_snoc, hnone]
      simpa using hs.moved
  · have hmoves := Extender.moves hnext
    generalize hworker : w'.worker = x at hmoves hnext
    cases hmoves with
    | @go _ spot hgoes =>
      have hnone : taken (w, e, w') = none := taken_of_goes hgoes
      refine ⟨hs.nonneg.trans hle, ?_, ?_, ?_, ?_, ?_⟩
      · rw [hworker]
        exact (hs.goes hfits hgoes).append hle _
      · rw [hworker]
        exact hindex
      · rw [hworker, takenIn_snoc, hnone]
        simpa using hs.done
      · rw [hworker, takenIn_snoc, hnone]
        simpa using hs.blocks
      · rw [takenIn_snoc, hnone]
        simpa using hs.moved
    -- the listing becomes the index, and every candidate is read off it
    | @list was read hspot =>
      have hnone : taken (w, .list read, w') = none := rfl
      have hread : ReadIn (trace ++ [(w, .list read, w')]) (read.getD []) :=
        ⟨_, List.mem_append_right _ (List.mem_singleton_self _), read, rfl, rfl⟩
      have hold := hs.spot
      rw [hspot] at hold
      refine ⟨hs.nonneg.trans hle, ?_, ?_, ?_, ?_, ?_⟩
      · rw [hworker]
        refine ⟨le_trans hold hle, spineChunks_ne_nil, .inr ⟨_, hread, List.suffix_refl _⟩⟩
      · intro index hmem
        rw [hworker] at hmem
        obtain rfl := Option.some.inj hmem
        exact ⟨_, hread, rfl⟩
      · rw [hworker, takenIn_snoc, hnone]
        simpa using hs.done
      · rw [hworker, takenIn_snoc, hnone]
        simpa using hs.blocks
      · rw [takenIn_snoc, hnone]
        simpa using hs.moved
    -- the one step that enters the takings, and it was made at a head below
    | @extend was hi made rest hspot =>
      have hsome : taken (w, .submit .ok, w') = some ⟨was, hi, made, w.head⟩ := by
        unfold taken
        dsimp only
        rw [hspot]
      have hold := hs.spot
      rw [hspot] at hold
      refine ⟨hs.nonneg.trans hle, ?_, ?_, ?_, ?_, ?_⟩
      · rw [hworker]
        trivial
      · rw [hworker]
        exact hindex
      · rw [hworker, takenIn_snoc, hsome]
        simp [hs.done]
      · rw [hworker, takenIn_snoc, hsome]
        simp [hs.blocks, Taken.width]
      · rw [takenIn_snoc, hsome]
        intro t ht
        rcases List.mem_append.mp ht with ht | ht
        · exact hs.moved t ht
        · rw [List.mem_singleton.mp ht]
          exact hold.1

theorem ExtendInv.of_run (h : SpineRun want trace w) : ExtendInv trace w := by
  induction h with
  | nil hinit =>
    obtain ⟨hnonneg, hworker⟩ := hinit
    refine ⟨hnonneg, ?_, ?_, ?_, ?_, ?_⟩
    · rw [hworker]
      trivial
    · rw [hworker]
      exact fun index hmem => absurd hmem (Option.not_mem_none index)
    · rw [hworker]
      rfl
    · rw [hworker]
      rfl
    · exact fun t ht => absurd ht List.not_mem_nil
  | snoc _ hstep ih => exact ih.step hstep

/-! ## A pass -/

/-- The pass is about the head `was`, or it is over and the head is above it. -/
def PassInv (was : ℤ) (w : World) : Prop :=
  was ≤ w.head ∧
  match w.worker.spot with
  | .listing n => n = was
  | .trying n cands => n = was ∧ cands ≠ []
  | .folding n _ _ => n = was
  | .checking n rest => n = was ∧ (rest = [] → w.head ≠ was)
  | .submitting n _ made _ => n = was ∧ was < made
  | .top | .stopped => was < w.head
  | .bootstrap | .exited => False

variable {was : ℤ} {u u' : World}

theorem PassInv.raise {hi : ℤ} (h : PassInv was u) (hhi : u.head < hi)
    (hhead : u'.head = hi) (hworker : u'.worker = u.worker) : PassInv was u' := by
  obtain ⟨hle, hspot⟩ := h
  unfold PassInv
  rw [hworker, hhead]
  have hlt : was < hi := lt_of_le_of_lt hle hhi
  refine ⟨hlt.le, ?_⟩
  cases hold : u.worker.spot with
  | checking n rest =>
    rw [hold] at hspot
    exact ⟨hspot.1, fun _ => hlt.ne'⟩
  | top | stopped => exact hlt
  | listing | trying | folding | submitting | bootstrap | exited =>
    rw [hold] at hspot
    exact hspot

theorem PassInv.narrower {n : ℤ} {rest : List Cand} {last : Spot} {x : Extender}
    (hle : was ≤ u.head) (heq : n = was) (hlast : rest ≠ []) (hhead : u'.head = u.head)
    (hworker : u'.worker = { x with spot := narrower n rest last }) : PassInv was u' := by
  unfold PassInv
  rw [hworker, hhead]
  unfold Extend.narrower
  dsimp only
  rw [if_neg hlast]
  exact ⟨hle, heq, hlast⟩

/-- The worker gives up a chunk only for a narrower one, as long as the next block alone is served.
    From the last one there are two ways on: it is taken, or somebody is ahead; in both the head is
    above. -/
theorem PassInv.step (h : PassInv was u) (hstep : SpineStep u e u') (hserved : Served u e) :
    PassInv was u' := by
  obtain ⟨hfits, hhead, hworker⟩ := hstep
  -- a raise by another worker only helps; the rest is one case per move
  rcases hworker with ⟨⟨hi, rfl⟩, hsame⟩ | hnext
  · exact h.raise hfits hhead hsame
  obtain ⟨hle, hspot⟩ := h
  have hmoves := Extender.moves hnext
  generalize hworker : u'.worker = x at hmoves hnext
  cases hmoves with
  | @list n read hold =>
    rw [hold] at hspot
    have hsame : u'.head = u.head := hhead
    unfold PassInv
    rw [hworker, hsame]
    exact ⟨hle, hspot, spineChunks_ne_nil⟩
  | @extend n hi made rest hold =>
    rw [hold] at hspot
    have hmade : u'.head = made := by
      rw [hhead]
      unfold World.headAfter
      rw [hold]
    unfold PassInv
    rw [hworker, hmade]
    exact ⟨hspot.2.le, hspot.2⟩
  | @go _ spot hgoes =>
    have hsame : u'.head = u.head := hhead.trans (headAfter_of_goes hgoes)
    generalize hold : u.worker.spot = old at hgoes hspot
    cases hgoes with
    -- a pass does not reach the top again
    | finish =>
      obtain ⟨hi, heq⟩ := hserved.onePass hold
      cases heq
    | noHead =>
      obtain ⟨hi, heq⟩ := hserved.onePass hold
      cases heq
    | head =>
      obtain ⟨hi, heq⟩ := hserved.onePass hold
      cases heq
    | unproven => exact absurd hspot id
    | seed => exact absurd hspot id
    | unanswered => exact absurd rfl hserved.answered
    | unsupported => exact absurd rfl hserved.supported
    | trusted =>
      unfold PassInv
      rw [hworker, hsame]
      exact ⟨hle, hspot, spineChunks_ne_nil⟩
    -- narrower candidates are left, since the last one is served
    | @unserved n cand rest =>
      refine PassInv.narrower hle hspot.1 ?_ hsame hworker
      rintro rfl
      exact hserved.fetched rfl n cand hold
    | served =>
      unfold PassInv
      rw [hworker, hsame]
      exact ⟨hle, hspot.1⟩
    | @failed n hi rest =>
      unfold PassInv
      rw [hworker, hsame]
      refine ⟨hle, hspot, ?_⟩
      rintro rfl
      obtain rfl : n = was := hspot
      exact hserved.folded rfl n hi hold
    | folded =>
      unfold PassInv
      rw [hworker, hsame]
      obtain rfl := hspot
      exact ⟨hle, rfl, hfits _ _ _ hold⟩
    -- the head is no longer the one read at the start, so it has risen
    | @moved n rest now hmoved =>
      unfold PassInv
      rw [hworker, hsame]
      cases now with
      | none => cases hmoved
      | some now =>
        have hne : now ≠ n := by simpa using hmoved
        obtain rfl : now = u.head := hfits
        obtain rfl := hspot.1
        exact ⟨hle, lt_of_le_of_ne hle hne.symm⟩
    | @unmoved n rest now hmoved =>
      refine PassInv.narrower hle hspot.1 ?_ hsame hworker
      rintro rfl
      cases now with
      | none => exact hserved.rechecked rfl
      | some now =>
        obtain rfl : now = u.head := hfits
        obtain rfl := hspot.1
        exact hmoved (by simpa using hspot.2 rfl)
    | @rejected n hi made rest =>
      refine PassInv.narrower hle hspot.1 ?_ hsame hworker
      rintro rfl
      exact hserved.taken rfl n hi made hold
    | ahead =>
      unfold PassInv
      rw [hworker, hsame]
      exact ⟨hle, lt_of_lt_of_le hspot.2 (hfits _ _ _ _ hold)⟩

theorem PassInv.of_run {pass : SpineTrace} (hw : PassInv was w) (h : PassRun w pass w') :
    PassInv was w' := by
  induction h with
  | nil hinit =>
    rw [← hinit]
    exact hw
  | snoc _ hstep ih => exact ih.step hstep.1 hstep.2

/-- The most steps that are left of a pass. A chunk takes three. -/
def Spot.left : Spot → ℕ
  | .trying _ cands => 3 * cands.length
  | .folding _ _ rest => 3 * rest.length + 2
  | .checking _ rest => 3 * rest.length + 1
  | .submitting _ _ _ rest => 3 * rest.length + 1
  | .top | .bootstrap | .listing _ | .stopped | .exited => 0

def SpineEvent.own : SpineEvent → Bool
  | .others _ => false
  | _ => true

def Spot.isListing : Spot → Bool
  | .listing _ => true
  | _ => false

theorem left_narrower (n : ℤ) (rest : List Cand) {last : Spot} (hlast : last.left = 0) :
    (narrower n rest last).left ≤ 3 * rest.length := by
  unfold narrower
  split
  · rw [hlast]
    exact Nat.zero_le _
  · exact le_rfl

theorem isListing_narrower (n : ℤ) (rest : List Cand) {last : Spot}
    (hlast : last.isListing = false) : (narrower n rest last).isListing = false := by
  unfold narrower
  split
  · exact hlast
  · rfl

/-- Once the list has been read, each step of the worker leaves less to do. The steps of others
    leave it as it is. -/
theorem left_lt (hu : PassInv was u) (hstep : SpineStep u e u') (hserved : Served u e)
    (hlist : u.worker.spot.isListing = false) :
    u'.worker.spot.isListing = false ∧
      u'.worker.spot.left + (if e.own then 1 else 0) ≤ u.worker.spot.left := by
  obtain ⟨-, -, hworker⟩ := hstep
  rcases hworker with ⟨⟨hi, rfl⟩, hsame⟩ | hnext
  · rw [hsame]
    exact ⟨hlist, le_rfl⟩
  have hspot := hu.2
  have hmoves := Extender.moves hnext
  generalize hworker : u'.worker = x at hmoves hnext
  cases hmoves with
  -- a listing does not come twice in a pass
  | list hold =>
    rw [hold] at hlist
    cases hlist
  -- the submit ends the pass
  | extend hold =>
    rw [hold]
    refine ⟨rfl, ?_⟩
    simp [Spot.left, SpineEvent.own]
  | @go _ spot hgoes =>
    dsimp only
    generalize hold : u.worker.spot = old at hgoes hspot hlist
    cases hgoes with
    | finish | noHead | head =>
      obtain ⟨hi, heq⟩ := hserved.onePass hold
      cases heq
    | unproven | seed => exact absurd hspot id
    | unanswered => exact absurd rfl hserved.answered
    | trusted => cases hlist
    -- a candidate is given up: three steps fewer for the ones behind it
    | @unserved n cand rest =>
      have hleft : (narrower n rest .stopped).left ≤ 3 * rest.length := left_narrower n rest rfl
      refine ⟨isListing_narrower n rest rfl, ?_⟩
      show (narrower n rest .stopped).left + 1 ≤ 3 * (rest.length + 1)
      omega
    | @unmoved n rest =>
      have hleft : (narrower n rest .exited).left ≤ 3 * rest.length := left_narrower n rest rfl
      refine ⟨isListing_narrower n rest rfl, ?_⟩
      show (narrower n rest .exited).left + 1 ≤ 3 * rest.length + 1
      omega
    | @rejected n hi made rest =>
      have hleft : (narrower n rest .stopped).left ≤ 3 * rest.length := left_narrower n rest rfl
      refine ⟨isListing_narrower n rest rfl, ?_⟩
      show (narrower n rest .stopped).left + 1 ≤ 3 * rest.length + 1
      omega
    | served | failed | folded | moved | ahead | unsupported =>
      refine ⟨rfl, ?_⟩
      simp [Spot.left, SpineEvent.own, Nat.mul_add]

/-- So a pass has at most as many steps of the worker as were left at its beginning. -/
theorem length_pass {pass : SpineTrace} (hw : PassInv was w)
    (hlist : w.worker.spot.isListing = false) (h : PassRun w pass w') :
    (pass.countP fun t => t.2.1.own) ≤ w.worker.spot.left := by
  have hboth : w'.worker.spot.isListing = false ∧
      (pass.countP fun t => t.2.1.own) + w'.worker.spot.left ≤ w.worker.spot.left := by
    induction h with
    | nil hinit =>
      rw [← hinit]
      exact ⟨hlist, by simp⟩
    | @snoc pass u u' e hrun hstep ih =>
      obtain ⟨hnot, hle⟩ := ih
      obtain ⟨hnot', hstep'⟩ := left_lt (hw.of_run hrun) hstep.1 hstep.2 hnot
      refine ⟨hnot', ?_⟩
      rw [List.countP_append, List.countP_singleton]
      dsimp only
      omega
  exact Nat.le_of_add_right_le hboth.2

/-! ## What a run keeps -/

/-- What a pass comes to that was about the head `was`. -/
structure Passed (was : ℤ) (w' : World) : Prop where
  goesOn : w'.worker.spot ≠ .exited
  ahead : w'.worker.spot = .top ∨ w'.worker.spot = .stopped → was < w'.head

/-- The chunks that are tried, the passes in which the next block is served, and what is counted. -/
structure ExtenderKept (trace : SpineTrace) (w : World) : Prop where
  tried : ∀ was cands, w.worker.spot = .trying was cands → Tried trace was cands
  /-- From the list or from the chunks on, a pass in which the next block is served never exits, and
      ends above the head it began at. -/
  passes : ∀ was, (w.worker.spot = .listing was ∨ ∃ cands, w.worker.spot = .trying was cands) →
    ∀ pass w', PassRun w pass w' → Passed was w'
  /-- Three steps for a chunk at most: fetch, fold and recheck, or fetch, fold and submit. -/
  short : ∀ was cands, w.worker.spot = .trying was cands → ∀ pass w', PassRun w pass w' →
    (pass.countP fun t => t.2.1.own) ≤ 3 * cands.length
  /-- The count, in chunks and in blocks. -/
  reported : w.worker.done = (takenIn trace).length ∧
    w.worker.blocks = ((takenIn trace).map Taken.width).sum
  /-- Where each receipt goes as far as its entry says, the blocks reported are not fewer than those
      that the head moved by. -/
  atLeast : (∀ t ∈ takenIn trace, t.made = t.hi) →
    ((takenIn trace).map Taken.advance).sum ≤ w.worker.blocks
  /-- And where nobody else moved the head meanwhile they are the same. -/
  exact : (∀ t ∈ takenIn trace, t.made = t.hi ∧ t.before = t.was) →
    w.worker.blocks = ((takenIn trace).map Taken.advance).sum

/-- **The spine goes on.** While the coordinator answers and has the next block, a pass ends above
    the head it was about, in at most three steps for each chunk; and what the worker reports is the
    number of its submissions and the sum of their widths. -/
theorem spine_extender_kept (h : SpineRun want trace w) : ExtenderKept trace w := by
  have hinv := ExtendInv.of_run h
  have hspot := hinv.spot
  refine ⟨?_, ?_, ?_, ⟨hinv.done, hinv.blocks⟩, ?_, ?_⟩
  -- the candidates are a tail of what was listed
  · intro was cands htrying
    rw [htrying] at hspot
    obtain ⟨-, hne, hleft⟩ := hspot
    rcases hleft with hnil | ⟨vranges, hread, hsuffix⟩
    · exact absurd hnil hne
    · exact .of_suffix hread hne hsuffix
  -- the invariant rules out an exit, and has the head above its start where a pass ends
  · intro was hat pass w' hpass
    have hstart : PassInv was w := by
      unfold PassInv
      rcases hat with hold | ⟨cands, hold⟩
      · rw [hold] at hspot ⊢
        exact ⟨hspot, rfl⟩
      · rw [hold] at hspot ⊢
        exact ⟨hspot.1, rfl, hspot.2.1⟩
    obtain ⟨-, hend⟩ := hstart.of_run hpass
    constructor
    · intro hexited
      rw [hexited] at hend
      exact hend
    · intro hover
      rcases hover with htop | hstopped
      · rw [htop] at hend
        exact hend
      · rw [hstopped] at hend
        exact hend
  · intro was cands htrying pass w' hpass
    rw [htrying] at hspot
    have hstart : PassInv was w := by
      unfold PassInv
      rw [htrying]
      exact ⟨hspot.1, rfl, hspot.2.1⟩
    have hlength := length_pass hstart (by rw [htrying]; rfl) hpass
    rw [htrying] at hlength
    exact hlength
  -- what is counted is at least what the head gained, and with made = hi it is the same
  · intro hmade
    rw [hinv.blocks]
    apply List.sum_le_sum
    intro t ht
    have hbefore := hinv.moved t ht
    have heq := hmade t ht
    unfold Taken.advance Taken.width
    omega
  · intro hall
    rw [hinv.blocks]
    congr 1
    apply List.map_congr_left
    intro t ht
    obtain ⟨hmade, hbefore⟩ := hall t ht
    unfold Taken.advance Taken.width
    omega

/-! ## Two extenders -/

def twoThree : List (Option VRange) := [some ⟨2, 3, "/api/proof/2-3"⟩, none]

theorem chunks_twoThree :
    spineChunks (spineIndex twoThree) 2 = [(3, "/api/proof/2-3"), (2, "/api/proof/2")] := by
  decide

/-- The spine goes to `head`, and a worker is at a spot, before it has absorbed anything. -/
def before (head : ℤ) (spot : Spot) : World := ⟨head, { want := none, spot }⟩

def reading (head : ℤ) (spot : Spot) : World :=
  ⟨head, { want := none, index := some (spineIndex twoThree), spot }⟩

def wideAndOne : Spot := .trying 1 [(3, "/api/proof/2-3"), (2, "/api/proof/2")]

/-- The worker reads the head 1, and the list. -/
theorem reading_run : ∃ trace, SpineRun none trace (reading 1 wideAndOne) ∧ takenIn trace = [] := by
  have hhead : SpineStep (before 1 .top) (.head (some 1)) (before 1 (.listing 1)) :=
    ⟨rfl, rfl, .inr rfl⟩
  have hlist : SpineStep (before 1 (.listing 1)) (.list (some twoThree)) (reading 1 wideAndOne) := by
    refine ⟨trivial, rfl, .inr ?_⟩
    have hcands : Spot.trying 1 (spineChunks (spineIndex twoThree) 2) = wideAndOne :=
      congrArg (Spot.trying 1) chunks_twoThree
    unfold reading
    rw [← hcands]
    rfl
  have hstart : SpineRun none [] (before 1 .top) := .nil ⟨by decide, rfl⟩
  exact ⟨_, (hstart.snoc hhead).snoc hlist, rfl⟩

/-- Another worker absorbs the block 2 while this one folds the blocks 2 and 3. -/
theorem counts_a_block_of_others : ∃ trace w, SpineRun none trace w ∧
    w.worker.blocks ≠ ((takenIn trace).map Taken.advance).sum := by
  let one : List Cand := [(2, "/api/proof/2")]
  let after : World :=
    ⟨3, { want := none, index := some (spineIndex twoThree), done := 1, blocks := 2 }⟩
  have hfetch : SpineStep (reading 1 wideAndOne) (.fetch true) (reading 1 (.folding 1 3 one)) :=
    ⟨trivial, rfl, .inr rfl⟩
  have hfold : SpineStep (reading 1 (.folding 1 3 one)) (.fold (some 3))
      (reading 1 (.submitting 1 3 3 one)) := by
    refine ⟨?_, rfl, .inr rfl⟩
    intro was hi rest hspot
    cases hspot
    decide
  have hothers : SpineStep (reading 1 (.submitting 1 3 3 one)) (.others 2)
      (reading 2 (.submitting 1 3 3 one)) :=
    ⟨show (1 : ℤ) < 2 by decide, rfl, .inl ⟨⟨2, rfl⟩, rfl⟩⟩
  have hsubmit : SpineStep (reading 2 (.submitting 1 3 3 one)) (.submit .ok) after := by
    refine ⟨?_, rfl, .inr rfl⟩
    intro was hi made rest hspot
    cases hspot
    decide
  obtain ⟨trace, hrun, hnone⟩ := reading_run
  refine ⟨_, after, (((hrun.snoc hfetch).snoc hfold).snoc hothers).snoc hsubmit, ?_⟩
  rw [takenIn_snoc, takenIn_snoc, takenIn_snoc, takenIn_snoc, hnone]
  decide

abbrev nextOnly : List Cand := [(2, "/api/proof/2")]

/-- What is left of the pass when the receipt of the blocks 2 and 3 does not fold: block 2 alone is
fetched, folded and taken. -/
theorem narrow_pass : ∃ pass w', PassRun (reading 1 wideAndOne) pass w' ∧
    w'.worker.spot = .top ∧ w'.head = 2 ∧ (pass.countP fun t => t.2.1.own) = 6 := by
  let after : World :=
    ⟨2, { want := none, index := some (spineIndex twoThree), done := 1, blocks := 1 }⟩
  have hstart : PassRun (reading 1 wideAndOne) [] (reading 1 wideAndOne) := .nil rfl
  have hwide := hstart.snoc (show SpineStep _ (.fetch true) (reading 1 (.folding 1 3 nextOnly)) ∧
    Served _ _ from ⟨⟨trivial, rfl, .inr rfl⟩, ⟨nofun, nofun, nofun, nofun, nofun, nofun, nofun⟩⟩)
  have hfails := hwide.snoc (show SpineStep _ (.fold none) (reading 1 (.checking 1 nextOnly)) ∧
    Served _ _ from ⟨⟨trivial, rfl, .inr rfl⟩, ⟨nofun, nofun, nofun, nofun, nofun, nofun, nofun⟩⟩)
  -- the head is still there, so that the narrower chunk is next
  have hthere := hfails.snoc (show SpineStep _ (.recheck (some 1)) (reading 1 (.trying 1 nextOnly)) ∧
    Served _ _ from ⟨⟨rfl, rfl, .inr rfl⟩, ⟨nofun, nofun, nofun, nofun, nofun, nofun, nofun⟩⟩)
  have hfetch := hthere.snoc (show SpineStep _ (.fetch true) (reading 1 (.folding 1 2 [])) ∧
    Served _ _ from ⟨⟨trivial, rfl, .inr rfl⟩, ⟨nofun, nofun, nofun, nofun, nofun, nofun, nofun⟩⟩)
  have hfolds : World.Fits (reading 1 (.folding 1 2 [])) (.fold (some 2)) := by
    intro was hi rest hspot
    cases hspot
    decide
  have hfold := hfetch.snoc (show SpineStep _ (.fold (some 2)) (reading 1 (.submitting 1 2 2 [])) ∧
    Served _ _ from ⟨⟨hfolds, rfl, .inr rfl⟩, ⟨nofun, nofun, nofun, nofun, nofun, nofun, nofun⟩⟩)
  have htakes : World.Fits (reading 1 (.submitting 1 2 2 [])) (.submit .ok) := by
    intro was hi made rest hspot
    cases hspot
    decide
  have htaken := hfold.snoc (show SpineStep _ (.submit .ok) after ∧ Served _ _ from
    ⟨⟨htakes, rfl, .inr rfl⟩, ⟨nofun, nofun, nofun, nofun, nofun, nofun, nofun⟩⟩)
  exact ⟨_, _, htaken, rfl, rfl, rfl⟩

/-- So the pass ends above the head 1, in as many steps as two candidates may take. -/
theorem spine_extender_kept_twoThree : ∃ trace, ExtenderKept trace (reading 1 wideAndOne) ∧
    ∃ pass w', PassRun (reading 1 wideAndOne) pass w' ∧ Passed 1 w' ∧ 1 < w'.head ∧
      (pass.countP fun t => t.2.1.own) = 6 := by
  obtain ⟨trace, hrun, -⟩ := reading_run
  have hkept := spine_extender_kept hrun
  obtain ⟨pass, w', hpass, htop, -, hown⟩ := narrow_pass
  have hpassed := hkept.passes 1 (.inr ⟨_, rfl⟩) pass w' hpass
  exact ⟨trace, hkept, pass, w', hpass, hpassed, hpassed.ahead (.inl htop), hown⟩

end Extend
end Coordinator
end Hazync
