import Hazync.Tip.OneProve
import Hazync.Tip.Staging

/-!
# The receipts that are aggregated

The aggregate of a run has to be started on the receipts that the run's own cards wrote. A chunk that
was moved or restarted writes its receipt to another directory than the one it is collected from, so
after a recovery that works its receipt stays where it is. A copy that fails is judged by a file that
may be an older one. And a receipt is looked for by its name alone: one that is still being written is
taken to be finished, a part of one is fetched, and what a copy left is counted.

Where nothing is moved or restarted, no file is left from before, and no part of a receipt is taken for
it, the aggregate has the receipts of the run. Copies may fail, and may be cut off, as long as they are
made again before the file counts.

## A name is not a receipt

Everything that the code asks of a receipt it asks of a file name. The probe tests whether the file
is there. The copy is done when a file is there that is not empty. The count before the aggregate is
started counts files. For this to be about receipts, a file of that name must have the whole receipt
in it, of this run and of this chunk. There are four ways for it not to. An earlier run may have
left one; a prove creates the file and then writes it; a copy may be cut off; and a chunk that was
moved has its file elsewhere.

The first is excluded at the start (`NothingLeft`). Of the second and the third only so much is
excluded as does harm (`Steady`): a probe that comes while the file is being written, and an attempt
or a count that takes a part for the whole. A copy that is cut off, and is then made again before
anybody looks, is allowed, and a run with one is among the examples. The fourth is excluded by
asking that no chunk is judged wedged. Otherwise the chunk is launched again in a directory of its
own, and the collection, which is called without the chunks that were reassigned, looks for its
receipt in the old one (`stage_elsewhere`).

## Two invariants

`OwnFiles` is about the files alone: wherever the run looks, a file of a chunk is the chunk's
receipt or a part of something, and there is no receipt of a prove that has not written yet. Copies
keep it, whatever they leave. `Owned` adds where the loop is: what counts as staged is on the
aggregator, whole. At the end, the number of files is at least the number of chunks, and since each
chunk has one name, each chunk has its file (`OwnFiles.all_there`).
-/

namespace Hazync
namespace Tip

open KeyedTable

variable {Card : Type} [DecidableEq Card] {cfg : Settings} {home : Assignments Card} {t0 now : Time}
  {agg : Card} {b b' : Block Card} {e : RunEvent Card} {w w' : World Card} {p q : Place Card}
  {x : Content Card} {trace : List (Block Card × RunEvent Card × Block Card)} {c c' : ℕ} {card : Card}

/-! ## What a run has to do -/

/-- The fleet was verified empty, and no other prove is launched than the chunks' on their cards, each
    once. -/
structure Started (home : Assignments Card) (t0 : Time) (b : Block Card) : Prop where
  /-- The cards are different ones. -/
  cards : home.cards.Nodup
  poll : b.poll = { run := .launched home t0 }
  phase : b.phase = .polling
  keys : (b.world.files.map Prod.fst).Nodup
  /-- No card of the fleet has a file. -/
  empty : ∀ f ∈ b.world.files, f.1.card ∉ home.cards
  /-- What was launched are the proves of the chunks, each on its card. -/
  proves : ∀ p ∈ b.world.proves, ∃ c ∈ home.chunks, p = (home.card c, .work, c)
  /-- And each of them once. -/
  once : b.world.proves.Nodup

/-- The step of the loop, or of a prove. -/
def BlockStep (cfg : Settings) (agg : Card) (b : Block Card) (e : RunEvent Card) (b' : Block Card) :
    Prop :=
  b.next cfg agg e = some b'

/-- A run that starts from `start`. -/
def BlockRun (cfg : Settings) (home : Assignments Card) (agg : Card) (t0 : Time) (start : Block Card) :
    List (Block Card × RunEvent Card × Block Card) → Block Card → Prop :=
  Runs.Run (fun b => b = start ∧ Started home t0 b) (BlockStep cfg agg)

/-- The chunk's own receipt. -/
def Block.receipt (b : Block Card) (c : ℕ) : Content Card := .receipt (b.poll.run.cards.card c) c

/-- The chunk that a step tries to collect. -/
def Block.collects (b : Block Card) : RunEvent Card → Option (ℕ × List Attempt)
  | .collect tries =>
    match b.poll.todo with
    | .stage c _ :: _ => some (c, tries)
    | _ => none
  | .swept tries =>
    match b.phase with
    | .sweeping (c :: _) => some (c, tries)
    | _ => none
  | _ => none

/-- Both copies go through, and the card answers. -/
def Attempt.works (t : Attempt) : Prop := t = ⟨⟨.whole, true⟩, ⟨.whole, true⟩, true⟩

/-- A run aggregates its own receipts, and collects the chunks that finish. -/
structure Aggregates (cfg : Settings) (home : Assignments Card) (agg : Card)
    (trace : List (Block Card × RunEvent Card × Block Card)) : Prop where
  /-- The aggregate is started on the receipts that the chunks' last cards wrote in the run. -/
  gate : ∀ t ∈ trace, t.2.2.phase = .aggregating → ∀ c ∈ home.chunks,
    t.2.2.world.file (.agg agg c) = some (t.2.2.receipt c)
  /-- A chunk is taken to be finished when its own receipt is on its own card. -/
  finished : ∀ b reports now b', (b, .tick reports now, b') ∈ trace → ∀ c ∈ home.chunks,
    (b.poll.run.input (b.replies reports) now).state cfg c = .done →
    b.world.file (b.own c) = some (b.receipt c)
  /-- A chunk that has finished is collected by copies that work. -/
  collected : ∀ t ∈ trace, ∀ c tries, t.1.collects t.2.1 = some (c, tries) →
    t.1.world.file (t.1.own c) = some (t.1.receipt c) → (∃ u ∈ tries.head?, u.works) →
    c ∈ t.2.2.poll.run.staged ∧ t.2.2.world.file (.agg agg c) = some (t.1.receipt c)

/-! ## The runs that do it -/

/-- No file of the run's chunks is staged, and none is where the aggregate looks. An aggregator that is
    one of the cards was verified empty with them. -/
structure NothingLeft (home : Assignments Card) (agg : Card) (b : Block Card) : Prop where
  stage : ∀ c ∈ home.chunks, b.world.stage c = none
  agg : ∀ f ∈ b.world.files, f.1.card ≠ agg

/-- What an attempt takes for the receipt is not a part of one: where the fetch ends, the file that is
    then in the staging directory, and where the push ends as well and the card answers, the file that
    is then on the aggregator. -/
def Attempt.honest (agg : Card) (c : ℕ) (remote : Place Card) (w : World Card) (t : Attempt) : Bool :=
  let fetched := copied (w.file remote) (w.stage c) t.fetch.effect
  let pushed := copied fetched (w.file (.agg agg c)) t.push.effect
  t.fetch.ended → fetched ≠ some .other ∧ (t.push.ended ∧ t.answered → pushed ≠ some .other)

/-- Every attempt is, up to the one that succeeds, on the files that the one before it left. -/
def World.honest (agg : Card) (c : ℕ) (remote : Place Card) : World Card → List Attempt → Bool
  | _, [] => true
  | w, t :: ts =>
    t.honest agg c remote w &&
      ((w.attempt agg c remote t).1 || honest agg c remote (w.attempt agg c remote t).2 ts)

/-- The attempts of `stage_receipt` at a chunk. -/
def Block.honest (b : Block Card) (agg : Card) (c : ℕ) (tries : List Attempt) : Bool :=
  b.world.honest agg c ⟨b.poll.run.cards.card c, .work, .bin c⟩ (tries.take 3)

/-- No chunk is judged wedged, and no part of a receipt is taken for it: not by a probe, by a copy or by
    the count before the aggregate is started. -/
def Steady (cfg : Settings) (agg : Card) (b : Block Card) : RunEvent Card → Prop
  | .tick reports now =>
    (∀ c ∈ b.poll.run.cards.chunks,
      (b.poll.run.input (b.replies reports) now).wedged cfg c = false) ∧
    ∀ r ∈ reports, r.2.isSome → ∀ x ∈ b.world.file (b.own r.1), x.unfinished = false
  | .collect tries => ∀ p ∈ b.collects (.collect tries), b.honest agg p.1 tries
  | .swept tries =>
    ∀ p ∈ b.collects (.swept tries), p.1 ∉ b.poll.run.staged → b.honest agg p.1 tries
  | .gate counted =>
    counted → ∀ c ∈ b.poll.run.cards.chunks, ∀ x ∈ b.world.file (.agg agg c), x.unfinished = false
  | _ => True

instance : Decidable (Steady cfg agg b e) :=
  match e with
  | .tick reports now => inferInstanceAs (Decidable ((∀ c ∈ b.poll.run.cards.chunks,
      (b.poll.run.input (b.replies reports) now).wedged cfg c = false) ∧
    ∀ r ∈ reports, r.2.isSome → ∀ x ∈ b.world.file (b.own r.1), x.unfinished = false))
  | .collect tries => inferInstanceAs (Decidable (∀ p ∈ b.collects (.collect tries),
    b.honest agg p.1 tries))
  | .swept tries => inferInstanceAs (Decidable (∀ p ∈ b.collects (.swept tries),
    p.1 ∉ b.poll.run.staged → b.honest agg p.1 tries))
  | .gate counted => inferInstanceAs (Decidable (counted → ∀ c ∈ b.poll.run.cards.chunks,
    ∀ x ∈ b.world.file (.agg agg c), x.unfinished = false))
  | .create .. | .write .. | .recover .. | .sweep => inferInstanceAs (Decidable True)

/-! ## The files -/

/-- The receipt of the chunk, or a part of a file. -/
def Mine (home : Assignments Card) (c : ℕ) (x : Content Card) : Prop :=
  x = .receipt (home.card c) c ∨ x.unfinished

/-- The card of the place is the aggregator, or one of the run's. -/
def Place.InRun (home : Assignments Card) (agg : Card) (p : Place Card) : Prop :=
  p.card = agg ∨ p.card ∈ home.cards

/-- What is on the cards, on the aggregator and in the staging directory are the receipts of the run, and
    parts of them. A chunk whose prove is still to write has no receipt anywhere. -/
structure OwnFiles (home : Assignments Card) (agg : Card) (w : World Card) : Prop where
  keys : (w.files.map Prod.fst).Nodup
  /-- In the run's directories a file is a receipt of the run, or a part of one. -/
  files : ∀ f ∈ w.files, f.1.InRun home agg →
    ∃ c ∈ home.chunks, f.1.dir = .work ∧ f.1.name = .bin c ∧ Mine home c f.2
  /-- So is what has been fetched. -/
  stage : ∀ c ∈ home.chunks, ∀ x, w.stage c = some x → Mine home c x
  /-- The proves that are still to write are the chunks' own. -/
  proves : ∀ p ∈ w.proves, ∃ c ∈ home.chunks, p = (home.card c, .work, c)
  once : w.proves.Nodup
  /-- And until one has written there is no whole receipt of its chunk, anywhere. -/
  unwritten : ∀ c, (home.card c, .work, c) ∈ w.proves →
    (∀ p, p.InRun home agg → w.file p ≠ some (.receipt (home.card c) c)) ∧
      w.stage c ≠ some (.receipt (home.card c) c)

omit [DecidableEq Card] in
/-- A chunk's card is one of the cards. -/
theorem mem_cards (hc : c ∈ home.chunks) : home.card c ∈ home.cards := List.mem_map_of_mem hc

omit [DecidableEq Card] in
/-- A file that is not unfinished is the receipt. -/
theorem Mine.eq_receipt (h : Mine home c x) (hx : x.unfinished = false) :
    x = .receipt (home.card c) c :=
  h.resolve_right (by simp [hx])

/-- A file of a chunk, where the run looks at it, is the chunk's. -/
theorem OwnFiles.content (h : OwnFiles home agg w) (hp : p.InRun home agg) (hname : p.name = .bin c)
    (hx : w.file p = some x) : c ∈ home.chunks ∧ Mine home c x := by
  obtain ⟨c', hc', -, hname', hmine⟩ := h.files _ (World.mem_of_file hx) hp
  obtain rfl := Name.bin.inj (hname.symm.trans hname')
  exact ⟨hc', hmine⟩

/-- A file of the chunk is put, and no receipt of a prove that is still to write. -/
theorem OwnFiles.put (h : OwnFiles home agg w) (hc : c ∈ home.chunks) (hdir : p.dir = .work)
    (hname : p.name = .bin c) (hx : Mine home c x)
    (hover : x.unfinished = false → (home.card c, .work, c) ∉ w.proves) :
    OwnFiles home agg (w.put p x) where
  keys := nodup_replace _ h.keys
  files f hf hcard := by
    obtain rfl | ⟨hf, -⟩ := World.mem_put.mp hf
    · exact ⟨c, hc, hdir, hname, hx⟩
    · exact h.files f hf hcard
  stage := h.stage
  proves := h.proves
  once := h.once
  unwritten c' hc' := by
    refine ⟨fun q hq hfile => ?_, (h.unwritten c' hc').2⟩
    rw [World.file_put] at hfile
    split_ifs at hfile
    · obtain rfl := Option.some.inj hfile
      obtain heq | hx := hx
      · obtain ⟨-, rfl⟩ := Content.receipt.inj heq
        exact hover rfl hc'
      · cases hx
    · exact (h.unwritten c' hc').1 q hq hfile

omit [DecidableEq Card] in
/-- What a copy leaves is what was copied, what was there, or a part of a file. -/
theorem copied_cases {src old : Option (Content Card)} {eff : Effect}
    (hx : copied src old eff = some x) : src = some x ∨ old = some x ∨ x.unfinished := by
  cases eff with
  | whole =>
    cases src with
    | none => exact .inr (.inl hx)
    | some y => exact .inl hx
  | cut empty =>
    cases src with
    | none => exact .inr (.inl hx)
    | some y =>
      obtain rfl := Option.some.inj hx
      cases empty with
      | true => exact .inr (.inr rfl)
      | false => exact .inr (.inr rfl)
  | nothing => exact .inr (.inl hx)

omit [DecidableEq Card] in
/-- Where a copy leaves nothing there was nothing. -/
theorem old_of_copied {src old : Option (Content Card)} {eff : Effect}
    (h : copied src old eff = none) : old = none := by
  cases eff with
  | whole => exact (Option.or_eq_none_iff.mp h).2
  | cut empty =>
    cases src with
    | none => exact h
    | some y => cases h
  | nothing => exact h

/-- A fetch leaves the files as they are, and the staging directory the run's. -/
theorem OwnFiles.fetch (h : OwnFiles home agg w) (hc : c ∈ home.chunks) (t : CopyTry)
    (hp : p = ⟨home.card c, .work, .bin c⟩) : OwnFiles home agg (w.fetch c p t).2 where
  keys := h.keys
  files := h.files
  stage c' hc' x hx := by
    by_cases hcc : c' = c
    · subst hcc
      have hx' : copied (w.file p) (w.stage c') t.effect = some x := by
        simpa [World.fetch] using hx
      obtain hfile | hstage | hpart := copied_cases hx'
      · exact (h.content (.inr (hp ▸ mem_cards hc)) (hp ▸ rfl) hfile).2
      · exact h.stage c' hc x hstage
      · exact .inr hpart
    · exact h.stage c' hc' x (by simpa [World.fetch, hcc] using hx)
  proves := h.proves
  once := h.once
  unwritten c' hc' := by
    obtain ⟨hfile, hstage⟩ := h.unwritten c' hc'
    refine ⟨hfile, fun hx => ?_⟩
    by_cases hcc : c' = c
    · subst hcc
      have hx' : copied (w.file p) (w.stage c') t.effect = some (.receipt (home.card c') c') := by
        simpa [World.fetch] using hx
      obtain hfile' | hstage' | hpart := copied_cases hx'
      · exact hfile p (.inr (hp ▸ mem_cards hc)) hfile'
      · exact hstage hstage'
      · cases hpart
    · exact hstage (by simpa [World.fetch, hcc] using hx)

/-- A push leaves the files of the run the run's, and touches no other than the chunk's on the
    aggregator. -/
theorem OwnFiles.push (h : OwnFiles home agg w) (hc : c ∈ home.chunks) (t : CopyTry) :
    OwnFiles home agg (w.push agg c t).2 ∧
      ∀ q, q ≠ .agg agg c → (w.push agg c t).2.file q = w.file q := by
  unfold World.push
  split_ifs
  · cases hx : copied (w.stage c) (w.file (.agg agg c)) t.effect with
    | none => exact ⟨h, fun _ _ => rfl⟩
    | some x =>
      have hmine : Mine home c x := by
        obtain hstage | hfile | hpart := copied_cases hx
        · exact h.stage c hc x hstage
        · exact (h.content (.inl rfl) rfl hfile).2
        · exact .inr hpart
      refine ⟨h.put hc rfl rfl hmine fun hwhole hp => ?_, fun q hq => ?_⟩
      · obtain ⟨hno, hnostage⟩ := h.unwritten c hp
        obtain rfl := hmine.eq_receipt hwhole
        obtain hstage | hfile | hpart := copied_cases hx
        · exact hnostage hstage
        · exact hno _ (.inl rfl) hfile
        · cases hpart
      · rw [World.file_put, if_neg hq]
  · exact ⟨h, fun _ _ => rfl⟩

/-- A push that is answered leaves on the aggregator what it leaves. -/
theorem file_push {t : CopyTry} (h : (w.push agg c t).1) : t.ended ∧
    (w.push agg c t).2.file (.agg agg c) =
      copied (w.stage c) (w.file (.agg agg c)) t.effect := by
  unfold World.push at h ⊢
  split_ifs at h ⊢
  cases hx : copied (w.stage c) (w.file (.agg agg c)) t.effect with
  | none =>
    rw [hx] at h
    exact ⟨h, old_of_copied hx⟩
  | some x =>
    rw [hx] at h
    exact ⟨h, by rw [World.file_put, if_pos rfl]⟩

/-- A file that is there, and is no part of one, is the receipt. -/
theorem Mine.of_there {o : Option (Content Card)} (h : ∀ x, o = some x → Mine home c x)
    (hthere : Content.there o) (hother : o ≠ some .other) : o = some (.receipt (home.card c) c) := by
  obtain ⟨hsome, hempty⟩ := of_decide_eq_true hthere
  obtain ⟨x, rfl⟩ := Option.isSome_iff_exists.mp hsome
  cases x with
  | receipt card chunk => exact congrArg some ((h _ rfl).eq_receipt rfl)
  | empty => exact absurd rfl hempty
  | other => exact absurd rfl hother

/-- What collecting a chunk does to the files: all but the chunk's on the aggregator stay as they are,
    and where it succeeds the aggregator has the receipt. -/
structure Collected (home : Assignments Card) (agg : Card) (c : ℕ) (w : World Card)
    (out : Bool × World Card) : Prop where
  /-- The files still are the run's own. -/
  own : OwnFiles home agg out.2
  others : ∀ p, p ≠ .agg agg c → out.2.file p = w.file p
  /-- A success is one: the whole receipt is on the aggregator. -/
  there : out.1 → out.2.file (.agg agg c) = some (.receipt (home.card c) c)

/-- One turn of the loop that collects. -/
theorem OwnFiles.attempt (h : OwnFiles home agg w) (hc : c ∈ home.chunks) {t : Attempt}
    (ht : t.honest agg c ⟨home.card c, .work, .bin c⟩ w) :
    Collected home agg c w (w.attempt agg c ⟨home.card c, .work, .bin c⟩ t) := by
  have hhonest := of_decide_eq_true ht
  have hown := h.fetch hc t.fetch rfl
  unfold World.attempt
  split
  · rename_i w₁ hw₁
    rw [hw₁] at hown
    obtain rfl := (Prod.mk.inj hw₁).2
    exact ⟨hown, fun _ _ => rfl, fun h => absurd h (by simp)⟩
  · rename_i w₁ hw₁
    rw [hw₁] at hown
    obtain ⟨hfetch, rfl⟩ := Prod.mk.inj hw₁
    obtain ⟨hended, -⟩ := of_decide_eq_true hfetch
    obtain ⟨hown₂, hothers⟩ := hown.push hc t.push
    split
    · rename_i w₂ hw₂
      rw [hw₂] at hown₂ hothers
      exact ⟨hown₂, hothers, fun h => absurd h (by simp)⟩
    · rename_i w₂ hw₂
      have hpush := congrArg Prod.fst hw₂
      obtain ⟨hended₂, hfile⟩ := file_push hpush
      rw [hw₂] at hown₂ hothers hfile
      refine ⟨hown₂, hothers, fun hok => ?_⟩
      obtain ⟨hanswered, hthere⟩ := of_decide_eq_true hok
      refine Mine.of_there (fun x hx => (hown₂.content (.inl rfl) rfl hx).2) hthere ?_
      have hpushed := (hhonest hended).2 ⟨hended₂, hanswered⟩
      rw [hfile]
      show copied (Function.update w.stage c _ c) (w.file (.agg agg c)) t.push.effect ≠ some .other
      rw [Function.update_self]
      exact hpushed

/-- And the loop, which ends at the first success. -/
theorem OwnFiles.stageReceipt (h : OwnFiles home agg w) (hc : c ∈ home.chunks) {tries : List Attempt}
    (htries : w.honest agg c ⟨home.card c, .work, .bin c⟩ tries) :
    Collected home agg c w (World.stageReceipt agg (home.card c) c ∅ w tries) := by
  induction tries generalizing w with
  | nil => exact ⟨h, fun _ _ => rfl, fun h => absurd h (by simp [World.stageReceipt])⟩
  | cons t ts ih =>
    unfold World.honest at htries
    obtain ⟨ht, hts⟩ := Bool.and_eq_true_iff.mp htries
    have hat := h.attempt hc ht
    unfold World.stageReceipt
    have hdir : dirOf ∅ c = .work := rfl
    rw [hdir]
    split
    · rename_i w₁ hw₁
      exact hw₁ ▸ hat
    · rename_i w₁ hw₁
      rw [hw₁] at hat hts
      obtain ⟨hown, hothers, hthere⟩ := ih hat.own ((Bool.or_eq_true_iff.mp hts).resolve_left (by simp))
      exact ⟨hown, fun p hp => (hothers p hp).trans (hat.others p hp), hthere⟩

/-- A first attempt that works collects the chunk. -/
theorem stageReceipt_works {ts : List Attempt} {t : Attempt} (ht : t.works)
    (hfile : w.file ⟨home.card c, .work, .bin c⟩ = some (.receipt (home.card c) c)) :
    (World.stageReceipt agg (home.card c) c ∅ w (t :: ts)).1 := by
  obtain rfl := ht
  unfold World.stageReceipt
  have hdir : dirOf ∅ c = .work := rfl
  simp [hdir, World.attempt, World.fetch, World.push, hfile, copied, Content.there, World.file_put]

/-! ## The run -/

/-- Nothing has been moved or restarted, the files are the run's own, and what has been collected is
    there. -/
structure Owned (home : Assignments Card) (agg : Card) (b : Block Card) : Prop where
  /-- Each chunk still is on the card it was launched on. -/
  cards : b.poll.run.cards = home
  reassigned : b.poll.run.reassigned = ∅
  /-- A pass only stages. -/
  todo : ∀ a ∈ b.poll.todo, ∃ c ∈ home.chunks, ∃ card, a = .stage c card
  nodup : (b.poll.todo.map Action.chunk).Nodup
  unstaged : ∀ a ∈ b.poll.todo, a.chunk ∉ b.poll.run.staged
  files : OwnFiles home agg b.world
  /-- What counts as staged is on the aggregator, whole. -/
  staged : ∀ c ∈ b.poll.run.staged,
    b.world.file (.agg agg c) = some (.receipt (home.card c) c)
  /-- After the polling only chunks of the run are swept up, -/
  sweeping : ∀ left, b.phase = .sweeping left → left ⊆ home.chunks ∧ b.poll.todo = []
  /-- and when the aggregation begins every receipt is there. -/
  aggregating : b.phase = .aggregating → ∀ c ∈ home.chunks,
    b.world.file (.agg agg c) = some (.receipt (home.card c) c)

/-- A chunk's own directory is that of its card. -/
theorem Owned.own (h : Owned home agg b) (c : ℕ) : b.own c = ⟨home.card c, .work, .bin c⟩ := by
  rw [Block.own, h.cards, h.reassigned]
  rfl

/-- And its receipt is of that card. -/
theorem Owned.receipt (h : Owned home agg b) (c : ℕ) : b.receipt c = .receipt (home.card c) c := by
  rw [Block.receipt, h.cards]

/-- A prove that is still to write writes over no receipt. -/
theorem Owned.written (h : Owned home agg b) (hp : (home.card c, .work, c) ∈ b.world.proves)
    (hown : OwnFiles home agg w)
    (hfile : ∀ p, p ≠ ⟨home.card c, .work, .bin c⟩ → w.file p = b.world.file p) :
    Owned home agg { b with world := w } := by
  have hkept : ∀ c', b.world.file (.agg agg c') = some (.receipt (home.card c') c') →
      w.file (.agg agg c') = some (.receipt (home.card c') c') := by
    intro c' hc'
    rw [hfile _ fun heq => ?_, hc']
    obtain rfl : c' = c := Name.bin.inj (congrArg Place.name heq)
    exact (h.files.unwritten c' hp).1 _ (.inl rfl) hc'
  exact
    { h with
      files := hown
      staged := fun c hc => hkept c (h.staged c hc)
      aggregating := fun hphase c hc => hkept c (h.aggregating hphase c hc) }

/-- A prove creates its file. -/
theorem Owned.create (h : Owned home agg b) {dir : Dir} (hp : (card, dir, c) ∈ b.world.proves)
    (hx : x.unfinished) : Owned home agg { b with world := b.world.put ⟨card, dir, .bin c⟩ x } := by
  obtain ⟨c', hc', heq⟩ := h.files.proves _ hp
  simp only [Prod.mk.injEq] at heq
  obtain ⟨rfl, rfl, rfl⟩ := heq
  refine h.written hp (h.files.put hc' rfl rfl (.inr hx) fun hwhole => ?_) fun p hp => ?_
  · rw [hx] at hwhole
    cases hwhole
  · rw [World.file_put, if_neg hp]

/-- A prove is over. -/
theorem OwnFiles.ended (h : OwnFiles home agg w) (dir : Dir) : OwnFiles home agg (w.ended card c dir) :=
  { h with
    proves := fun p hp => h.proves p (List.mem_of_mem_erase hp)
    once := h.once.erase _
    unwritten := fun c hc => h.unwritten c (List.mem_of_mem_erase hc) }

/-- A prove writes the rest. -/
theorem Owned.write (h : Owned home agg b) {dir : Dir} (hp : (card, dir, c) ∈ b.world.proves) :
    Owned home agg { b with
      world := (b.world.put ⟨card, dir, .bin c⟩ (.receipt card c)).ended card c dir } := by
  obtain ⟨c', hc', heq⟩ := h.files.proves _ hp
  simp only [Prod.mk.injEq] at heq
  obtain ⟨rfl, rfl, rfl⟩ := heq
  refine h.written hp ?_ fun p hp => ?_
  · exact (h.files.ended .work).put hc' rfl rfl (.inl rfl) fun _ => h.files.once.not_mem_erase
  · show (b.world.put _ _).file p = b.world.file p
    rw [World.file_put, if_neg hp]

/-- A tick in which no chunk is wedged. -/
theorem Owned.tick (h : Owned home agg b) {reports : List (ℕ × Option Report)} {poll : Polling Card}
    (hsteady : Steady cfg agg b (.tick reports now))
    (hpoll : b.poll.next cfg (.tick (b.replies reports) now) = some poll)
    (hphase : b.phase = .polling) : Owned home agg { b with poll } := by
  cases PollStep.of_next _ _ _ hpoll with
  | tick htodo hopen hreplies hplan =>
    rename_i plan
    have hstages : ∀ a ∈ plan.actions, ∃ c ∈ home.chunks, c ∉ b.poll.run.staged ∧
        ∃ card, a = .stage c card := by
      intro a ha
      obtain ⟨c, hc, hdecided⟩ := (mem_actions hplan).mp ha
      obtain ⟨rfl, -, hstaged⟩ | ⟨-, hwedged⟩ := decided_cases hdecided
      · exact ⟨c, h.cards ▸ hc, hstaged, _, rfl⟩
      · exact absurd hwedged (by simp [hsteady.1 c hc])
    refine
      { h with
        todo := fun a ha => ?_
        nodup := nodup_actions hplan
        unstaged := fun a ha => ?_
        sweeping := fun left hleft => ?_ }
    · obtain ⟨c, hc, -, hcard⟩ := hstages a ha
      exact ⟨c, hc, hcard⟩
    · obtain ⟨c, -, hstaged, _, rfl⟩ := hstages a ha
      exact hstaged
    · rw [hphase] at hleft
      cases hleft

/-- What collecting a chunk does to the run. -/
theorem Owned.stage (h : Owned home agg b) (hc : c ∈ home.chunks) {tries : List Attempt}
    (htries : b.honest agg c tries) : Collected home agg c b.world (b.stage agg c tries) := by
  unfold Block.honest at htries
  unfold Block.stage
  rw [h.cards] at htries ⊢
  exact h.files.stageReceipt hc htries

/-- A chunk is collected, or not, and what is left to do is about others. -/
theorem Owned.perform (h : Owned home agg b) (hc : c ∈ home.chunks)
    (hstaged : c ∉ b.poll.run.staged) {tries : List Attempt} (htries : b.honest agg c tries)
    {todo : List (Action Card)} {phase : Phase} {reported : Finset ℕ}
    (htodo : todo.Sublist b.poll.todo) (hrest : ∀ a ∈ todo, a.chunk ≠ c)
    (hphase : ∀ left, phase = .sweeping left → left ⊆ home.chunks ∧ todo = [])
    (hnot : phase ≠ .aggregating) : Owned home agg
      { poll := { run := b.poll.run.perform (b.stage agg c tries).1 (.stage c card), todo, reported }
        world := (b.stage agg c tries).2
        phase } := by
  obtain ⟨hown, hothers, hthere⟩ := h.stage hc htries
  have hkept : ∀ x ∈ b.poll.run.staged,
      (b.stage agg c tries).2.file (.agg agg x) = some (.receipt (home.card x) x) := by
    intro x hx
    have hne : Place.agg agg x ≠ .agg agg c := by
      intro heq
      rw [Name.bin.inj (congrArg Place.name heq)] at hx
      exact hstaged hx
    rw [hothers _ hne, h.staged x hx]
  refine ⟨?_, ?_, fun a ha => h.todo a (htodo.subset ha), h.nodup.sublist (htodo.map _), ?_, hown, ?_,
    hphase, fun hph => absurd hph hnot⟩
  · cases (b.stage agg c tries).1 <;> exact h.cards
  · cases (b.stage agg c tries).1 <;> exact h.reassigned
  · intro a ha
    cases hok : (b.stage agg c tries).1 with
    | false => exact h.unstaged a (htodo.subset ha)
    | true =>
      intro hmem
      obtain hac | hold := Finset.mem_insert.mp hmem
      · exact hrest a ha hac
      · exact h.unstaged a (htodo.subset ha) hold
  · intro x hx
    cases hok : (b.stage agg c tries).1 with
    | false =>
      rw [hok] at hx
      exact hkept x hx
    | true =>
      rw [hok] at hx
      obtain rfl | hx := Finset.mem_insert.mp hx
      · exact hthere hok
      · exact hkept x hx

/-- As many files as chunks are there only if each chunk's is. -/
theorem OwnFiles.all_there (h : OwnFiles home agg w)
    (hcount : home.chunks.length ≤ w.stagedCount agg) (hc : c ∈ home.chunks) :
    (w.file (.agg agg c)).isSome := by
  have hmem : ∀ f ∈ w.files.filter fun f => f.1.card = agg ∧ f.1.dir = .work,
      ∃ x ∈ home.chunks, f ∈ w.files ∧ f.1 = .agg agg x := by
    intro f hf
    obtain ⟨hf, hplace⟩ := List.mem_filter.mp hf
    obtain ⟨hcard, hdir⟩ := of_decide_eq_true hplace
    obtain ⟨x, hx, -, hname, -⟩ := h.files f hf (.inl hcard)
    refine ⟨x, hx, hf, ?_⟩
    unfold Place.agg
    rw [← hcard, ← hdir, ← hname]
  -- the places that are counted are places of chunks, no two the same, and as many
  have hnodup : ((w.files.filter fun f => f.1.card = agg ∧ f.1.dir = .work).map Prod.fst).Nodup :=
    h.keys.sublist (List.filter_sublist.map Prod.fst)
  have hsub : (w.files.filter fun f => f.1.card = agg ∧ f.1.dir = .work).map Prod.fst ⊆
      home.chunks.map (Place.agg agg) := by
    intro p hp
    obtain ⟨f, hf, rfl⟩ := List.mem_map.mp hp
    obtain ⟨x, hx, -, heq⟩ := hmem f hf
    exact heq ▸ List.mem_map_of_mem hx
  have hlen : (home.chunks.map (Place.agg agg)).length ≤
      ((w.files.filter fun f => f.1.card = agg ∧ f.1.dir = .work).map Prod.fst).length := by
    rwa [List.length_map, List.length_map]
  have hperm := (hnodup.subperm hsub).perm_of_length_le hlen
  obtain ⟨f, hf, heq⟩ := List.mem_map.mp (hperm.symm.subset (List.mem_map_of_mem (f := Place.agg agg) hc))
  exact heq ▸ World.file_of_mem (List.mem_filter.mp hf).1

/-- A steady step. -/
theorem Owned.step (h : Owned home agg b) (hsteady : Steady cfg agg b e)
    (hstep : BlockStep cfg agg b e b') : Owned home agg b' := by
  unfold BlockStep at hstep
  cases e with
  -- a host prover makes its file, and then fills it
  | create card dir c empty =>
    simp only [Block.next] at hstep
    split_ifs at hstep with hp hempty
    · obtain rfl := Option.some.inj hstep
      exact h.create hp rfl
    · obtain rfl := Option.some.inj hstep
      exact h.create hp rfl
  | write card dir c =>
    simp only [Block.next] at hstep
    split_ifs at hstep with hp
    obtain rfl := Option.some.inj hstep
    exact h.write hp
  | tick reports now =>
    simp only [Block.next] at hstep
    split_ifs at hstep with hphase
    obtain ⟨poll, hpoll, rfl⟩ := Option.map_eq_some_iff.mp hstep
    exact h.tick hsteady hpoll hphase
  -- the fetches are honest, so what is collected is the receipt of the chunk's own card
  | collect tries =>
    simp only [Block.next] at hstep
    split at hstep
    · rename_i c card rest hphase htodo
      rw [Polling.next_act htodo] at hstep
      obtain rfl := Option.some.inj hstep
      have hmem : Action.stage c card ∈ b.poll.todo := htodo ▸ List.mem_cons_self
      obtain ⟨c', hc', _, heq⟩ := h.todo _ hmem
      obtain ⟨rfl, -⟩ := Action.stage.inj heq
      have hhonest : b.honest agg c tries := by
        refine hsteady (c, tries) ?_
        simp [Block.collects, htodo]
      have hnodup := h.nodup
      rw [htodo, List.map_cons, List.nodup_cons] at hnodup
      refine h.perform hc' (h.unstaged _ hmem) hhonest (htodo ▸ List.sublist_cons_self _ _) ?_
        (by simp [hphase]) (by simp [hphase])
      exact fun a ha hac => hnodup.1 (List.mem_map.mpr ⟨a, ha, hac⟩)
    · exact absurd hstep (by simp)
  | recover killed made launched =>
    simp only [Block.next] at hstep
    split at hstep
    · rename_i c card rest hphase htodo
      obtain ⟨_, -, _, heq⟩ := h.todo _ (htodo ▸ List.mem_cons_self)
      exact absurd heq (by simp)
    · rename_i c card rest hphase htodo
      obtain ⟨_, -, _, heq⟩ := h.todo _ (htodo ▸ List.mem_cons_self)
      exact absurd heq (by simp)
    · exact absurd hstep (by simp)
  | sweep =>
    simp only [Block.next] at hstep
    split_ifs at hstep with hphase
    obtain rfl := Option.some.inj hstep
    exact
      { h with
        sweeping := fun left hleft =>
          ⟨Phase.sweeping.inj hleft ▸ h.cards ▸ List.Subset.refl _, hphase.2⟩
        aggregating := fun hph => absurd hph (by simp) }
  -- the last fetches, for what is not yet there
  | swept tries =>
    simp only [Block.next] at hstep
    split at hstep
    · rename_i c left hphase
      obtain ⟨hsub, htodo⟩ := h.sweeping _ hphase
      have hleft : ∀ l, Phase.sweeping left = .sweeping l → l ⊆ home.chunks ∧ b.poll.todo = [] :=
        fun l hl => ⟨Phase.sweeping.inj hl ▸ fun x hx => hsub (List.mem_cons_of_mem _ hx), htodo⟩
      split_ifs at hstep with hstaged
      · obtain rfl := Option.some.inj hstep
        exact { h with sweeping := hleft, aggregating := fun hph => absurd hph (by simp) }
      · obtain rfl := Option.some.inj hstep
        have hhonest : b.honest agg c tries := by
          refine hsteady (c, tries) ?_ hstaged
          simp [Block.collects, hphase]
        refine h.perform (hsub List.mem_cons_self) hstaged hhonest (List.Sublist.refl _) ?_ hleft
          (by simp)
        rw [htodo]
        exact fun a ha => absurd ha List.not_mem_nil
    · exact absurd hstep (by simp)
  -- the gate finds a copy of each chunk, and none that is cut short
  | gate counted =>
    simp only [Block.next] at hstep
    split_ifs at hstep with hphase hcounted hfull hfull
    all_goals
      obtain rfl := Option.some.inj hstep
    · refine { h with sweeping := fun _ hph => absurd hph (by simp), aggregating := fun _ c hc => ?_ }
      obtain ⟨x, hx⟩ := Option.isSome_iff_exists.mp (h.files.all_there (h.cards ▸ hfull.1) hc)
      have hwhole := hsteady hcounted c (h.cards ▸ hc) x hx
      rw [hx, (h.files.content (.inl rfl) rfl hx).2.eq_receipt hwhole]
    · exact
        { h with
          sweeping := fun _ hph => absurd hph (by simp)
          aggregating := fun hph => absurd hph (by simp) }
    · omega
    · exact
        { h with
          sweeping := fun _ hph => absurd hph (by simp)
          aggregating := fun hph => absurd hph (by simp) }

/-! ## Probes -/

/-- A digit is no space. -/
theorem not_isSpace_of_isDigit {d : Char} (h : d.isDigit) : isSpace d = false := by
  have hd : 48 ≤ d.toNat ∧ d.toNat ≤ 57 := by
    simpa [Char.isDigit, UInt32.le_iff_toNat_le] using h
  simp only [isSpace, decide_eq_false_iff_not]
  omega

/-- `strip` leaves a text that starts with no space where it starts. -/
theorem strip_cons {s : String} {d : Char} {l : List Char} (hs : s.toList = d :: l)
    (hd : isSpace d = false) : ∃ l', (strip s).toList = d :: l' := by
  have hfront : (d :: l).dropWhile isSpace = d :: l := by simp [hd]
  unfold strip
  rw [hs, hfront, String.toList_ofList, List.reverse_cons, List.dropWhile_append]
  split_ifs
  · exact ⟨[], by simp [hd]⟩
  · exact ⟨(l.reverse.dropWhile isSpace).reverse, by simp⟩

/-- A card says that it is done only where the file is. -/
theorem cardState_probeReply {present : Bool} {r : Report}
    (h : cardState cfg (some (probeReply present r)) = .done) : present := by
  cases present with
  | true => rfl
  | false =>
    have hlist : (probeReply false r).toList = r.digit :: r.rest.toList := String.toList_ofList
    obtain ⟨l, hl⟩ := strip_cons hlist (not_isSpace_of_isDigit r.isDigit)
    have hnot : r.digit ≠ 'D' := fun hD => absurd (hD ▸ r.isDigit) (by decide)
    have hdone : strip (probeReply false r) ≠ "DONE" := fun heq => hnot <| by
      rw [heq] at hl
      exact (List.cons.inj hl).1.symm
    have hprefix : "DONE:".toList.isPrefixOf (strip (probeReply false r)).toList = false := by
      have hcons : "DONE:".toList = 'D' :: ['O', 'N', 'E', ':'] := rfl
      rw [hl, hcons, List.isPrefixOf, beq_eq_false_iff_ne.mpr (Ne.symm hnot), Bool.false_and]
    simp only [cardState, hdone, hprefix, Bool.false_eq_true, or_self, if_false] at h
    split_ifs at h
    split at h
    · exact absurd h (by simp)
    · split_ifs at h

/-! ## Runs -/

/-- A card that is looked up to be done has a file of its chunk, where each card has one chunk: it has
    answered the probe that found it. -/
theorem Owned.present_of_done (h : Owned home agg b) (hhome : home.cards.Nodup)
    {reports : List (ℕ × Option Report)}
    (hreports : ((b.replies reports).map Prod.fst).Perm b.poll.run.cards.chunks)
    (hc : c ∈ home.chunks) (hdone : (b.poll.run.input (b.replies reports) now).state cfg c = .done) :
    (b.world.file (b.own c)).isSome ∧ ∃ report, (c, some report) ∈ reports := by
  have hstate : cardState cfg (probeAll b.poll.run.cards (b.replies reports)
    (b.poll.run.cards.card c)) = .done := hdone
  obtain hnone | ⟨r, hr, hcard, heq⟩ := probeAll_cases b.poll.run.cards (b.replies reports)
    (b.poll.run.cards.card c)
  · rw [hnone] at hstate
    exact absurd hstate (by simp [cardState])
  · have hmem : r.1 ∈ home.chunks := h.cards ▸ hreports.subset (List.mem_map_of_mem hr)
    rw [h.cards] at hcard
    obtain rfl := List.inj_on_of_nodup_map hhome hmem hc hcard
    obtain ⟨⟨c, report⟩, hreport, rfl⟩ := List.mem_map.mp hr
    rw [heq] at hstate
    cases report with
    | none => exact absurd hstate (by simp [cardState])
    | some report => exact ⟨cardState_probeReply hstate, report, hreport⟩

/-- At the start nothing is there. -/
theorem Started.owned (h : Started home t0 b) (hleft : NothingLeft home agg b) : Owned home agg b where
  cards := by rw [h.poll]; rfl
  reassigned := by rw [h.poll]; rfl
  todo a ha := by
    rw [h.poll] at ha
    exact absurd ha List.not_mem_nil
  files :=
    { keys := h.keys
      files := fun f hf hcard => absurd hcard (not_or.mpr ⟨hleft.agg f hf, h.empty f hf⟩)
      stage := fun c hc x hx => absurd hx (by simp [hleft.stage c hc])
      proves := h.proves
      once := h.once
      unwritten := fun c hp => by
        obtain ⟨c', hc', heq⟩ := h.proves _ hp
        simp only [Prod.mk.injEq] at heq
        obtain ⟨-, -, rfl⟩ := heq
        refine ⟨fun p hin hfile => ?_, by simp [hleft.stage c hc']⟩
        exact absurd hin (not_or.mpr
          ⟨hleft.agg _ (World.mem_of_file hfile), h.empty _ (World.mem_of_file hfile)⟩) }
  nodup := by
    rw [h.poll]
    exact List.nodup_nil
  unstaged a ha := by
    rw [h.poll] at ha
    exact absurd ha List.not_mem_nil
  staged c hc := by
    rw [h.poll] at hc
    exact absurd hc (Finset.notMem_empty c)
  sweeping left hphase := absurd hphase (by simp [h.phase])
  aggregating hphase := absurd hphase (by simp [h.phase])

/-- A tick asks for each chunk once. -/
theorem perm_of_tick {reports : List (ℕ × Option Report)}
    (h : BlockStep cfg agg b (.tick reports now) b') :
    ((b.replies reports).map Prod.fst).Perm b.poll.run.cards.chunks := by
  simp only [BlockStep, Block.next] at h
  split_ifs at h
  obtain ⟨poll, hpoll, -⟩ := Option.map_eq_some_iff.mp h
  cases PollStep.of_next _ _ _ hpoll with
  | tick _ _ hreplies => exact hreplies

/-- A chunk whose receipt is there, and whose copies work, is collected. -/
theorem Owned.collected_of_works (h : Owned home agg b) (hsteady : Steady cfg agg b e)
    (hstep : BlockStep cfg agg b e b') {tries : List Attempt} (hcollects : b.collects e = some (c, tries))
    (hfile : b.world.file (b.own c) = some (b.receipt c)) (hworks : ∃ u ∈ tries.head?, u.works) :
    c ∈ b'.poll.run.staged ∧ b'.world.file (.agg agg c) = some (b.receipt c) := by
  have howned' := h.step hsteady hstep
  suffices hstaged : c ∈ b'.poll.run.staged by
    refine ⟨hstaged, ?_⟩
    rw [howned'.staged c hstaged, h.receipt]
  -- the first try works, so the fetch says it went through
  have hok : (b.stage agg c tries).1 := by
    obtain ⟨u, hu, hworks⟩ := hworks
    obtain ⟨ts, rfl⟩ := List.head?_eq_some_iff.mp hu
    rw [h.own, h.receipt] at hfile
    have hstage : (World.stageReceipt agg (home.card c) c ∅ b.world (u :: ts.take 2)).1 :=
      stageReceipt_works hworks hfile
    rwa [← h.cards] at hstage
  -- and then the chunk is marked, in the loop or in the sweep
  unfold BlockStep at hstep
  cases e with
  | collect tries' =>
    simp only [Block.collects] at hcollects
    simp only [Block.next] at hstep
    split at hcollects
    · rename_i x card rest htodo
      obtain ⟨rfl, rfl⟩ := Prod.mk.inj (Option.some.inj hcollects)
      split at hstep
      · rename_i y card' rest' hphase htodo'
        obtain ⟨heq, -⟩ := List.cons.inj (htodo.symm.trans htodo')
        obtain ⟨rfl, rfl⟩ := Action.stage.inj heq
        rw [Polling.next_act htodo', hok] at hstep
        obtain rfl := Option.some.inj hstep
        exact Finset.mem_insert_self _ _
      · exact absurd hstep (by simp)
    · exact absurd hcollects (by simp)
  | swept tries' =>
    simp only [Block.collects] at hcollects
    simp only [Block.next] at hstep
    split at hcollects
    · rename_i x left hphase
      obtain ⟨rfl, rfl⟩ := Prod.mk.inj (Option.some.inj hcollects)
      rw [hphase] at hstep
      simp only at hstep
      split_ifs at hstep with hstaged
      · obtain rfl := Option.some.inj hstep
        exact hstaged
      · rw [hok] at hstep
        obtain rfl := Option.some.inj hstep
        exact Finset.mem_insert_self _ _
    · exact absurd hcollects (by simp)
  | _ => exact absurd hcollects (by simp [Block.collects])

/-- **The aggregate has the receipts of the run, and what finishes is collected, where nothing is left
    from before, no chunk is judged wedged and no part of a receipt is taken for it.** -/
theorem aggregates {start : Block Card} (h : BlockRun cfg home agg t0 start trace b)
    (hleft : NothingLeft home agg start) (hsteady : ∀ t ∈ trace, Steady cfg agg t.1 t.2.1) :
    Aggregates cfg home agg trace := by
  have hrun := h.restrict (q := fun b e _ => Steady cfg agg b e) hsteady
  have hsteps := hrun.forall_steps (p := fun b => Owned home agg b ∧ home.cards.Nodup)
    (fun b hb => ⟨hb.2.owned (hb.1 ▸ hleft), hb.2.cards⟩)
    (fun b e b' hp hs => ⟨hp.1.step hs.2 hs.1, hp.2⟩)
  refine ⟨?_, ?_, ?_⟩
  · rintro ⟨b, e, b'⟩ ht hphase c hc
    obtain ⟨⟨howned, -⟩, hstep, hsteady⟩ := hsteps _ ht
    have howned' := howned.step hsteady hstep
    rw [howned'.aggregating hphase c hc, howned'.receipt]
  · rintro b reports now b' ht c hc hdone
    obtain ⟨⟨howned, hhome⟩, hstep, hsteady⟩ := hsteps _ ht
    have hreports := perm_of_tick hstep
    obtain ⟨hsome, report, hreport⟩ := howned.present_of_done hhome hreports hc hdone
    obtain ⟨x, hx⟩ := Option.isSome_iff_exists.mp hsome
    have hwhole := hsteady.2 _ hreport rfl x hx
    dsimp only at hx
    rw [howned.own] at hx
    have hmine := (howned.files.content (.inr (mem_cards hc)) rfl hx).2
    rw [howned.own, hx, howned.receipt, hmine.eq_receipt hwhole]
  · rintro ⟨b, e, b'⟩ ht c tries hcollects hfile hworks
    obtain ⟨⟨howned, -⟩, hstep, hsteady⟩ := hsteps _ ht
    exact howned.collected_of_works hsteady hstep hcollects hfile hworks

/-! ## A chunk that is restarted -/

/-- After a recovery that works the receipt is in the chunk's new directory. While there is no file in
    the directory that it is collected from, and none is left in the staging directory, nothing is
    collected, whatever the copies do. -/
theorem stage_elsewhere (hfile : w.file ⟨card, .work, .bin c⟩ = none)
    (hstage : Content.there (w.stage c) = false) (tries : List Attempt) :
    (World.stageReceipt agg card c ∅ w tries).1 = false := by
  induction tries generalizing w with
  | nil => rfl
  | cons t ts ih =>
    have hcopied : copied (w.file ⟨card, .work, .bin c⟩) (w.stage c) t.fetch.effect = w.stage c := by
      rw [hfile]
      cases t.fetch.effect with
      | whole => exact Option.none_or
      | cut empty => rfl
      | nothing => rfl
    have hattempt : w.attempt agg c ⟨card, .work, .bin c⟩ t =
        (false, (w.fetch c ⟨card, .work, .bin c⟩ t.fetch).2) := by
      unfold World.attempt World.fetch
      simp [hcopied, hstage]
    have hdir : dirOf ∅ c = .work := rfl
    unfold World.stageReceipt
    rw [hdir, hattempt]
    refine ih hfile ?_
    show Content.there (Function.update w.stage c _ c) = false
    rw [Function.update_self, hcopied, hstage]

/-- One chunk, on one card. -/
def oneCard : Assignments ℕ := { chunks := [0], nodup := by decide, card := fun _ => 10 }

/-- Both copies go through. -/
def goodTry : Attempt := ⟨⟨.whole, true⟩, ⟨.whole, true⟩, true⟩

/-- One chunk, proved and aggregated on one card, with nothing left from before. -/
def freshBlock : Block ℕ :=
  { poll := { run := .launched oneCard 0 }, world := { proves := [(10, .work, 0)] } }

/-- It is a start. -/
theorem freshBlock_started : Started oneCard 0 freshBlock where
  cards := by decide
  poll := rfl
  phase := rfl
  keys := List.nodup_nil
  empty _ hf := absurd hf List.not_mem_nil
  proves p hp := ⟨0, by decide, List.mem_singleton.mp hp⟩
  once := List.nodup_singleton _

/-- The fetch runs into its timeout, with a part of the receipt in the staging directory. -/
def cutTry : Attempt := ⟨⟨.cut false, false⟩, ⟨.nothing, false⟩, false⟩

/-- The prove writes its receipt, and it is collected, at the second attempt, and aggregated. -/
def plainEvents : List (RunEvent ℕ) :=
  [.tick [(0, some ⟨'5', rfl, ":98:22460:1"⟩)] 6, .create 10 .work 0 true, .write 10 .work 0,
    .tick [(0, some ⟨'8', rfl, ":0:3:0"⟩)] 12, .collect [cutTry, goodTry], .sweep, .swept [],
    .gate true]

/-- So does this run. -/
theorem aggregates_plain : Aggregates { float := readDigits } oneCard 10
    (Runs.play (Block.next { float := readDigits } 10) freshBlock plainEvents).1 :=
  aggregates (.play (fun _ _ _ h => h) ⟨rfl, freshBlock_started⟩ plainEvents)
    ⟨fun _ _ => rfl, fun _ hf => absurd hf List.not_mem_nil⟩ (by decide +kernel)

/-- The card does nothing for a hundred seconds, its chunk is restarted, and it writes its receipt. -/
def restartedEvents : List (RunEvent ℕ) :=
  [.tick [(0, some ⟨'7', rfl, ":0:3:0"⟩)] 6, .tick [(0, some ⟨'7', rfl, ":0:3:0"⟩)] 107,
    .recover true true true, .write 10 (.re 0) 0, .tick [(0, some ⟨'8', rfl, ":0:3:0"⟩)] 113]

/-- The run of these events. -/
def restarted : List (Block ℕ × RunEvent ℕ × Block ℕ) × Block ℕ :=
  Runs.play (Block.next { float := readDigits } 10) freshBlock restartedEvents

/-- The collection is tried, and goes on. -/
theorem restarted_collects :
    (restarted.2.next { float := readDigits } 10 (.collect [goodTry])).isSome := by decide +kernel

/-- The receipt is there, the copies work, and the chunk is not collected. -/
theorem a_restarted_chunk_is_not_collected : ∃ start trace b,
    BlockRun { float := readDigits } oneCard 10 0 start trace b ∧
      ¬ Aggregates { float := readDigits } oneCard 10 trace :=
  ⟨freshBlock, _, _,
    (Runs.Run.play (fun _ _ _ h => h) ⟨rfl, freshBlock_started⟩ restartedEvents).snoc
      (Option.some_get restarted_collects).symm,
    fun h => absurd
      (h.collected _ (List.mem_append_right _ (List.mem_singleton_self _)) 0 [goodTry]
        (by decide +kernel) (by decide +kernel) ⟨goodTry, rfl, rfl⟩).1
      (by decide +kernel)⟩

end Tip
end Hazync
