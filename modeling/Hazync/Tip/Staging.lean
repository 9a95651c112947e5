import Hazync.Lib.KeyedTable
import Hazync.Tip.RunBlock

/-!
# The files of a run (`coordinator/tip_runner.py`, `coordinator/tip_driver.py`)

A prove writes its receipt on its card, under the name that the probes look for: the file is there
before all of it is written. `stage_receipt` copies it to the orchestrator, and from there to the card
that aggregates. A copy, too, can leave a part of a file under the name it copies to. A chunk that was
moved or restarted has a directory of its own. The aggregate is started when there are as many files
as chunks.

## What can be left half done

A copy over the network can end in several ways, and the caller does not see all of them. `Effect`
is what it leaves: the whole file, an empty one, a part, or what was there before. `ended` is what
the caller is told, that the program returned and, for a push, returned 0. The two are independent
here, for a program that was killed by its timeout may have copied everything, and a copy that
returns may have copied a part. The code accepts a fetch if there is a file that is not empty, which
may be one that an earlier attempt has left.

A prove is no better. It creates its file under the final name, and writes it then, so that there is
a time when the file is there and the receipt is not (`RunEvent.create`). When it has written it is
over, and the file has the whole receipt (`RunEvent.write`).

Of a file nothing matters but whether it is empty, a receipt of this run, and of which card and
chunk, or something else. The directories and names are those that the code distinguishes.
-/

namespace Hazync
namespace Tip

open KeyedTable

variable {Card : Type} [DecidableEq Card]

/-! ## Files -/

/-- The directories of a card: `workdir`, and `workdir/re{chunk}`. -/
inductive Dir where
  | work
  | re (chunk : ℕ)
  deriving DecidableEq

/-- The two forms of a receipt's file name. -/
inductive Name where
  | bin (chunk : ℕ)
  | hzk (chunk : ℕ)
  deriving DecidableEq

/-- A place for a file. -/
structure Place (Card : Type) where
  card : Card
  dir : Dir
  name : Name
  deriving DecidableEq

/-- What a file has in it: the receipt that a card wrote for a chunk in this run, or nothing, or
    something else, which an earlier run left, a copy that was cut off, or a prove that is still
    writing. -/
inductive Content (Card : Type) where
  | receipt (card : Card) (chunk : ℕ)
  | empty
  | other
  deriving DecidableEq

/-- It is not a receipt of the run, be it a part of one or nothing. -/
def Content.unfinished : Content Card → Bool
  | .receipt .. => false
  | .empty | .other => true

/-- The chunk files of the cards, those in `stage_dir`, and the proves that were launched. -/
structure World (Card : Type) where
  files : List (Place Card × Content Card) := []
  stage : ℕ → Option (Content Card) := fun _ => none
  proves : List (Card × Dir × ℕ) := []

namespace World

/-- What is at the place. -/
def file (w : World Card) (p : Place Card) : Option (Content Card) :=
  (find Prod.fst p w.files).map Prod.snd

/-- A file is written, over what was there. -/
def put (w : World Card) (p : Place Card) (x : Content Card) : World Card :=
  { w with files := replace Prod.fst (p, x) w.files }

variable {w : World Card} {p q : Place Card} {x : Content Card}

/-- The file, and those of other places. -/
theorem mem_put {f : Place Card × Content Card} :
    f ∈ (w.put p x).files ↔ f = (p, x) ∨ (f ∈ w.files ∧ f.1 ≠ p) := mem_replace

/-- What is at a place afterwards. -/
theorem file_put : (w.put p x).file q = if q = p then some x else w.file q := by
  unfold file put
  rw [find_replace]
  split_ifs <;> rfl

/-- What is read is there. -/
theorem mem_of_file (h : w.file p = some x) : (p, x) ∈ w.files := by
  obtain ⟨f, hf, rfl⟩ := Option.map_eq_some_iff.mp h
  obtain ⟨hmem, rfl⟩ := mem_of_find hf
  exact hmem

/-- And what is there is read. -/
theorem file_of_mem {f : Place Card × Content Card} (h : f ∈ w.files) : (w.file f.1).isSome := by
  unfold file
  rw [Option.isSome_map]
  by_contra hnone
  exact find_none.mp (Option.not_isSome_iff_eq_none.mp hnone) f h rfl

end World

/-- The file is there and has something in it. -/
def Content.there (x : Option (Content Card)) : Bool := x.isSome ∧ x ≠ some .empty

/-! ## Copies -/

/-- How far a copy gets: to the end, to a file with none or a part of the bytes, or nowhere. -/
inductive Effect where
  | whole
  | cut (empty : Bool)
  | nothing
  deriving DecidableEq

/-- What a copy of `src` leaves where `old` was. -/
def copied (src old : Option (Content Card)) : Effect → Option (Content Card)
  | .whole => src.or old
  | .cut empty => if src.isSome then some (if empty then .empty else .other) else old
  | .nothing => old

/-- One `scp`. `ended` says that `subprocess.run` did not raise and, for a push, that the exit code
    is 0. -/
structure CopyTry where
  effect : Effect
  ended : Bool
  deriving DecidableEq

/-- One turn of the loop of `stage_receipt`. `answered` says that the card could be asked. -/
structure Attempt where
  fetch : CopyTry
  push : CopyTry
  answered : Bool
  deriving DecidableEq

/-- Where the aggregate reads the chunk's receipt. -/
def Place.agg (agg : Card) (chunk : ℕ) : Place Card := ⟨agg, .work, .bin chunk⟩

/-- The directory of a chunk. -/
def dirOf (reassigned : Finset ℕ) (chunk : ℕ) : Dir := if chunk ∈ reassigned then .re chunk else .work

namespace World

variable (w : World Card) (agg card : Card) (chunk : ℕ)

/-- `SSHRunner.fetch`, into the chunk's file in `stage_dir`. -/
def fetch (remote : Place Card) (t : CopyTry) : Bool × World Card :=
  let x := copied (w.file remote) (w.stage chunk) t.effect
  (t.ended ∧ Content.there x, { w with stage := Function.update w.stage chunk x })

/-- `SSHRunner.push`, of the chunk's file in `stage_dir`. -/
def push (t : CopyTry) : Bool × World Card :=
  if Content.there (w.stage chunk) then
    match copied (w.stage chunk) (w.file (.agg agg chunk)) t.effect with
    | some x => (t.ended, w.put (.agg agg chunk) x)
    | none => (t.ended, w)
  else (false, w)

/-- A fetch, a push, and the question whether the file has arrived. -/
def attempt (remote : Place Card) (t : Attempt) : Bool × World Card :=
  match w.fetch chunk remote t.fetch with
  | (false, w) => (false, w)
  | (true, w) =>
    match w.push agg chunk t.push with
    | (false, w) => (false, w)
    | (true, w) => (t.answered ∧ Content.there (w.file (.agg agg chunk)), w)

/-- `stage_receipt`. It returns at the first attempt that succeeds. -/
def stageReceipt (reassigned : Finset ℕ) : World Card → List Attempt → Bool × World Card
  | w, [] => (false, w)
  | w, t :: ts =>
    match w.attempt agg chunk ⟨card, dirOf reassigned chunk, .bin chunk⟩ t with
    | (true, w) => (true, w)
    | (false, w) => stageReceipt reassigned w ts

/-- A prove is over when it has written its receipt. -/
def ended (dir : Dir) : World Card := { w with proves := w.proves.erase (card, dir, chunk) }

/-- `staged_count`, of what `ls` lists. -/
def stagedCount : ℕ := (w.files.filter fun f => f.1.card = agg ∧ f.1.dir = .work).length

/-- `kill_provers` -/
def killProvers (killed : Bool) : World Card :=
  if killed then { w with proves := w.proves.filter fun p => p.1 ≠ card } else w

/-- `relaunch`: the directory is made anew, and a prove is started in it. -/
def relaunch (made launched : Bool) : World Card :=
  let w := if made then
      { w with files := w.files.filter fun f => ¬ (f.1.card = card ∧ f.1.dir = .re chunk) }
    else w
  if launched then { w with proves := (card, .re chunk, chunk) :: w.proves } else w

end World

/-! ## The run

A probe prints `DONE:` and what it measured when the file is there, and else what it measured, which
starts with the size of a log.
-/

structure Report where
  digit : Char
  isDigit : digit.isDigit
  rest : String

/-- `probe_body` -/
def probeReply (present : Bool) (r : Report) : String :=
  String.ofList ((if present then "DONE:".toList else []) ++ r.digit :: r.rest.toList)

/-- Where `run_block` is: it polls, sweeps up what was not collected, or has started the aggregate,
    or not. -/
inductive Phase where
  | polling
  | sweeping (left : List ℕ)
  | aggregating
  | refused
  deriving DecidableEq

/-- A block in the work: the loop, the files and the phase. -/
structure Block (Card : Type) where
  poll : Polling Card
  world : World Card
  phase : Phase := .polling

namespace Block

/-- Where the chunk's own prove writes. -/
def own (b : Block Card) (chunk : ℕ) : Place Card :=
  ⟨b.poll.run.cards.card chunk, dirOf b.poll.run.reassigned chunk, .bin chunk⟩

/-- The replies of a tick's probes, each with the reply that its chunk's directory gives. -/
def replies (b : Block Card) (reports : List (ℕ × Option Report)) : List (ℕ × Option String) :=
  reports.map fun r => (r.1, r.2.map (probeReply (b.world.file (b.own r.1)).isSome))

end Block

/-- What happens next: a prove creates the file of its receipt, which has none or a part of it until
    the prove has written the rest and is over; or `run_block` goes on, with what the cards and the
    copies do. -/
inductive RunEvent (Card : Type) where
  | create (card : Card) (dir : Dir) (chunk : ℕ) (empty : Bool)
  | write (card : Card) (dir : Dir) (chunk : ℕ)
  | tick (reports : List (ℕ × Option Report)) (now : Time)
  | collect (tries : List Attempt)
  | recover (killed made launched : Bool)
  | sweep
  | swept (tries : List Attempt)
  | gate (counted : Bool)

namespace Block

variable (cfg : Settings) (agg : Card)

/-- `run_block` calls `stage_receipt`, which tries three times, without the chunks that were
    reassigned. -/
def stage (b : Block Card) (chunk : ℕ) (tries : List Attempt) : Bool × World Card :=
  World.stageReceipt agg (b.poll.run.cards.card chunk) chunk ∅ b.world (tries.take 3)

def next (b : Block Card) : RunEvent Card → Option (Block Card)
  | .create card dir chunk empty =>
    if (card, dir, chunk) ∈ b.world.proves then
      some { b with world := b.world.put ⟨card, dir, .bin chunk⟩ (if empty then .empty else .other) }
    else none
  | .write card dir chunk =>
    if (card, dir, chunk) ∈ b.world.proves then
      let written := b.world.put ⟨card, dir, .bin chunk⟩ (.receipt card chunk)
      some { b with world := written.ended card chunk dir }
    else none
  | .tick reports now =>
    if b.phase = .polling then
      (b.poll.next cfg (.tick (b.replies reports) now)).map fun poll => { b with poll }
    else none
  | .collect tries =>
    match b.phase, b.poll.todo with
    | .polling, .stage c card :: _ =>
      (b.poll.next cfg (.act (.stage c card) (b.stage agg c tries).1)).map fun poll =>
        { b with poll, world := (b.stage agg c tries).2 }
    | _, _ => none
  | .recover killed made launched =>
    match b.phase, b.poll.todo with
    | .polling, .reassign c target :: _ =>
      (b.poll.next cfg (.act (.reassign c target) true)).map fun poll =>
        { b with
          poll
          world := (b.world.killProvers (b.poll.run.cards.card c) killed).relaunch target c made launched }
    | .polling, .restartInPlace c card :: _ =>
      (b.poll.next cfg (.act (.restartInPlace c card) true)).map fun poll =>
        { b with
          poll
          world := (b.world.killProvers (b.poll.run.cards.card c) killed).relaunch
            (b.poll.run.cards.card c) c made launched }
    | _, _ => none
  | .sweep =>
    if b.phase = .polling ∧ b.poll.todo = [] then
      some { b with phase := .sweeping b.poll.run.cards.chunks }
    else none
  | .swept tries =>
    match b.phase with
    | .sweeping (c :: left) =>
      if c ∈ b.poll.run.staged then some { b with phase := .sweeping left }
      else
        some
          { poll := { b.poll with
              run := b.poll.run.perform (b.stage agg c tries).1 (.stage c (b.poll.run.cards.card c)) }
            world := (b.stage agg c tries).2
            phase := .sweeping left }
    | _ => none
  | .gate counted =>
    if b.phase = .sweeping [] then
      let count := if counted then b.world.stagedCount agg else 0
      let expected := b.poll.run.cards.chunks.length
      -- `staging_complete`
      some { b with phase := if expected ≤ count ∧ 0 < expected then .aggregating else .refused }
    else none

end Block

end Tip
end Hazync
