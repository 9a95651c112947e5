import Hazync.Coordinator.ClaimCap

/-!
# Claims and picks as they are served (`claim`, `pick`, `coverage_and_held`)

`claim` and `pick` read the tables by one `SELECT` after another. A claim holds the lock from its
first `SELECT` until it has committed, so `ranges` and `vranges` are to its end as they were. But
`sponsor_payments_poll` and `_sponsor_request_invoice` write `sponsorships` without the lock: a hold
that starts after the claim has read the holds is there when it commits, and the claim does not know
of it. A pick takes no lock. Whatever it has read may be out of date by the time it answers.

## What is one step, and what is not

The lock of the coordinator is held by whoever writes `ranges` and `vranges`, and a claim holds it
from its first `SELECT`. So those two tables do not move under a claim, and it may be taken to read
them at its commit. `sponsorships` is not covered: the poller and the invoice requests commit to it
whenever they like. So the two reads of the sponsorships are steps of their own, what they found is
kept in the claim (`Claiming.seen`), and the answer is computed from the kept rows and the board as
it is at the commit.

A pick has no lock at all, so each of its four `SELECT`s is a step, and any number of picks may be
under way. A pick writes nothing: it is advice, and its answer is judged by what it had read.

Everything that has been proved of the board as a whole goes on to hold here, for what is served
makes only steps of the board (`ServeStep.world_cases`).
-/

namespace Hazync
namespace Coordinator

open KeyedTable

/-! ## `pick` -/

variable (cfg : Config) (out : Outside)

/-- A pass of `pick` over at most two million blocks from the frontier on. -/
def pickFrom (db : Db) (amb : Ambient) (peers busy : ℕ → Bool) : Option ℕ :=
  let start := max 1 (amb.frHi + 1)
  (List.range' start (min 2000000 (amb.ceiling - start))).find? fun n =>
    ¬ db.covered n ∧ ¬ db.held cfg amb.now n ∧ peers n = false ∧ busy n = false ∧
      amb.witness n = true

/-- `pick`: the second pass takes what peers are busy with as well. -/
def pick (db : Db) (amb : Ambient) (peers busy : ℕ → Bool) : Option ℕ :=
  pickFrom cfg db amb peers busy <|> pickFrom cfg db amb peers fun _ => false

/-! ## Reading the tables -/

/-- The `SELECT`s of `coverage_and_held`, in their order. The last two are `_sponsor_holds` and
    `_sponsor_pending`. -/
inductive Select where
  | coverage | claims | holds | pending

/-- A claim or a pick that reads the tables. -/
structure Look where
  /-- What it knows besides the tables. Its `now` is the time at which it came. -/
  amb : Ambient
  /-- The tables, as far as it has read them. -/
  db : Db
  /-- The `SELECT`s to come. -/
  left : List Select

/-- What is known after a `SELECT` that finds the tables as they are in `db`. -/
def Look.read (look : Look) (db : Db) : Select → Db
  | .coverage => { look.db with vranges := db.vranges }
  | .claims => { look.db with ranges := db.ranges }
  | .holds => { look.db with sponsorships := db.sponsorships.filter Sponsorship.holds }
  | .pending => { look.db with
      sponsorships := look.db.sponsorships ++
        db.sponsorships.filter (Sponsorship.pending look.amb.now) }

/-- A pick has yet to read all. -/
def Look.ofPick (amb : Ambient) : Look := ⟨amb, ⟨[], [], [], []⟩, [.coverage, .claims, .holds, .pending]⟩

/-- A claim has yet to read the sponsorships. `handle_refused` has read the keys of sponsors before
    the lock; `ranges` and `vranges` are taken from the board when it commits. -/
def Look.ofClaim (amb : Ambient) (keys : List (String × Option ℕ)) : Look :=
  ⟨amb, ⟨[], [], [], keys⟩, [.holds, .pending]⟩

/-- A claim that has the lock. -/
structure Claiming where
  req : ClaimRequest
  look : Look

/-- What it has read of the tables that others write without the lock. -/
def Claiming.seen (c : Claiming) : SponsorsSeen := ⟨c.look.db.sponsorships, c.look.db.sponsorKeys⟩

/-- What it answers on the board `w`. -/
def Claiming.reply (c : Claiming) (w : World) : Reply :=
  (claim cfg out (w.st.db.withSponsors c.seen) c.req c.look.amb).1

/-! ## Steps -/

/-- The board, the claim that has the lock, and the picks under way. -/
structure Serving where
  world : World
  claim : Option Claiming
  picks : List Look

/-- What happens in a step. -/
inductive ServeAct where
  | world (a : Act)
  | enter (c : Claiming)
  | read (c : Claiming)
  | answer (c : Claiming)
  | pick (p : Look)
  | look (p : Look)
  | advise (p : Look) (peers busy : ℕ → Bool)

/-- A step that others can take while a claim has the lock: it leaves `ranges` and `vranges` alone.
    `hazync-unpark.py` is a program of its own and does not know of the lock. -/
def Unlocked (w : World) (a : Act) (w' : World) : Prop :=
  (∃ rid, a = .unpark rid) ∨
    w'.st.db.ranges = w.st.db.ranges ∧ w'.st.db.vranges = w.st.db.vranges

/-- One `SELECT`, or one commit, or one step of the board that is neither a claim nor a pick.
    A claim that repeats another, or that is refused, is answered before it has read the sponsorships;
    that it is served as if it had read them changes nothing in its answer. -/
inductive ServeStep : Serving → ServeAct → Serving → Prop
  | world {s : Serving} {a : Act} {w : World} (h : WorldStep cfg out s.world a w)
      (ha : ∀ req amb seen, a ≠ .claim req amb seen)
      (hlock : s.claim ≠ none → Unlocked s.world a w) :
      ServeStep s (.world a) { s with world := w }
  | enter {s : Serving} (req : ClaimRequest) (amb : Ambient) (keys : List (String × Option ℕ))
      (hnow : amb.now ≤ s.world.clock) (hfree : s.claim = none) :
      ServeStep s (.enter ⟨req, .ofClaim amb keys⟩)
        { s with claim := some ⟨req, .ofClaim amb keys⟩ }
  | read {s : Serving} {c : Claiming} {sel : Select} {left : List Select} (hclaim : s.claim = some c)
      (hleft : c.look.left = sel :: left) :
      ServeStep s (.read c)
        { s with claim := some ⟨c.req, c.look.amb, c.look.read s.world.st.db sel, left⟩ }
  | answer {s : Serving} {c : Claiming} (hclaim : s.claim = some c) (hleft : c.look.left = []) :
      ServeStep s (.answer c) { s with
        world := { s.world with st := { s.world.st with db := { s.world.st.db with
          ranges := (Coordinator.claim cfg out (s.world.st.db.withSponsors c.seen) c.req
            c.look.amb).2.ranges } } }
        claim := none }
  | pick {s : Serving} (amb : Ambient) (hnow : amb.now ≤ s.world.clock) :
      ServeStep s (.pick (.ofPick amb)) { s with picks := .ofPick amb :: s.picks }
  | look {s : Serving} {p : Look} {before after : List Look} {sel : Select} {left : List Select}
      (hpick : s.picks = before ++ p :: after) (hleft : p.left = sel :: left) :
      ServeStep s (.look p)
        { s with picks := before ++ ⟨p.amb, p.read s.world.st.db sel, left⟩ :: after }
  | advise {s : Serving} {p : Look} {before after : List Look}
      (hpick : s.picks = before ++ p :: after) (hleft : p.left = []) (peers busy : ℕ → Bool) :
      ServeStep s (.advise p peers busy) { s with picks := before ++ after }

/-- The empty board, with nothing under way. -/
def Serving.Empty (s : Serving) : Prop := s.world.Empty ∧ s.claim = none ∧ s.picks = []

/-- A run of steps that all meet `ok`, from the empty board. -/
abbrev ServeRun (ok : Serving → ServeAct → Prop) :
    List (Serving × ServeAct × Serving) → Serving → Prop :=
  Runs.Run Serving.Empty fun s a s' => ServeStep cfg out s a s' ∧ ok s a

variable {cfg out} {s s' : Serving} {a : ServeAct}

/-! ## A served claim is a step of the board -/

/-- Those under way came no later than now. -/
structure Came (s : Serving) : Prop where
  claim : ∀ c ∈ s.claim, c.look.amb.now ≤ s.world.clock
  picks : ∀ p ∈ s.picks, p.amb.now ≤ s.world.clock

/-- Nobody is under way at the start. -/
theorem came_empty (h : s.Empty) : Came s := by
  obtain ⟨-, hclaim, hpicks⟩ := h
  refine ⟨fun c hc => ?_, fun p hp => ?_⟩
  · rw [hclaim] at hc
    cases hc
  · rw [hpicks] at hp
    cases hp

/-- Whoever is under way came no later than now: a claim and a pick read the clock as they come, and
    it goes on. -/
theorem Came.step (hs : Came s) (h : ServeStep cfg out s a s') : Came s' := by
  cases h with
  | world h ha hlock =>
    exact ⟨fun c hc => (hs.claim c hc).trans h.clock_le, fun p hp => (hs.picks p hp).trans h.clock_le⟩
  | enter req amb keys hnow hfree =>
    refine ⟨fun c hc => ?_, hs.picks⟩
    obtain rfl := Option.some.inj hc
    exact hnow
  | @read c sel left hclaim hleft =>
    refine ⟨fun c' hc' => ?_, hs.picks⟩
    obtain rfl := Option.some.inj hc'
    exact hs.claim c hclaim
  | answer hclaim hleft => exact ⟨fun c hc => absurd hc (Option.not_mem_none c), hs.picks⟩
  | pick amb hnow =>
    refine ⟨hs.claim, fun p hp => ?_⟩
    obtain rfl | hp := List.mem_cons.mp hp
    · exact hnow
    · exact hs.picks p hp
  | @look p before after sel left hpick hleft =>
    have hmem : ∀ q ∈ before ++ p :: after, q.amb.now ≤ s.world.clock := hpick ▸ hs.picks
    refine ⟨hs.claim, fun q hq => ?_⟩
    obtain hq | hq := List.mem_append.mp hq
    · exact hmem q (List.mem_append_left _ hq)
    · obtain rfl | hq := List.mem_cons.mp hq
      · exact hmem p (List.mem_append_right _ List.mem_cons_self)
      · exact hmem q (List.mem_append_right _ (List.mem_cons_of_mem _ hq))
  | @advise p before after hpick hleft peers busy =>
    have hmem : ∀ q ∈ before ++ p :: after, q.amb.now ≤ s.world.clock := hpick ▸ hs.picks
    refine ⟨hs.claim, fun q hq => hmem q ?_⟩
    obtain hq | hq := List.mem_append.mp hq
    · exact List.mem_append_left _ hq
    · exact List.mem_append_right _ (List.mem_cons_of_mem _ hq)

/-- **What is served makes the steps of the board**: a claim makes its own with its commit, and what
reads, or is a pick, makes none. -/
theorem ServeStep.world_cases (h : ServeStep cfg out s a s') (hs : Came s) :
    s'.world = s.world ∨ ∃ b, WorldStep cfg out s.world b s'.world := by
  cases h with
  | world h ha hlock => exact .inr ⟨_, h⟩
  | @answer c hclaim hleft =>
    exact .inr ⟨_, .claim c.req c.look.amb c.seen (hs.claim c hclaim)⟩
  | _ => exact .inl rfl

end Coordinator
end Hazync
