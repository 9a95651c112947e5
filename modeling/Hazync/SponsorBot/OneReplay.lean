import Hazync.SponsorBot.Regen

/-!
# One replay at a time

While a replay's pid is always on record, and no bot starts over one that is alive, what is in
flight is what the bot has a handle of: the rows, the handle and the process are of one replay.

## A process that outlives its parent

The bot is stopped and started like any service, while a replay is a process of its own and runs for
hours. The bot keeps a handle of it in memory and its pid in the database. When it is started again
the handle is gone; what it has is a row which says that a replay was started under that pid. It
looks whether a process of that pid is there, and if not marks the row failed, so that the next
block can have its turn.

For this to be right the pid must be that of a process which the look would find. It is not: the
look is for bridges, by the name of the binary, and the replay is started through a script whose
process has another name. So a replay that is alive is marked failed when the bot comes back, and
another one is started beside it (`two_replays`). What is proved is what holds of the runs in which
no bot starts over a replay that is alive.

## The invariant

`Sound` ties three things together: the row in flight, the bot's handle and the process. Between the
launch and the write of the row there is a moment at which the process is alive and the row says
nothing of it; the bot then has a `launch` in hand, and if it is stopped there the replay is lost
sight of. That is excluded by `Orderly` too, like a write that fails.

From `Sound` follows that no two replays are alive. That a height is never launched a second time
needs a bit more, since a row must not become startable again. Nothing unsets the start of a row,
and heights are queued once (`Begun.step`).
-/

namespace Hazync
namespace SponsorBot

open KeyedTable

variable {python : String} {x x' : Box} {a : BoxAct} {b : Bot} {q : List RegenRow} {r r' : RegenRow}
  {p : Proc} {height : ℕ} {now : Time}

/-! ## The queue -/

/-- Started, and not finished. -/
theorem inFlight_iff : r.inFlight = true ↔ r.startedAt.isSome = true ∧ r.finishedAt = none := by
  rw [RegenRow.inFlight, decide_eq_true_iff]

/-- A row that was not started is not in flight. -/
theorem not_inFlight (h : r.startedAt = none) : ¬ r.inFlight = true := by
  rw [inFlight_iff, h]
  exact fun h => Bool.false_ne_true h.1

/-- A finished row is not in flight. -/
theorem finished_not_inFlight {rc : ℤ} {detail : String} :
    ¬ (r.finished rc detail now).inFlight = true := by
  rw [inFlight_iff]
  exact fun h => Option.some_ne_none _ h.2

/-- Nor is one that was left. -/
theorem reaped_not_inFlight : ¬ (r.reaped now).inFlight = true := by
  rw [inFlight_iff]
  exact fun h => Option.some_ne_none _ h.2

/-- Nothing is in flight. -/
theorem regenInflight_eq_none (h : regenInflight q = none) : ∀ r ∈ q, ¬ r.inFlight = true := by
  intro r hr hflight
  rw [regenInflight, List.argmin_eq_none] at h
  exact absurd (List.mem_filter.mpr ⟨hr, hflight⟩) (h ▸ List.not_mem_nil)

/-- What comes next was not started. -/
theorem regenNext_mem (h : regenNext q = some r) : r ∈ q ∧ r.startedAt = none ∧ r.outcome = none := by
  obtain ⟨hr, hopen⟩ := List.mem_filter.mp (List.argmin_mem h)
  exact ⟨hr, of_decide_eq_true hopen⟩

/-- A row that is queued, and no more. -/
def Queued (r : RegenRow) : Prop :=
  r.startedAt = none ∧ r.finishedAt = none ∧ r.outcome = none

/-- Heights are put in once, and those that are there stay as they are. -/
theorem regenEnqueue_eq (pairs : List (Option ℕ × ℕ)) (now : Time) (q : List RegenRow) :
    (∀ r ∈ q, r ∈ regenEnqueue q pairs now) ∧
      (∀ r ∈ regenEnqueue q pairs now, r ∈ q ∨ Queued r) ∧
      ((q.map RegenRow.height).Nodup → ((regenEnqueue q pairs now).map RegenRow.height).Nodup) := by
  induction pairs generalizing q with
  | nil => exact ⟨fun _ h => h, fun _ h => .inl h, id⟩
  | cons pair pairs ih =>
    obtain ⟨hkeep, hfrom, hnodup⟩ :=
      ih (ignore RegenRow.height { height := pair.2, sponsorshipId := pair.1, queuedAt := now } q)
    refine ⟨fun r hr => hkeep r (mem_ignore.mpr (.inl hr)), fun r hr => ?_, fun h => ?_⟩
    · obtain hr | hqueued := hfrom r hr
      · obtain hr | ⟨rfl, -⟩ := mem_ignore.mp hr
        · exact .inl hr
        · exact .inr ⟨rfl, rfl, rfl⟩
      · exact .inr hqueued
    · exact hnodup (nodup_ignore _ h)

/-! ## What is in flight -/

/-- Each replay is stopped or killed only when it is on record, and a bot starts over a queue of
    which no replay is alive, and no bridge has a pid that is in flight. A trial, which does not look
    at what is left, starts only where nothing is. -/
def Orderly (x : Box) : BoxAct → Prop
  | .record ok _ => ok = true
  | .stop => ∀ b ∈ x.bot, b.launch = none
  | .reap => ∀ r ∈ x.queue, r.inFlight = true → (∀ p ∈ x.procs, p.replay ≠ some r.height) ∧
      ∀ b ∈ x.bot, ∀ pid ∈ r.pid, pid ∉ bridgeRunning b.pid x.procs
  | .boot _ trial => trial = true → ∀ r ∈ x.queue, ¬ r.inFlight = true
  | _ => True

/-- What is so between the steps. -/
structure Sound (x : Box) : Prop where
  /-- A block is queued once. -/
  heights : (x.queue.map RegenRow.height).Nodup
  /-- A row that has no outcome is not finished. -/
  ended : ∀ r ∈ x.queue, r.outcome = none → r.finishedAt = none
  /-- A bot replays only after it has looked at what was left, or on trial, where nothing was. -/
  ready : ∀ b ∈ x.bot, b.looping = true ∨ b.launch ≠ none ∨ b.proc ≠ none →
    b.trial = true ∨ b.reaped = true
  /-- Between the launch and its record nothing else is in flight, and the row still stands as it
      was queued. -/
  launch : ∀ b ∈ x.bot, ∀ l ∈ b.launch, b.proc = none ∧ (∀ r ∈ x.queue, ¬ r.inFlight = true) ∧
    ∃ r ∈ x.queue, r.height = l.height ∧ r.startedAt = none ∧ r.outcome = none
  /-- The process a bot watches is the one on record. -/
  proc : ∀ b ∈ x.bot, ∀ l ∈ b.proc, ∃ r ∈ x.queue, r.height = l.2 ∧ r.pid = some l.1 ∧
    r.startedAt.isSome = true
  /-- And what is in flight, when the bot is ready, is what it watches. -/
  owned : ∀ b ∈ x.bot, b.trial = true ∨ b.reaped = true → ∀ r ∈ x.queue, r.inFlight = true →
    ∃ pid, b.proc = some (pid, r.height)
  /-- A replay that is alive is being recorded, or is on record with its own pid. -/
  replays : ∀ p ∈ x.procs, ∀ height ∈ p.replay,
    (∃ b ∈ x.bot, ∃ l ∈ b.launch, l.pid = p.pid ∧ l.height = height) ∨
      ∃ r ∈ x.queue, r.height = height ∧ r.inFlight = true ∧ r.pid = some p.pid
  /-- So no two are alive. -/
  solo : ∀ p ∈ x.procs, ∀ p' ∈ x.procs, p.replay.isSome = true → p'.replay.isSome = true → p = p'

/-- A height has one row. -/
theorem Sound.unique (hx : Sound x) (hr : r ∈ x.queue) (hr' : r' ∈ x.queue)
    (h : r.height = r'.height) : r = r' := List.inj_on_of_nodup_map hx.heights hr hr' h

/-- A box where nothing is queued. -/
theorem sound_empty (h : x.Empty) : Sound x := by
  obtain ⟨hqueue, hbot, hprocs⟩ := h
  constructor
  · rw [hqueue]
    exact List.nodup_nil
  · rw [hqueue]
    exact fun r hr => absurd hr List.not_mem_nil
  · rw [hbot]
    exact fun b hb => by cases hb
  · rw [hbot]
    exact fun b hb => by cases hb
  · rw [hbot]
    exact fun b hb => by cases hb
  · rw [hbot]
    exact fun b hb => by cases hb
  · intro p hp height hheight
    rw [hprocs p hp] at hheight
    cases hheight
  · intro p hp p' hp' h
    rw [hprocs p hp] at h
    cases h

/-! ## Steps -/

/-- Where nothing is in flight and nothing is launched, no replay is alive. -/
theorem Sound.idle (hx : Sound x) (hlaunch : ∀ b ∈ x.bot, b.launch = none)
    (hflight : ∀ r ∈ x.queue, ¬ r.inFlight = true) : ∀ p ∈ x.procs, p.replay = none := by
  intro p hp
  cases hreplay : p.replay with
  | none => rfl
  | some height =>
    obtain ⟨b, hb, l, hl, -⟩ | ⟨r, hr, -, hr', -⟩ := hx.replays p hp height hreplay
    · rw [hlaunch b hb] at hl
      cases hl
    · exact absurd hr' (hflight r hr)

/-- A process appears that is no replay. -/
theorem Sound.appear (hx : Sound x) (hreplay : p.replay = none) :
    Sound { x with procs := p :: x.procs } := by
  have hold {p' : Proc} (hp' : p' ∈ p :: x.procs) (h : p'.replay ≠ none) : p' ∈ x.procs := by
    obtain rfl | hp' := List.mem_cons.mp hp'
    · exact absurd hreplay h
    · exact hp'
  refine { hx with replays := fun p' hp' height h => ?_, solo := fun p' hp' q hq h h' => ?_ }
  · exact hx.replays p' (hold hp' (h ▸ Option.some_ne_none _)) height h
  · exact hx.solo p' (hold hp' (Option.isSome_iff_ne_none.mp h)) q
      (hold hq (Option.isSome_iff_ne_none.mp h')) h h'

/-- A process ends. -/
theorem Sound.exit (hx : Sound x) : Sound { x with procs := x.procs.erase p } :=
  { hx with
    replays := fun p' hp' => hx.replays p' (List.mem_of_mem_erase hp')
    solo := fun p' hp' q hq => hx.solo p' (List.mem_of_mem_erase hp') q (List.mem_of_mem_erase hq) }

/-- A bot starts. -/
theorem Sound.boot (hx : Sound x) (hbot : x.bot = none) {pid : ℕ} {trial : Bool}
    (hok : trial = true → ∀ r ∈ x.queue, ¬ r.inFlight = true) :
    Sound { x with bot := some { pid := pid, trial := trial } } := by
  refine { hx with
    ready := fun b hb h => ?_, launch := fun b hb l hl => ?_, proc := fun b hb l hl => ?_,
    owned := fun b hb h r hr hflight => ?_, replays := fun p hp height hheight => ?_ }
  · cases hb
    obtain h | h | h := h
    · cases h
    · exact absurd rfl h
    · exact absurd rfl h
  · cases hb
    cases hl
  · cases hb
    cases hl
  · cases hb
    obtain h | h := h
    · exact absurd hflight (hok h r hr)
    · cases h
  · obtain ⟨b, hb, -⟩ | h := hx.replays p hp height hheight
    · rw [hbot] at hb
      cases hb
    · exact .inr h

/-- Blocks are queued. -/
theorem Sound.enqueue (hx : Sound x) (pairs : List (Option ℕ × ℕ)) (now : Time) :
    Sound { x with queue := regenEnqueue x.queue pairs now } := by
  obtain ⟨hkeep, hfrom, hnodup⟩ := regenEnqueue_eq pairs now x.queue
  have hold {r : RegenRow} (hr : r ∈ regenEnqueue x.queue pairs now) (hflight : r.inFlight = true) :
      r ∈ x.queue := (hfrom r hr).resolve_right fun h => not_inFlight h.1 hflight
  refine { hx with
    heights := hnodup hx.heights, ended := fun r hr h => ?_, launch := fun b hb l hl => ?_,
    proc := fun b hb l hl => ?_, owned := fun b hb h r hr hflight => ?_,
    replays := fun p hp height h => ?_ }
  · obtain hr | hqueued := hfrom r hr
    · exact hx.ended r hr h
    · exact hqueued.2.1
  · obtain ⟨hproc, hflight, r, hr, hrow⟩ := hx.launch b hb l hl
    exact ⟨hproc, fun r hr h => hflight r (hold hr h) h, r, hkeep r hr, hrow⟩
  · obtain ⟨r, hr, hrow⟩ := hx.proc b hb l hl
    exact ⟨r, hkeep r hr, hrow⟩
  · exact hx.owned b hb h r (hold hr hflight) hflight
  · exact (hx.replays p hp height h).imp id fun ⟨r, hr, hrow⟩ => ⟨r, hkeep r hr, hrow⟩

/-- The rows of a reap that leaves nothing in flight. -/
theorem Sound.reap (hx : Sound x) (hbot : x.bot = some b) (htrial : b.trial = false)
    (hreaped : b.reaped = false) (hok : Orderly x .reap) (now : Time) :
    Sound { x with
      queue := regenReap x.queue (bridgeRunning b.pid x.procs) now
      bot := some { b with reaped := true } } := by
  have hnew : b.looping = false ∧ b.launch = none ∧ b.proc = none := by
    have hready := hx.ready b hbot
    rw [htrial, hreaped] at hready
    simpa using hready
  -- a row is left only where its bridge still runs, which an orderly reap excludes
  have hflight : ∀ r ∈ regenReap x.queue (bridgeRunning b.pid x.procs) now, ¬ r.inFlight = true := by
    intro r' hr'
    obtain ⟨r, hr, rfl⟩ := List.mem_map.mp hr'
    split
    · exact reaped_not_inFlight
    · rename_i hleft
      intro hflight
      rw [RegenRow.left, decide_eq_true_iff, not_and_not_right] at hleft
      obtain ⟨pid, hpid, -, hmem⟩ := hleft hflight
      exact (hok r hr hflight).2 b hbot pid hpid hmem
  -- this bot has launched nothing, and no process replays a row in flight
  have hidle : ∀ p ∈ x.procs, p.replay = none := by
    intro p hp
    cases hreplay : p.replay with
    | none => rfl
    | some height =>
      obtain ⟨b', hb', l, hl, -⟩ | ⟨r, hr, rfl, hr', -⟩ := hx.replays p hp height hreplay
      · obtain rfl : b = b' := Option.some.inj (hbot.symm.trans hb')
        rw [hnew.2.1] at hl
        cases hl
      · exact absurd hreplay ((hok r hr hr').1 p hp)
  constructor
  · have hheights : (regenReap x.queue (bridgeRunning b.pid x.procs) now).map RegenRow.height =
        x.queue.map RegenRow.height := by
      rw [regenReap, List.map_map]
      refine List.map_congr_left fun r _ => ?_
      rw [Function.comp_apply]
      split
      · rfl
      · rfl
    exact hheights ▸ hx.heights
  · intro r' hr' houtcome
    obtain ⟨r, hr, rfl⟩ := List.mem_map.mp hr'
    split at houtcome
    · cases houtcome
    · rename_i hleft
      rw [if_neg hleft]
      exact hx.ended r hr houtcome
  · exact fun b' hb' _ => by cases hb'; exact .inr rfl
  · intro b' hb' l hl
    cases hb'
    exact absurd (hnew.2.1.symm.trans hl) (by simp)
  · intro b' hb' l hl
    cases hb'
    exact absurd (hnew.2.2.symm.trans hl) (by simp)
  · exact fun b' _ _ r hr h => absurd h (hflight r hr)
  · intro p hp height h
    rw [hidle p hp] at h
    cases h
  · exact hx.solo

/-- The bot has come to its loop. -/
theorem Sound.loop (hx : Sound x) (hbot : x.bot = some b) (hready : b.trial = true ∨ b.reaped = true) :
    Sound { x with bot := some { b with looping := true } } := by
  refine { hx with
    ready := fun b' hb' _ => ?_, launch := fun b' hb' l hl => ?_, proc := fun b' hb' l hl => ?_,
    owned := fun b' hb' h => ?_, replays := fun p hp height h => ?_ }
  · cases hb'
    exact hready
  · cases hb'
    exact hx.launch b hbot l hl
  · cases hb'
    exact hx.proc b hbot l hl
  · cases hb'
    exact hx.owned b hbot h
  · obtain ⟨b', hb', l, hl, h⟩ | h := hx.replays p hp height h
    · obtain rfl : b = b' := Option.some.inj (hbot.symm.trans hb')
      exact .inl ⟨_, rfl, l, hl, h⟩
    · exact .inr h

/-- The heights and the ends of the rows, after a row is finished. -/
theorem Sound.finished_rows (hx : Sound x) (height : ℕ) (rc : ℤ) (detail : String) (now : Time) :
    ((regenFinish x.queue height rc detail now).map RegenRow.height).Nodup ∧
      ∀ r ∈ regenFinish x.queue height rc detail now, r.outcome = none → r.finishedAt = none := by
  refine ⟨?_, fun r hr houtcome => ?_⟩
  · rw [regenFinish, map_update (f := RegenRow.finished rc detail now) fun _ => rfl]
    exact hx.heights
  obtain ⟨hr, -⟩ | ⟨r, -, -, rfl⟩ := mem_update.mp hr
  · exact hx.ended r hr houtcome
  · cases houtcome

/-- A row that is in flight after one is finished is another one. -/
theorem inFlight_of_finish {rc : ℤ} {detail : String}
    (hr : r ∈ regenFinish q height rc detail now) (h : r.inFlight = true) :
    r ∈ q ∧ r.height ≠ height := by
  obtain hr | ⟨r, -, -, rfl⟩ := mem_update.mp hr
  · exact hr
  · exact absurd h finished_not_inFlight

/-- The handle's replay ends. -/
theorem Sound.finish (hx : Sound x) {pid : ℕ} (hbot : x.bot = some b)
    (hproc : b.proc = some (pid, height)) (hdead : ∀ p ∈ x.procs, p.pid ≠ pid) (rc : ℤ)
    (detail : String) (now : Time) (ok : Bool) :
    Sound { x with
      queue := regenFinish x.queue height rc detail now
      bot := some (if ok then { b with proc := none } else b) } := by
  have hlaunch : b.launch = none := by
    cases h : b.launch with
    | none => rfl
    | some l => exact absurd ((hx.launch b hbot l h).1.symm.trans hproc) (by simp)
  have hready := hx.ready b hbot (.inr (.inr (hproc ▸ Option.some_ne_none _)))
  have hlaunch' : (if ok then { b with proc := none } else b).launch = none := by
    split
    · exact hlaunch
    · exact hlaunch
  -- a row in flight is that of the handle, which ends here
  have hflight : ∀ r ∈ regenFinish x.queue height rc detail now, ¬ r.inFlight = true := by
    intro r hr h
    obtain ⟨hr, hne⟩ := inFlight_of_finish hr h
    obtain ⟨pid', hproc'⟩ := hx.owned b hbot hready r hr h
    rw [hproc, Option.some.injEq, Prod.mk.injEq] at hproc'
    exact hne hproc'.2.symm
  have hidle : ∀ p ∈ x.procs, p.replay = none := by
    intro p hp
    cases hreplay : p.replay with
    | none => rfl
    | some height' =>
      obtain ⟨b', hb', l, hl, -⟩ | ⟨r, hr, -, hflight, hpid⟩ := hx.replays p hp height' hreplay
      · obtain rfl : b = b' := Option.some.inj (hbot.symm.trans hb')
        rw [hlaunch] at hl
        cases hl
      · -- the row in flight is the one of the handle, whose process is dead
        obtain ⟨pid', hproc'⟩ := hx.owned b hbot hready r hr hflight
        rw [hproc, Option.some.injEq, Prod.mk.injEq] at hproc'
        obtain ⟨r', hr', hheight, hpid', -⟩ := hx.proc b hbot _ hproc
        obtain rfl := hx.unique hr' hr (hheight.trans hproc'.2)
        exact absurd (Option.some.inj (hpid.symm.trans hpid')) (hdead p hp)
  obtain ⟨hheights, hended⟩ := hx.finished_rows height rc detail now
  constructor
  · exact hheights
  · exact hended
  · intro b' hb' _
    cases hb'
    split
    · exact hready
    · exact hready
  · intro b' hb' l hl
    cases hb'
    exact absurd (hlaunch'.symm.trans hl) (by simp)
  · intro b' hb' l hl
    cases hb'
    split at hl
    · cases hl
    · obtain ⟨r, hr, hheight, hpid, hstarted⟩ := hx.proc b hbot l hl
      obtain ⟨-, hr'⟩ | ⟨-, hr'⟩ :=
        exists_mem_update height (RegenRow.finished rc detail now) hr
      · exact ⟨_, hr', hheight, hpid, hstarted⟩
      · exact ⟨r, hr', hheight, hpid, hstarted⟩
  · exact fun _ _ _ r hr h => absurd h (hflight r hr)
  · intro p hp height h
    rw [hidle p hp] at h
    cases h
  · exact hx.solo

/-- A row that was not started is refused. -/
theorem Sound.refuse (hx : Sound x) (hbot : x.bot = some b) (hproc : b.proc = none)
    (hlaunch : b.launch = none) (hinflight : regenInflight x.queue = none) (height : ℕ) (rc : ℤ)
    (detail : String) (now : Time) :
    Sound { x with queue := regenFinish x.queue height rc detail now } := by
  have hnone := regenInflight_eq_none hinflight
  have hlaunched (b' : Bot) (hb' : b' ∈ x.bot) : b'.launch = none ∧ b'.proc = none := by
    obtain rfl : b = b' := Option.some.inj (hbot.symm.trans hb')
    exact ⟨hlaunch, hproc⟩
  obtain ⟨hheights, hended⟩ := hx.finished_rows height rc detail now
  refine { hx with
    heights := hheights, ended := hended, launch := fun b' hb' l hl => ?_,
    proc := fun b' hb' l hl => ?_, owned := fun b' hb' h r hr hflight => ?_,
    replays := fun p hp height' h => ?_ }
  · exact absurd ((hlaunched b' hb').1.symm.trans hl) (by simp)
  · exact absurd ((hlaunched b' hb').2.symm.trans hl) (by simp)
  · exact absurd hflight (hnone r (inFlight_of_finish hr hflight).1)
  · rw [hx.idle (fun b' hb' => (hlaunched b' hb').1) hnone p hp] at h
    cases h

/-- The replay of a row that was not started is launched. -/
theorem Sound.launched (hx : Sound x) {pid rung : ℕ} (hbot : x.bot = some b)
    (hlooping : b.looping = true) (hproc : b.proc = none) (hlaunch : b.launch = none)
    (hinflight : regenInflight x.queue = none) (hnext : regenNext x.queue = some r) :
    Sound { x with
      procs := ⟨pid, python, some r.height⟩ :: x.procs
      bot := some { b with launch := some ⟨pid, r.height, rung⟩ } } := by
  have hnone := regenInflight_eq_none hinflight
  have hidle : ∀ p ∈ x.procs, p.replay = none := by
    refine hx.idle (fun b' hb' => ?_) hnone
    obtain rfl : b = b' := Option.some.inj (hbot.symm.trans hb')
    exact hlaunch
  have hnew {p : Proc} (hp : p ∈ (⟨pid, python, some r.height⟩ : Proc) :: x.procs)
      (h : p.replay.isSome = true) : p = ⟨pid, python, some r.height⟩ := by
    obtain rfl | hp := List.mem_cons.mp hp
    · rfl
    · rw [hidle p hp] at h
      cases h
  refine { hx with
    ready := fun b' hb' _ => ?_, launch := fun b' hb' l hl => ?_, proc := fun b' hb' l hl => ?_,
    owned := fun b' _ _ r hr h => absurd h (hnone r hr), replays := fun p hp height h => ?_,
    solo := fun p hp p' hp' h h' => (hnew hp h).trans (hnew hp' h').symm }
  · cases hb'
    exact hx.ready b hbot (.inl hlooping)
  · cases hb'
    cases hl
    obtain ⟨hr, hstarted, houtcome⟩ := regenNext_mem hnext
    exact ⟨hproc, hnone, r, hr, rfl, hstarted, houtcome⟩
  · cases hb'
    exact hx.proc b hbot l hl
  · obtain rfl := hnew hp (by rw [Option.mem_def.mp h]; rfl)
    cases h
    exact .inl ⟨_, rfl, _, rfl, rfl, rfl⟩

/-- The launch goes on record. -/
theorem Sound.recorded (hx : Sound x) {l : Launch} (hbot : x.bot = some b)
    (hlaunch : b.launch = some l) (now : Time) :
    Sound { x with
      queue := regenStart x.queue l.height l.pid l.rung now
      bot := some { b with launch := none, proc := some (l.pid, l.height) } } := by
  obtain ⟨-, hnone, row, hrow, hheight, hstarted, houtcome⟩ := hx.launch b hbot l hlaunch
  have hmem : row.started l.pid l.rung now ∈ regenStart x.queue l.height l.pid l.rung now :=
    mem_update.mpr (.inr ⟨row, hrow, hheight, rfl⟩)
  have hfrom {r : RegenRow} (hr : r ∈ regenStart x.queue l.height l.pid l.rung now) :
      r ∈ x.queue ∨ r = row.started l.pid l.rung now := by
    obtain ⟨hr, -⟩ | ⟨r', hold, hr', rfl⟩ := mem_update.mp hr
    · exact .inl hr
    · exact .inr (by rw [hx.unique hold hrow (hr'.trans hheight.symm)])
  have hended : row.finishedAt = none := hx.ended row hrow houtcome
  refine { hx with
    heights := ?_, ended := fun r hr h => ?_, ready := fun b' hb' _ => ?_,
    launch := fun b' hb' l' hl => ?_, proc := fun b' hb' l' hl => ?_,
    owned := fun b' hb' _ r hr h => ?_, replays := fun p hp height h => ?_ }
  · change ((regenStart x.queue l.height l.pid l.rung now).map RegenRow.height).Nodup
    rw [regenStart, map_update (f := RegenRow.started l.pid l.rung now) fun _ => rfl]
    exact hx.heights
  · obtain hr | rfl := hfrom hr
    · exact hx.ended r hr h
    · exact hended
  · cases hb'
    exact hx.ready b hbot (.inr (.inl (hlaunch ▸ Option.some_ne_none _)))
  · cases hb'
    cases hl
  · cases hb'
    cases hl
    exact ⟨_, hmem, hheight, rfl, rfl⟩
  · cases hb'
    obtain hr | rfl := hfrom hr
    · exact absurd h (hnone r hr)
    · exact ⟨l.pid, by rw [← hheight]; rfl⟩
  · obtain ⟨b', hb', l', hl', hpid, rfl⟩ | ⟨r, hr, -, h, -⟩ := hx.replays p hp height h
    · obtain rfl : b = b' := Option.some.inj (hbot.symm.trans hb')
      obtain rfl : l = l' := Option.some.inj (hlaunch.symm.trans hl')
      exact .inr ⟨_, hmem, hheight, inFlight_iff.mpr ⟨rfl, hended⟩, congrArg some hpid⟩
    · exact absurd h (hnone r hr)

/-- The bot stops, with no launch in hand. -/
theorem Sound.stop (hx : Sound x) (hok : ∀ b ∈ x.bot, b.launch = none) :
    Sound { x with bot := none } := by
  refine { hx with
    ready := fun b hb => by cases hb
    launch := fun b hb => by cases hb
    proc := fun b hb => by cases hb
    owned := fun b hb => by cases hb
    replays := fun p hp height h => ?_ }
  obtain ⟨b, hb, l, hl, -⟩ | h := hx.replays p hp height h
  · rw [hok b hb] at hl
    cases hl
  · exact .inr h

/-- **An orderly step keeps the rows, the handle and the process of one replay together.** -/
theorem Sound.step (hx : Sound x) (h : BoxStep python x a x') (hok : Orderly x a) : Sound x' := by
  cases h with
  | appear hfresh hreplay => exact hx.appear hreplay
  | exit hp => exact hx.exit
  | boot trial hbot hfresh => exact hx.boot hbot hok
  | enqueue pairs now hbot htrial hreaped => exact hx.enqueue pairs now
  | reap now hbot htrial hreaped => exact hx.reap hbot htrial hreaped hok now
  | loop hbot hready => exact hx.loop hbot hready
  | @finish b pid height rc detail now ok written hbot hproc hdead =>
    have hfinish := hx.finish hbot hproc hdead rc detail now ok
    split
    · exact hfinish
    · rename_i hno
      obtain ⟨hok, -⟩ := not_or.mp hno
      rw [if_neg hok, ← hbot]
      exact hx
  | @refuse b r rungs now written hbot hlooping hproc hlaunch hinflight hnext hbusy hplan =>
    split
    · exact hx.refuse hbot hproc hlaunch hinflight r.height 2 _ now
    · exact hx
  | launch hbot hlooping hproc hlaunch hinflight hnext =>
    exact hx.launched hbot hlooping hproc hlaunch hinflight hnext
  | record now ok written hbot hlaunch =>
    obtain rfl : ok = true := hok
    exact hx.recorded hbot hlaunch now
  | stop hbot => exact hx.stop hok

/-! ## What is started once -/

/-- The replay of the height was started: on record, or about to be. -/
def Begun (x : Box) (height : ℕ) : Prop :=
  (∃ r ∈ x.queue, r.height = height ∧ r.startedAt.isSome = true) ∨
    ∃ b ∈ x.bot, ∃ l ∈ b.launch, l.height = height

/-- A row that is written stays started. -/
theorem started_after_update (f : RegenRow → RegenRow) (hheight : ∀ r, (f r).height = r.height)
    (hstarted : ∀ r, r.startedAt.isSome = true → (f r).startedAt.isSome = true) {k : ℕ}
    (h : ∃ r ∈ q, r.height = height ∧ r.startedAt.isSome = true) :
    ∃ r ∈ update RegenRow.height k f q, r.height = height ∧ r.startedAt.isSome = true := by
  obtain ⟨r, hr, hrow, h⟩ := h
  obtain ⟨-, hr'⟩ | ⟨-, hr'⟩ := exists_mem_update k f hr
  · exact ⟨_, hr', (hheight r).trans hrow, hstarted r h⟩
  · exact ⟨r, hr', hrow, h⟩

/-- **What was started stays so.** -/
theorem Begun.step (hbegun : Begun x height) (hx : Sound x) (h : BoxStep python x a x')
    (hok : Orderly x a) : Begun x' height := by
  cases h with
  | appear | exit => exact hbegun
  | boot trial hbot =>
    refine hbegun.imp id fun ⟨b, hb, _⟩ => ?_
    rw [hbot] at hb
    cases hb
  | enqueue pairs now =>
    exact hbegun.imp (fun ⟨r, hr, h⟩ => ⟨r, (regenEnqueue_eq pairs now x.queue).1 r hr, h⟩) id
  | @reap b now hbot =>
    refine hbegun.imp (fun ⟨r, hr, hrow, h⟩ => ?_) fun ⟨b', hb', l, hl, h⟩ => ?_
    · refine ⟨_, List.mem_map_of_mem hr, ?_, ?_⟩
      · split
        · exact hrow
        · exact hrow
      · split
        · exact h
        · exact h
    · obtain rfl : b = b' := Option.some.inj (hbot.symm.trans hb')
      exact ⟨_, rfl, l, hl, h⟩
  | @loop b hbot =>
    refine hbegun.imp id fun ⟨b', hb', l, hl, h⟩ => ?_
    obtain rfl : b = b' := Option.some.inj (hbot.symm.trans hb')
    exact ⟨_, rfl, l, hl, h⟩
  | @finish b pid height' rc detail now ok written hbot =>
    refine hbegun.imp (fun h => ?_) fun ⟨b', hb', l, hl, h⟩ => ?_
    · split
      · exact started_after_update (RegenRow.finished rc detail now) (fun _ => rfl) (fun _ => id) h
      · exact h
    · obtain rfl : b = b' := Option.some.inj (hbot.symm.trans hb')
      refine ⟨_, rfl, l, ?_, h⟩
      split
      · exact hl
      · exact hl
  | @refuse b r rungs now =>
    refine hbegun.imp (fun h => ?_) id
    split
    · exact started_after_update (RegenRow.finished 2 _ now) (fun _ => rfl) (fun _ => id) h
    · exact h
  | @launch b r pid rung lo hi rungs hbot hlooping hproc hlaunch =>
    refine hbegun.imp id fun ⟨b', hb', l, hl, _⟩ => ?_
    obtain rfl : b = b' := Option.some.inj (hbot.symm.trans hb')
    exact absurd (hlaunch.symm.trans hl) (by simp)
  -- the write that turns a launch into a started row
  | @record b l now ok written hbot hlaunch =>
    obtain rfl : ok = true := hok
    refine .inl ?_
    obtain h | ⟨b', hb', l', hl', rfl⟩ := hbegun
    · exact started_after_update (RegenRow.started l.pid l.rung now) (fun _ => rfl) (fun _ _ => rfl) h
    · obtain rfl : b = b' := Option.some.inj (hbot.symm.trans hb')
      obtain rfl : l = l' := Option.some.inj (hlaunch.symm.trans hl')
      obtain ⟨-, -, r, hr, hheight, -⟩ := hx.launch b hbot l hlaunch
      exact ⟨_, mem_update.mpr (.inr ⟨r, hr, hheight, rfl⟩), hheight, rfl⟩
  -- an orderly stop has no launch in hand
  | stop =>
    refine hbegun.imp id fun ⟨b, hb, l, hl, _⟩ => ?_
    rw [hok b hb] at hl
    cases hl

/-- What is launched was not started before, and now is. -/
theorem BoxStep.begins {pid : ℕ} (h : BoxStep python x (.launch height pid) x') (hx : Sound x) :
    ¬ Begun x height ∧ Begun x' height := by
  cases h with
  | @launch b r pid rung lo hi rungs hbot hlooping hproc hlaunch hinflight hnext =>
    obtain ⟨hr, hstarted, -⟩ := regenNext_mem hnext
    refine ⟨?_, .inr ⟨_, rfl, _, rfl, rfl⟩⟩
    rintro (⟨r', hr', hheight, h⟩ | ⟨b', hb', l, hl, -⟩)
    · obtain rfl := hx.unique hr' hr hheight
      rw [hstarted] at h
      cases h
    · obtain rfl : b = b' := Option.some.inj (hbot.symm.trans hb')
      exact absurd (hlaunch.symm.trans hl) (by simp)

/-- The step launches the replay of the height. -/
def launches (height : ℕ) (t : Box × BoxAct × Box) : Bool :=
  match t.2.1 with
  | .launch h _ => h = height
  | _ => false

/-- It is a launch of that height. -/
theorem launches_iff {t : Box × BoxAct × Box} :
    launches height t = true ↔ ∃ pid, t.2.1 = .launch height pid := by
  obtain ⟨x, a, x'⟩ := t
  cases a with
  | launch h pid =>
    refine ⟨fun heq => ⟨pid, ?_⟩, fun ⟨pid', heq⟩ => ?_⟩
    · rw [of_decide_eq_true heq]
    · injection heq with hh
      exact decide_eq_true hh
  | _ => exact ⟨Bool.noConfusion, fun ⟨_, h⟩ => by cases h⟩

/-! ## Runs -/

variable {trace : List (Box × BoxAct × Box)}

/-- An orderly run. -/
theorem Sound.of_run (h : BoxRun python Orderly trace x) : Sound x :=
  h.invariant (fun _ => sound_empty) fun _ _ _ hx hstep => hx.step hstep.1 hstep.2

/-- No height is launched twice. -/
theorem launched_once (h : BoxRun python Orderly trace x) (height : ℕ) :
    trace.countP (launches height) ≤ 1 ∧
      (trace.countP (launches height) = 1 → Begun x height) := by
  induction h with
  | nil => exact ⟨Nat.zero_le 1, fun h => absurd h Nat.zero_ne_one⟩
  | @snoc trace x x' a hrun hstep ih =>
    have hx := Sound.of_run hrun
    rw [List.countP_append, List.countP_singleton]
    by_cases hlaunch : launches height (x, a, x') = true
    · obtain ⟨pid, ha⟩ := launches_iff.mp hlaunch
      dsimp only at ha
      subst ha
      obtain ⟨hno, hbegun⟩ := hstep.1.begins hx
      have hzero : trace.countP (launches height) = 0 := by
        have hne : trace.countP (launches height) ≠ 1 := fun h => hno (ih.2 h)
        omega
      rw [if_pos hlaunch, hzero]
      exact ⟨le_refl 1, fun _ => hbegun⟩
    · rw [if_neg hlaunch]
      exact ⟨ih.1, fun h => (ih.2 h).step hx hstep.1 hstep.2⟩

/-- A row that a reap marks was left by a bot that stopped. -/
theorem BoxStep.reaped (h : BoxStep python x .reap x') (hx : Sound x) (hr : r ∈ x.queue)
    (hr' : r' ∈ x'.queue) (hheight : r'.height = r.height) (hne : r' ≠ r) :
    r.inFlight = true := by
  cases h with
  | @reap b now hbot =>
    obtain ⟨r₀, hr₀, rfl⟩ := List.mem_map.mp hr'
    have hrow : r₀ = r := by
      refine hx.unique hr₀ hr ?_
      split at hheight
      · exact hheight
      · exact hheight
    subst hrow
    split at hne
    · rename_i hleft
      rw [RegenRow.left, decide_eq_true_iff] at hleft
      exact hleft.1
    · exact absurd rfl hne

/-- **Where every replay goes on record when it is launched, and no bot starts over one that is alive,
    replays run one at a time**: no two are alive, a reap marks no row whose replay is, what is in
    flight under a bot is finished by its next look once its process is dead, and no height is
    started twice. -/
theorem one_replay (h : BoxRun python Orderly trace x) :
    (∀ p ∈ x.procs, ∀ p' ∈ x.procs, p.replay.isSome = true → p'.replay.isSome = true → p = p') ∧
      (∀ t ∈ trace, t.2.1 = .reap → ∀ r ∈ t.1.queue, ∀ r' ∈ t.2.2.queue, r'.height = r.height →
        r' ≠ r → ∀ p ∈ t.1.procs, p.replay ≠ some r.height) ∧
      (∀ b ∈ x.bot, b.trial = true ∨ b.reaped = true → ∀ r ∈ x.queue, r.inFlight = true →
        ∃ pid, b.proc = some (pid, r.height) ∧ ((∀ p ∈ x.procs, p.pid ≠ pid) →
          ∀ rc detail now, BoxStep python x (.finish true true) { x with
            queue := regenFinish x.queue r.height rc detail now
            bot := some { b with proc := none } })) ∧
      ∀ height, trace.countP (launches height) ≤ 1 := by
  have hx := Sound.of_run h
  refine ⟨hx.solo, fun ⟨v, a, v'⟩ ht ha r hr r' hr' hheight hne => ?_,
    fun b hb hready r hr hflight => ?_, fun height => (launched_once h height).1⟩
  · obtain ⟨hv, hstep, hok⟩ := h.forall_steps (p := Sound) (fun _ => sound_empty)
      (fun _ _ _ hv hstep => hv.step hstep.1 hstep.2) _ ht
    dsimp only at ha
    subst ha
    exact (hok r hr (hstep.reaped hv hr hr' hheight hne)).1
  · obtain ⟨pid, hproc⟩ := hx.owned b hb hready r hr hflight
    exact ⟨pid, hproc, fun hdead rc detail now => .finish rc detail now true true hb hproc hdead⟩

/-! ## A bot that is killed during a replay -/

/-- Block 600000 is replayed from the rung at 575000, with the pid 20. -/
def replayedRow : RegenRow where
  height := 600000
  sponsorshipId := some 1
  queuedAt := 0
  startedAt := some 0
  pid := some 20
  rung := some 575000

/-- The process of a replay. -/
def replayOf (pid height : ℕ) : Proc := ⟨pid, "python3", some height⟩

/-- A bot that has started the replay. -/
def replayingBox : Box where
  queue := [replayedRow]
  procs := [replayOf 20 600000]
  bot := some { pid := 10, trial := false, reaped := true, looping := true, proc := some (20, 600000) }

/-- A bot queues block 600000 and starts its replay. -/
theorem replaying_run : ∃ trace, BoxRun "python3" Orderly trace replayingBox := by
  have hstart : BoxRun "python3" Orderly [] ⟨[], [], none⟩ :=
    .nil ⟨rfl, rfl, fun p hp => absurd hp List.not_mem_nil⟩
  have hboot := hstart.snoc ⟨show BoxStep "python3" _ (.boot 10 false) _ from .boot false rfl
    ⟨fun p hp => absurd hp List.not_mem_nil, fun b hb => by cases hb⟩, fun h => by cases h⟩
  have hqueued := hboot.snoc ⟨.enqueue [(some 1, 600000)] 0 rfl rfl rfl, trivial⟩
  have hreaped := hqueued.snoc ⟨.reap 0 rfl rfl rfl, fun r hr h => by
    rw [List.mem_singleton.mp hr] at h
    cases h⟩
  have hloop := hreaped.snoc ⟨.loop rfl (.inr rfl), trivial⟩
  have hlaunch := hloop.snoc ⟨show BoxStep "python3" _ (.launch 600000 20) _ from
    .launch (r := { height := 600000, sponsorshipId := some 1, queuedAt := 0 }) rfl rfl rfl rfl
      (by decide) (by decide) rfl
      (by decide : plan [600000] [575000] = some ⟨some 575000, 600000, 600000, []⟩)
      ⟨fun p hp => absurd hp List.not_mem_nil, by decide⟩, trivial⟩
  have hrecord := hlaunch.snoc ⟨.record 0 true true rfl rfl, rfl⟩
  exact ⟨_, hrecord.to (by decide)⟩

/-- A bot that starts over what the killed one left, and has queued block 600001. -/
def leftBox (procs : List Proc) : Box where
  queue := [replayedRow, { height := 600001, sponsorshipId := some 1, queuedAt := 1 }]
  procs := procs
  bot := some { pid := 11, trial := false }

/-- It has marked the replay that was left. -/
def markedBox (procs : List Proc) : Box where
  queue := [replayedRow.reaped 1, { height := 600001, sponsorshipId := some 1, queuedAt := 1 }]
  procs := procs
  bot := some { pid := 11, trial := false, reaped := true }

/-- It starts the replay of block 600001. -/
def restartedBox (procs : List Proc) : Box where
  queue := [replayedRow.reaped 1, { height := 600001, sponsorshipId := some 1, queuedAt := 1 }]
  procs := replayOf 21 600001 :: procs
  bot := some { pid := 11, trial := false, reaped := true, looping := true
                launch := some ⟨21, 600001, 575000⟩ }

/-- The script of a bot that is started again, from a box without one. -/
theorem restarted_run {ok : Box → BoxAct → Prop} {trace : List (Box × BoxAct × Box)}
    {procs : List Proc} (h : BoxRun "python3" ok trace ⟨[replayedRow], procs, none⟩)
    (hprocs : procs = [] ∨ procs = [replayOf 20 600000])
    (hok : ∀ x, ok x (.boot 11 false) ∧ ok x (.enqueue [(some 1, 600001)]) ∧ ok x .loop ∧
      ok x (.launch 600001 21)) (hreap : ok (leftBox procs) .reap) :
    ∃ trace', BoxRun "python3" ok trace' (restartedBox procs) ∧
      (leftBox procs, BoxAct.reap, markedBox procs) ∈ trace' := by
  have hfresh : ∀ pid, pid = 11 ∨ pid = 21 → ∀ p ∈ procs, p.pid ≠ pid := by
    rintro pid (rfl | rfl)
    · obtain rfl | rfl := hprocs <;> decide
    · obtain rfl | rfl := hprocs <;> decide
  have hidle : bridgeRunning 11 procs = [] := by obtain rfl | rfl := hprocs <;> decide
  have hboot := h.snoc ⟨show BoxStep "python3" _ (.boot 11 false) _ from .boot false rfl
    ⟨hfresh 11 (.inl rfl), fun b hb => by cases hb⟩, (hok _).1⟩
  have hqueued := (hboot.snoc ⟨.enqueue [(some 1, 600001)] 1 rfl rfl rfl, (hok _).2.1⟩).to
    (show _ = leftBox procs from rfl)
  have hstep : BoxStep "python3" (leftBox procs) .reap (markedBox procs) := by
    obtain rfl | rfl := hprocs
    · exact .reap (x := leftBox []) (b := { pid := 11, trial := false }) 1 rfl rfl rfl
    · exact .reap (x := leftBox [replayOf 20 600000]) (b := { pid := 11, trial := false }) 1 rfl rfl rfl
  have hmarked := hqueued.snoc ⟨hstep, hreap⟩
  have hloop := hmarked.snoc ⟨.loop rfl (.inr rfl), (hok _).2.2.1⟩
  let bot : Bot := { pid := 11, trial := false, reaped := true, looping := true }
  have hfree : ∀ b ∈ some bot, b.pid ≠ 21 ∧ ∀ l ∈ b.proc, l.1 ≠ 21 := by decide
  have hlaunch := hloop.snoc ⟨show BoxStep "python3" _ (.launch 600001 21) (restartedBox procs) from
    .launch (x := { markedBox procs with bot := some bot }) (b := bot)
      (r := { height := 600001, sponsorshipId := some 1, queuedAt := 1 }) rfl rfl rfl rfl rfl rfl hidle
      (by decide : plan [600001] [575000] = some ⟨some 575000, 600001, 600001, []⟩)
      ⟨hfresh 21 (.inr rfl), hfree⟩, (hok _).2.2.2⟩
  exact ⟨_, hlaunch, List.mem_append_left _ (List.mem_append_left _
    (List.mem_append_right _ (List.mem_singleton_self _)))⟩

/-- A bot is killed during a replay, which then dies. The next one marks it failed, and launches the
    replay of another block: one is alive, and each was launched once. -/
theorem one_replay_restarted : ∃ trace, BoxRun "python3" Orderly trace (restartedBox []) ∧
    (leftBox [], BoxAct.reap, markedBox []) ∈ trace ∧
    (∀ p ∈ (restartedBox []).procs, p.replay.isSome = true → p = replayOf 21 600001) ∧
    ∀ height, trace.countP (launches height) ≤ 1 := by
  obtain ⟨_, hrun⟩ := replaying_run
  have hstopped := hrun.snoc ⟨.stop rfl, fun b hb => by cases hb; rfl⟩
  have hdead := (hstopped.snoc ⟨.exit (p := replayOf 20 600000) (List.mem_singleton_self _),
    trivial⟩).to (by decide : _ = (⟨[replayedRow], [], none⟩ : Box))
  have hreap : Orderly (leftBox []) .reap := fun r _ _ =>
    ⟨fun p hp => absurd hp List.not_mem_nil, fun b hb pid _ => by
      cases hb
      exact List.not_mem_nil⟩
  obtain ⟨trace, hrestarted, hmarked⟩ := restarted_run hdead (.inl rfl)
    (fun x => ⟨fun h => absurd h (by decide), trivial, trivial, trivial⟩) hreap
  obtain ⟨hsolo, -, -, honce⟩ := one_replay hrestarted
  exact ⟨trace, hrestarted, hmarked,
    fun p hp hreplay => hsolo p hp _ List.mem_cons_self hreplay rfl, honce⟩

/-- The bot is killed while the replay runs, and started again for another block: it marks the replay
    failed, whose pid is that of `regen_bundles.py` and so of no bridge, and starts the next one
    beside it. -/
theorem two_replays : ∃ trace x, BoxRun "python3" (fun _ _ => True) trace x ∧
    replayOf 20 600000 ∈ x.procs ∧ replayOf 21 600001 ∈ x.procs ∧
    ∃ t ∈ trace, t.2.1 = .reap ∧ replayOf 20 600000 ∈ t.1.procs ∧ replayedRow ∈ t.1.queue ∧
      replayedRow.reaped 1 ∈ t.2.2.queue := by
  obtain ⟨_, hreplaying⟩ := replaying_run
  have hrun : BoxRun "python3" (fun _ _ => True) _ replayingBox :=
    hreplaying.mono fun _ _ _ h => ⟨h.1, trivial⟩
  have hkilled := hrun.snoc ⟨.stop rfl, trivial⟩
  obtain ⟨trace, hrestarted, hmarked⟩ := restarted_run hkilled (.inr rfl)
    (fun _ => ⟨trivial, trivial, trivial, trivial⟩) trivial
  exact ⟨trace, _, hrestarted, List.mem_cons_of_mem _ (List.mem_singleton_self _),
    List.mem_cons_self, _, hmarked, rfl, List.mem_singleton_self _, List.mem_cons_self,
    List.mem_cons_self⟩

end SponsorBot
end Hazync
