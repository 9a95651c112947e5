import Hazync.Tip.RunBlock

/-!
# One prove a card

A chunk is moved to a card that has finished its own chunk and has been given no other. The plan of a
tick is made from one look at the cards that have been given one, so it may send two wedged chunks to
the same card. And a reply is looked up by its card, so a chunk whose receipt waits on a card may be
judged by what the other chunk of the card does. Where neither happens no card gets two chunks, and no
prove is stopped that is still needed.

## Two kinds of mistake

A card proves one chunk at a time. If a second prove is started on it both are slowed down or fail,
and to start one the provers that are running are stopped first. So before a chunk is sent to a card
the card must be free: its own chunk has finished, and nothing else was sent to it. The tick looks
at both, and it looks once, at the start. The plan may name a card twice, since nothing in it is
marked while it is made. That is the first mistake, and needs two chunks that are wedged in the same
tick.

The second is about chunks that share a card already. A chunk that was moved is on a card whose own
chunk has its receipt waiting. The tick asks for both chunks, and keeps one reply for the card. If
the one that finished is judged by the reply of the other it may be taken for wedged, and is then
restarted, which stops the prove of the other. `TickClear` excludes both, as conditions on what a
tick sees.

## What is left of a plan

Between two actions the plan is partly carried out, and the assignments are not those it was made
from. So the invariant has a part for the actions that are left (`TodoSound`): they are about
different chunks; a card that one of them sends a chunk to has been given none; and a chunk that is
to be launched again is alone on its card with what it has to do. The rest of it is on the
assignments: of two chunks on one card, one has its receipt (`Sound.shared`). From that, no prove
which is needed is stopped.
-/

namespace Hazync
namespace Tip

variable {Card : Type} [DecidableEq Card] {cfg : Settings} {home : Assignments Card} {t0 now : Time}
  {s s' : Polling Card} {e : Event Card} {replies : List (ℕ × Option String)}
  {trace : List (Polling Card × Event Card × Polling Card)} {c c' : ℕ} {card : Card} {a : Action Card}

/-! ## What recovery has to keep -/

/-- The chunk's receipt is collected, or was seen in its directory. -/
def Polling.hasReceipt (s : Polling Card) (c : ℕ) : Prop := c ∈ s.run.staged ∨ c ∈ s.reported

/-- The chunk that the card was launched with has finished, and its reply shows no prove and the memory
    released. -/
def Free (cfg : Settings) (home : Assignments Card) (s s' : Polling Card)
    (replies : List (ℕ × Option String)) (card : Card) : Prop :=
  (∃ o ∈ home.chunks, home.card o = card ∧ o ∈ s'.reported) ∧
    canAcceptReassignment cfg (probeAll s.run.cards replies card)

/-- The action sends a chunk to the card. -/
def Action.sends (card : Card) : Action Card → Bool
  | .reassign _ target => target = card
  | _ => false

/-- So does the step. -/
def Event.sends (card : Card) : Event Card → Bool
  | .act a _ => a.sends card
  | .tick _ _ => false

/-- Recovery never puts two proves on one card. -/
structure Recovers (cfg : Settings) (home : Assignments Card)
    (trace : List (Polling Card × Event Card × Polling Card)) : Prop where
  /-- A chunk is moved only to a card that is free. -/
  free : ∀ s replies now s', (s, .tick replies now, s') ∈ trace → ∀ c card,
    .reassign c card ∈ s'.todo → Free cfg home s s' replies card
  /-- Over the run, no card is given two chunks. -/
  once : ∀ card, trace.countP (fun t => t.2.1.sends card) ≤ 1
  /-- In one tick, no card is given two chunks. -/
  apart : ∀ s replies now s', (s, .tick replies now, s') ∈ trace → ∀ card,
    s'.todo.countP (Action.sends card) ≤ 1
  /-- The proves that are stopped on the card of a wedged chunk are of chunks with receipts. -/
  spares : ∀ s a ok s', (s, .act a ok, s') ∈ trace → ∀ c ∈ a.relaunched, ∀ c' ∈ home.chunks,
    c' ≠ c → s.run.cards.card c' = s.run.cards.card c → s.hasReceipt c'
  /-- A wedged chunk is restarted where it is when no card is free that has been given no chunk. -/
  restarts : ∀ s replies now s', (s, .tick replies now, s') ∈ trace → ∀ c ∈ home.chunks,
    (s.run.input replies now).wedged cfg c →
    (∀ card, card ∉ s.run.busy → ¬ Free cfg home s s' replies card) →
    .restartInPlace c (s.run.cards.card c) ∈ s'.todo

/-! ## The ticks that keep it -/

/-- A tick that judges two chunks wedged has no card to move a chunk to. And it judges a chunk whose
    receipt has been seen wedged only if the card has no other chunk that is not collected. -/
structure TickClear (cfg : Settings) (s : Polling Card) (replies : List (ℕ × Option String))
    (now : Time) : Prop where
  alone : ∀ c ∈ s.run.cards.chunks, ∀ c' ∈ s.run.cards.chunks, c ≠ c' →
    (s.run.input replies now).wedged cfg c → (s.run.input replies now).wedged cfg c' →
    ∀ card ∈ s.run.cards.cards, (s.run.input replies now).accepts cfg card = false
  own : ∀ c ∈ s.run.cards.chunks, (s.run.input replies now).wedged cfg c →
    c ∈ s.reported ∪ doneReplies cfg replies → ∀ c' ∈ s.run.cards.chunks, c' ≠ c →
    s.run.cards.card c' = s.run.cards.card c → c' ∈ s.run.staged

instance : Decidable (TickClear cfg s replies now) :=
  decidable_of_iff (_ ∧ _) ⟨fun h => ⟨h.1, h.2⟩, fun h => ⟨h.alone, h.own⟩⟩

/-- What is asked of a step, in the state before it. -/
def Clear (cfg : Settings) (s : Polling Card) : Event Card → Prop
  | .tick replies now => TickClear cfg s replies now
  | .act _ _ => True

instance : Decidable (Clear cfg s e) :=
  match e with
  | .tick replies now => inferInstanceAs (Decidable (TickClear cfg s replies now))
  | .act _ _ => inferInstanceAs (Decidable True)

/-! ## The invariant -/

/-- What is left of a plan, in the state in which it is acted on. -/
structure TodoSound (home : Assignments Card) (s : Polling Card) : Prop where
  nodup : (s.todo.map Action.chunk).Nodup
  mem : ∀ a ∈ s.todo, a.chunk ∈ home.chunks
  stages : ∀ c card, .stage c card ∈ s.todo → s.run.cards.card c ∉ s.run.busy → c ∈ s.reported
  /-- A chunk that is launched again is alone on its card with what it has to do. -/
  stops : ∀ a ∈ s.todo, ∀ c ∈ a.relaunched, c ∉ s.run.staged ∧ ∀ c' ∈ home.chunks, c' ≠ c →
    s.run.cards.card c' = s.run.cards.card c →
      s.hasReceipt c' ∧ ∀ b ∈ s.todo, c' ∉ b.relaunched
  /-- A card that is sent a chunk has been given none, and no other chunk is launched again. -/
  sends : ∀ c card, .reassign c card ∈ s.todo → card ∉ s.run.busy ∧
    (∀ o ∈ home.chunks, s.run.cards.card o = card → s.hasReceipt o) ∧
      ∀ b ∈ s.todo, ∀ c' ∈ b.relaunched, c' = c

/-- Of two chunks on one card, one has its receipt. -/
structure Sound (home : Assignments Card) (s : Polling Card) : Prop where
  /-- Chunks are neither lost nor made. -/
  chunks : s.run.cards.chunks = home.chunks
  /-- A chunk that was moved is on a card that moves have taken. -/
  away : ∀ c ∈ home.chunks, s.run.cards.card c = home.card c ∨ s.run.cards.card c ∈ s.run.busy
  /-- What was collected from a card that no move has taken had been reported. -/
  collected : ∀ c ∈ home.chunks, c ∈ s.run.staged → s.run.cards.card c ∉ s.run.busy → c ∈ s.reported
  /-- So a card that proves a chunk has the receipt of the other already. -/
  shared : ∀ c ∈ home.chunks, ∀ c' ∈ home.chunks, c ≠ c' →
    s.run.cards.card c = s.run.cards.card c' → s.hasReceipt c ∨ s.hasReceipt c'
  /-- What is still to be done of a pass keeps all this. -/
  todo : TodoSound home s

/-! ## Acting on a plan -/

omit [DecidableEq Card] in
/-- An action launches its own chunk again, and no other. -/
theorem eq_chunk_of_mem_relaunched (h : c ∈ a.relaunched) : c = a.chunk := by
  cases a with
  | stage => exact absurd h (Finset.notMem_empty c)
  | _ => exact Finset.mem_singleton.mp h

omit [DecidableEq Card] in
/-- Receipts that were seen or collected stay so. -/
theorem hasReceipt_mono (h : s.hasReceipt c) (hstaged : s.run.staged ⊆ s'.run.staged)
    (hreported : c ∈ s.reported → c ∈ s'.reported) : s'.hasReceipt c :=
  h.imp (fun h => hstaged h) hreported

omit [DecidableEq Card] in
/-- What is left of a plan is about other chunks than its head. -/
theorem TodoSound.rest_ne {rest : List (Action Card)} (h : TodoSound home s) (htodo : s.todo = a :: rest) :
    ∀ b ∈ rest, b.chunk ≠ a.chunk := by
  intro b hb heq
  have hnodup := h.nodup
  rw [htodo, List.map_cons, List.nodup_cons] at hnodup
  exact hnodup.1 (heq ▸ List.mem_map_of_mem hb)

/-- A chunk is collected, or is not. -/
theorem Sound.stage {rest : List (Action Card)} (h : Sound home s) (ok : Bool)
    (htodo : s.todo = .stage c card :: rest) :
    Sound home { run := s.run.perform ok (.stage c card), todo := rest, reported := s.reported } := by
  obtain ⟨hchunks, haway, hcollected, hshared, ht⟩ := h
  have hne := ht.rest_ne htodo
  have hrest : ∀ b ∈ rest, b ∈ s.todo := fun b hb => htodo ▸ List.mem_cons_of_mem _ hb
  have hhead : Action.stage c card ∈ s.todo := htodo ▸ List.mem_cons_self
  have hcards : (s.run.perform ok (.stage c card)).cards = s.run.cards := by cases ok <;> rfl
  have hbusy : (s.run.perform ok (.stage c card)).busy = s.run.busy := by cases ok <;> rfl
  have hgrown : s.run.staged ⊆ (s.run.perform ok (.stage c card)).staged := by
    cases ok with
    | false => exact Finset.Subset.refl _
    | true => exact Finset.subset_insert c _
  have hnew : ∀ x ∈ (s.run.perform ok (.stage c card)).staged, x = c ∨ x ∈ s.run.staged := by
    cases ok with
    | false => exact fun x hx => .inr hx
    | true => exact fun x hx => Finset.mem_insert.mp hx
  have hmono : ∀ x, s.hasReceipt x → Polling.hasReceipt
      { run := s.run.perform ok (.stage c card), todo := rest, reported := s.reported } x :=
    fun x hx => hasReceipt_mono hx hgrown id
  generalize s.run.perform ok (.stage c card) = run at *
  obtain ⟨cards, staged, busy, _, _, _⟩ := run
  obtain rfl : cards = s.run.cards := hcards
  obtain rfl : busy = s.run.busy := hbusy
  refine ⟨hchunks, haway, ?_, ?_, ?_, ?_, ?_, ?_, ?_⟩
  · intro x hx hstaged hxbusy
    obtain rfl | hstaged := hnew x hstaged
    · exact ht.stages x card hhead hxbusy
    · exact hcollected x hx hstaged hxbusy
  · exact fun x hx y hy hxy hcard => (hshared x hx y hy hxy hcard).imp (hmono x) (hmono y)
  · exact (htodo ▸ ht.nodup).of_cons
  · exact fun b hb => ht.mem b (hrest b hb)
  · exact fun x k hx => ht.stages x k (hrest _ hx)
  · intro b hb x hx
    obtain ⟨hstaged, hother⟩ := ht.stops b (hrest b hb) x hx
    refine ⟨fun hmem => ?_, fun y hy hyx hcard => ?_⟩
    · obtain rfl | hmem := hnew x hmem
      · exact hne b hb (eq_chunk_of_mem_relaunched hx).symm
      · exact hstaged hmem
    · obtain ⟨hy, hnone⟩ := hother y hy hyx hcard
      exact ⟨hmono y hy, fun b hb => hnone b (hrest b hb)⟩
  · intro x k hx
    obtain ⟨hbusy, hon, honly⟩ := ht.sends x k (hrest _ hx)
    exact ⟨hbusy, fun o ho hcard => hmono o (hon o ho hcard), fun b hb => honly b (hrest b hb)⟩

omit [DecidableEq Card] in
/-- A chunk that is launched again has no receipt there; the others keep theirs. -/
theorem hasReceipt_erase {run : RunState Card} {todo : List (Action Card)} (h : s.hasReceipt c')
    (hstaged : run.staged = s.run.staged) (hne : c' ≠ c) :
    Polling.hasReceipt { run, todo, reported := s.reported \ {c} } c' :=
  hasReceipt_mono h (hstaged ▸ Finset.Subset.refl _)
    fun h => Finset.mem_sdiff.mpr ⟨h, fun hc => hne (Finset.mem_singleton.mp hc)⟩

/-- A chunk is restarted where it is. -/
theorem Sound.restart {rest : List (Action Card)} (h : Sound home s) (ok : Bool)
    (htodo : s.todo = .restartInPlace c card :: rest) :
    Sound home
      { run := s.run.perform ok (.restartInPlace c card), todo := rest, reported := s.reported \ {c} } := by
  obtain ⟨hchunks, haway, hcollected, hshared, ht⟩ := h
  have hne := ht.rest_ne htodo
  have hrest : ∀ b ∈ rest, b ∈ s.todo := fun b hb => htodo ▸ List.mem_cons_of_mem _ hb
  have hhead : Action.restartInPlace c card ∈ s.todo := htodo ▸ List.mem_cons_self
  have hc : c ∈ (Action.restartInPlace c card : Action Card).relaunched := Finset.mem_singleton_self c
  obtain ⟨hunstaged, hothers⟩ := ht.stops _ hhead c hc
  have hkept : ∀ x, x ≠ c → s.hasReceipt x → Polling.hasReceipt
      { run := s.run.perform ok (.restartInPlace c card), todo := rest, reported := s.reported \ {c} } x :=
    fun x hx hreceipt => hasReceipt_erase hreceipt rfl hx
  refine ⟨hchunks, haway, ?_, ?_, ?_, ?_, ?_, ?_, ?_⟩
  · intro x hx hstaged hbusy
    refine Finset.mem_sdiff.mpr ⟨hcollected x hx hstaged hbusy, fun hxc => ?_⟩
    exact hunstaged (Finset.mem_singleton.mp hxc ▸ hstaged)
  · -- the other chunk of the card that is restarted on has its receipt
    intro x hx y hy hxy hcard
    by_cases hxc : x = c
    · subst hxc
      exact .inr (hkept y (Ne.symm hxy) (hothers y hy (Ne.symm hxy) hcard.symm).1)
    by_cases hyc : y = c
    · subst hyc
      exact .inl (hkept x hxy (hothers x hx hxy hcard).1)
    exact (hshared x hx y hy hxy hcard).imp (hkept x hxc) (hkept y hyc)
  · exact (htodo ▸ ht.nodup).of_cons
  · exact fun b hb => ht.mem b (hrest b hb)
  · intro x k hx hbusy
    refine Finset.mem_sdiff.mpr ⟨ht.stages x k (hrest _ hx) hbusy, fun hxc => ?_⟩
    exact hne _ hx (Finset.mem_singleton.mp hxc)
  · intro b hb x hx
    obtain ⟨hstaged, hother⟩ := ht.stops b (hrest b hb) x hx
    refine ⟨hstaged, fun y hy hyx hcard => ?_⟩
    obtain ⟨hreceipt, hnone⟩ := hother y hy hyx hcard
    have hyc : y ≠ c := fun hyc => hnone _ hhead (hyc ▸ hc)
    exact ⟨hkept y hyc hreceipt, fun b hb => hnone b (hrest b hb)⟩
  · intro x k hx
    obtain ⟨-, -, honly⟩ := ht.sends x k (hrest _ hx)
    exact absurd (honly _ hhead c hc).symm (hne _ hx)

/-- A chunk is moved to another card. -/
theorem Sound.reassign {rest : List (Action Card)} (h : Sound home s) (ok : Bool)
    (htodo : s.todo = .reassign c card :: rest) :
    Sound home
      { run := s.run.perform ok (.reassign c card), todo := rest, reported := s.reported \ {c} } := by
  obtain ⟨hchunks, haway, hcollected, hshared, ht⟩ := h
  have hne := ht.rest_ne htodo
  have hrest : ∀ b ∈ rest, b ∈ s.todo := fun b hb => htodo ▸ List.mem_cons_of_mem _ hb
  have hhead : Action.reassign c card ∈ s.todo := htodo ▸ List.mem_cons_self
  have hc : c ∈ (Action.reassign c card : Action Card).relaunched := Finset.mem_singleton_self c
  obtain ⟨hunstaged, hothers⟩ := ht.stops _ hhead c hc
  obtain ⟨-, hon, honly⟩ := ht.sends c card hhead
  have hkept : ∀ x, x ≠ c → s.hasReceipt x → Polling.hasReceipt
      { run := s.run.perform ok (.reassign c card), todo := rest, reported := s.reported \ {c} } x :=
    fun x hx hreceipt => hasReceipt_erase hreceipt rfl hx
  have hmoved : (s.run.cards.assign c card).card c = card := Function.update_self ..
  have hstay : ∀ x, x ≠ c → (s.run.cards.assign c card).card x = s.run.cards.card x :=
    fun x hx => Function.update_of_ne hx ..
  -- nothing that is left launches a chunk again
  have hquiet : ∀ b ∈ rest, ∀ x, x ∉ b.relaunched := fun b hb x hx =>
    hne b hb ((eq_chunk_of_mem_relaunched hx).symm.trans (honly b (hrest b hb) x hx))
  refine ⟨hchunks, ?_, ?_, ?_, ?_, ?_, ?_, ?_, ?_⟩
  · intro x hx
    by_cases hxc : x = c
    · subst hxc
      exact .inr (Finset.mem_insert.mpr (.inl hmoved))
    · refine (haway x hx).imp (fun h => (hstay x hxc).trans h) fun h => ?_
      exact Finset.mem_insert_of_mem ((hstay x hxc).symm ▸ h)
  · intro x hx hstaged hbusy
    have hxc : x ≠ c := fun hxc => hunstaged (hxc ▸ hstaged)
    have hxbusy : s.run.cards.card x ∉ s.run.busy :=
      fun h => hbusy (Finset.mem_insert_of_mem ((hstay x hxc).symm ▸ h))
    refine Finset.mem_sdiff.mpr ⟨hcollected x hx hstaged hxbusy, fun h => ?_⟩
    exact hxc (Finset.mem_singleton.mp h)
  · -- what the target has is finished
    intro x hx y hy hxy hcard
    by_cases hxc : x = c
    · subst hxc
      have hy' : s.run.cards.card y = card := (hstay y (Ne.symm hxy)).symm.trans (hcard.symm.trans hmoved)
      exact .inr (hkept y (Ne.symm hxy) (hon y hy hy'))
    by_cases hyc : y = c
    · subst hyc
      have hx' : s.run.cards.card x = card := (hstay x hxy).symm.trans (hcard.trans hmoved)
      exact .inl (hkept x hxy (hon x hx hx'))
    have hcard' : s.run.cards.card x = s.run.cards.card y :=
      (hstay x hxc).symm.trans (hcard.trans (hstay y hyc))
    exact (hshared x hx y hy hxy hcard').imp (hkept x hxc) (hkept y hyc)
  · exact (htodo ▸ ht.nodup).of_cons
  · exact fun b hb => ht.mem b (hrest b hb)
  · intro x k hx hbusy
    have hxc : x ≠ c := hne _ hx
    have hxbusy : s.run.cards.card x ∉ s.run.busy :=
      fun h => hbusy (Finset.mem_insert_of_mem ((hstay x hxc).symm ▸ h))
    refine Finset.mem_sdiff.mpr ⟨ht.stages x k (hrest _ hx) hxbusy, fun h => ?_⟩
    exact hxc (Finset.mem_singleton.mp h)
  · exact fun b hb x hx => absurd hx (hquiet b hb x)
  · exact fun x k hx => absurd (Finset.mem_singleton_self x) (hquiet _ hx x)

/-- **Acting on a plan keeps the invariant.** -/
theorem Sound.act {rest : List (Action Card)} (h : Sound home s) (ok : Bool) (htodo : s.todo = a :: rest) :
    Sound home { run := s.run.perform ok a, todo := rest, reported := s.reported \ a.relaunched } := by
  cases a with
  | stage c card =>
    have hsound := h.stage ok htodo
    rwa [← Finset.sdiff_empty (s := s.reported)] at hsound
  | reassign c card => exact h.reassign ok htodo
  | restartInPlace c card => exact h.restart ok htodo

/-! ## A tick -/

/-- What a card is looked up to have said, the directory of some chunk of the card said. -/
theorem probeAll_cases (cards : Assignments Card) (replies : List (ℕ × Option String)) (card : Card) :
    probeAll cards replies card = none ∨
      ∃ r ∈ replies, cards.card r.1 = card ∧ probeAll cards replies card = r.2 := by
  unfold probeAll
  induction replies using List.reverseRecOn with
  | nil => exact .inl rfl
  | append_singleton replies r ih =>
    rw [List.foldl_append]
    by_cases hr : cards.card r.1 = card
    · exact .inr ⟨r, by simp, hr, by simp [← hr]⟩
    · rw [List.foldl_cons, List.foldl_nil, Function.update_of_ne (Ne.symm hr)]
      exact ih.imp id fun ⟨q, hq, hcard, heq⟩ => ⟨q, List.mem_append_left _ hq, hcard, heq⟩

omit [DecidableEq Card] in
/-- A card that has been given no chunk has its own and no other. -/
theorem Sound.eq_of_card (h : Sound home s) (hhome : home.cards.Nodup) (hc : c ∈ home.chunks)
    (hc' : c' ∈ home.chunks) (hcard : s.run.cards.card c' = s.run.cards.card c)
    (hbusy : s.run.cards.card c ∉ s.run.busy) : c' = c := by
  have hown : s.run.cards.card c = home.card c := (h.away c hc).resolve_right hbusy
  have hown' : s.run.cards.card c' = home.card c' := (h.away c' hc').resolve_right (hcard ▸ hbusy)
  exact List.inj_on_of_nodup_map hhome hc' hc (hown'.symm.trans (hcard.trans hown))

/-- What is said of a card that has been given no chunk is said of its own. -/
theorem Sound.reported_of_done (h : Sound home s) (hhome : home.cards.Nodup)
    (hreplies : (replies.map Prod.fst).Perm s.run.cards.chunks) (hc : c ∈ home.chunks)
    (hbusy : s.run.cards.card c ∉ s.run.busy)
    (hdone : (s.run.input replies now).state cfg c = .done) : c ∈ doneReplies cfg replies := by
  have hstate : cardState cfg (probeAll s.run.cards replies (s.run.cards.card c)) = .done := hdone
  obtain hnone | ⟨r, hr, hcard, heq⟩ := probeAll_cases s.run.cards replies (s.run.cards.card c)
  · rw [hnone] at hstate
    exact absurd hstate (by simp [cardState])
  · have hmem : r.1 ∈ home.chunks := h.chunks ▸ hreplies.subset (List.mem_map_of_mem hr)
    obtain rfl := h.eq_of_card hhome hc hmem hcard hbusy
    rw [heq] at hstate
    unfold doneReplies
    exact List.mem_toFinset.mpr (List.mem_map_of_mem (List.mem_filter.mpr ⟨hr, by simpa using hstate⟩))

/-- A chunk whose card is taken to have finished it, and has been given no other, was seen to have its
    receipt. -/
theorem Sound.reported_of_finished (h : Sound home s) (hhome : home.cards.Nodup)
    (hreplies : (replies.map Prod.fst).Perm s.run.cards.chunks)
    (hcard : card ∈ (s.run.input replies now).finishedCards cfg) (hbusy : card ∉ s.run.busy) :
    ∃ o ∈ home.chunks, s.run.cards.card o = card ∧ o ∈ s.reported ∪ doneReplies cfg replies := by
  obtain ⟨o, ho, rfl⟩ := Finset.mem_image.mp hcard
  obtain ⟨hmem, hfin⟩ := List.mem_filter.mp (List.mem_toFinset.mp ho)
  have hmem' : o ∈ home.chunks := h.chunks ▸ hmem
  refine ⟨o, hmem', rfl, Finset.mem_union.mpr ?_⟩
  obtain hstaged | hdone := Finset.mem_union.mp (of_decide_eq_true hfin)
  · exact .inl (h.collected o hmem' hstaged hbusy)
  · have hstate := (List.mem_filter.mp (List.mem_toFinset.mp hdone)).2
    exact .inr (h.reported_of_done hhome hreplies hmem' hbusy (of_decide_eq_true hstate))

/-- Only a chunk that is judged wedged is launched again. -/
theorem wedged_of_relaunched {t : TickInput Card} (h : t.decided cfg c' = some a)
    (hc : c ∈ a.relaunched) : c' = c ∧ t.wedged cfg c := by
  have hcc : c' = c := (decided_chunk h).symm.trans (eq_chunk_of_mem_relaunched hc).symm
  subst hcc
  obtain ⟨rfl, -, -⟩ | ⟨-, hwedged⟩ := decided_cases h
  · exact absurd hc (Finset.notMem_empty _)
  · exact ⟨rfl, hwedged⟩

/-- The actions of a plan are what is decided. -/
theorem mem_actions {plan : Plan Card} {t : TickInput Card} (h : planTick cfg t = some plan) :
    a ∈ plan.actions ↔ ∃ c ∈ t.assignments.chunks, t.decided cfg c = some a := by
  rw [planTick_actions h, List.mem_filterMap]

/-- No chunk has two actions. -/
theorem nodup_actions {plan : Plan Card} {t : TickInput Card} (h : planTick cfg t = some plan) :
    (plan.actions.map Action.chunk).Nodup := by
  rw [planTick_actions h, List.map_filterMap]
  refine t.assignments.nodup.filterMap fun c c' x hx hx' => ?_
  obtain ⟨a, ha, rfl⟩ := Option.map_eq_some_iff.mp hx
  obtain ⟨b, hb, heq⟩ := Option.map_eq_some_iff.mp hx'
  exact (decided_chunk ha).symm.trans (heq.symm.trans (decided_chunk hb))

/-- A card that a plan moves a chunk to accepts it. -/
theorem accepts_of_reassign {t : TickInput Card} (h : t.decided cfg c' = some (.reassign c card)) :
    t.accepts cfg card := by
  obtain ⟨heq, -, -⟩ | ⟨heq, -⟩ := decided_cases h
  · exact absurd heq (by simp)
  · obtain ⟨k, hk, hmem, -, hbusy, hfin, haccept⟩ | ⟨hk, -⟩ := planRecovery_cases heq.symm
    · obtain ⟨rfl, rfl⟩ := Action.reassign.inj hk
      exact decide_eq_true ⟨hmem, hbusy, hfin, haccept⟩
    · exact absurd hk (by simp)

/-- **A plan that is made where nothing is left to do is sound.** -/
theorem Sound.tick {plan : Plan Card} (h : Sound home s) (hhome : home.cards.Nodup)
    (hreplies : (replies.map Prod.fst).Perm s.run.cards.chunks)
    (hplan : planTick cfg (s.run.input replies now) = some plan)
    (hclear : TickClear cfg s replies now) :
    Sound home
      { run := { s.run with lastSize := plan.lastSize, lastChange := plan.lastChange }
        todo := plan.actions
        reported := s.reported ∪ doneReplies cfg replies } := by
  have hchunks : ∀ c, c ∈ (s.run.input replies now).assignments.chunks ↔ c ∈ home.chunks :=
    fun c => h.chunks ▸ Iff.rfl
  -- only a wedged chunk is relaunched
  have hstop : ∀ a ∈ plan.actions, ∀ c ∈ a.relaunched,
      c ∈ home.chunks ∧ (s.run.input replies now).wedged cfg c := by
    intro a ha c hc
    obtain ⟨x, hx, hdecided⟩ := (mem_actions hplan).mp ha
    obtain ⟨rfl, hwedged⟩ := wedged_of_relaunched hdecided hc
    exact ⟨(hchunks x).mp hx, hwedged⟩
  refine ⟨h.chunks, h.away, ?_, ?_, nodup_actions hplan, ?_, ?_, ?_, ?_⟩
  · exact fun c hc hstaged hbusy => Finset.mem_union_left _ (h.collected c hc hstaged hbusy)
  · exact fun c hc c' hc' hne hcard => (h.shared c hc c' hc' hne hcard).imp
      (Or.imp id (Finset.mem_union_left _)) (Or.imp id (Finset.mem_union_left _))
  · intro a ha
    obtain ⟨x, hx, hdecided⟩ := (mem_actions hplan).mp ha
    exact decided_chunk hdecided ▸ (hchunks x).mp hx
  · intro c k hc hbusy
    obtain ⟨x, hx, hdecided⟩ := (mem_actions hplan).mp hc
    obtain rfl : c = x := decided_chunk hdecided
    obtain ⟨-, hdone, -⟩ | ⟨heq, hwedged⟩ := decided_cases hdecided
    · exact Finset.mem_union_right _ (h.reported_of_done hhome hreplies ((hchunks c).mp hx) hbusy hdone)
    · obtain ⟨k', hk, -⟩ | ⟨hk, -⟩ := planRecovery_cases heq.symm
      all_goals exact absurd hk (by simp)
  · -- of two chunks on a card one has its receipt, and is then wedged only if the other is collected
    intro a ha c hc
    obtain ⟨hmem, hwedged⟩ := hstop a ha c hc
    have hstaged : c ∉ s.run.staged := (wedged_state hwedged).1
    refine ⟨hstaged, fun c' hc' hne hcard => ?_⟩
    have hown := hclear.own c ((hchunks c).mpr hmem) hwedged
    obtain hr | hr := h.shared c hmem c' hc' (Ne.symm hne) hcard.symm
    · have hrep : c ∈ s.reported := hr.resolve_left hstaged
      have hcol := hown (Finset.mem_union_left _ hrep) c' ((hchunks c').mpr hc') hne hcard
      exact ⟨.inl hcol, fun b hb hb' => (wedged_state (hstop b hb c' hb').2).1 hcol⟩
    · refine ⟨hr.imp id (Finset.mem_union_left _), fun b hb hb' => ?_⟩
      obtain ⟨-, hwedged'⟩ := hstop b hb c' hb'
      have hrep : c' ∈ s.reported := hr.resolve_left (wedged_state hwedged').1
      exact hstaged (hclear.own c' ((hchunks c').mpr hc') hwedged' (Finset.mem_union_left _ hrep) c
        ((hchunks c).mpr hmem) (Ne.symm hne) hcard.symm)
  -- a chunk is given only to a card whose own chunk has reported and is not relaunched
  · intro c card hc
    obtain ⟨x, hx, hdecided⟩ := (mem_actions hplan).mp hc
    have haccepts := accepts_of_reassign hdecided
    obtain ⟨-, hbusy, hfin, -⟩ := of_decide_eq_true haccepts
    obtain ⟨o, ho, rfl, hrep⟩ := h.reported_of_finished hhome hreplies hfin hbusy
    refine ⟨hbusy, fun o' ho' hcard => ?_, fun b hb c' hc' => ?_⟩
    · obtain rfl := h.eq_of_card hhome ho ho' hcard hbusy
      exact .inr hrep
    · by_contra hne
      obtain ⟨hmem', hwedged'⟩ := hstop b hb c' hc'
      obtain ⟨hmem, hwedged⟩ := hstop _ hc c (Finset.mem_singleton_self c)
      have hnone := hclear.alone c' ((hchunks c').mpr hmem') c ((hchunks c).mpr hmem) hne hwedged' hwedged
        _ (of_decide_eq_true haccepts).1
      exact absurd haccepts (by simp [hnone])

/-! ## Runs -/

omit [DecidableEq Card] in
/-- At the start each chunk is on its own card. -/
theorem sound_launched (hhome : home.cards.Nodup) : Sound home { run := .launched home t0 } where
  chunks := rfl
  away _ _ := .inl rfl
  collected _ _ h := absurd h (Finset.notMem_empty _)
  shared _ hc _ hc' hne hcard := absurd (List.inj_on_of_nodup_map hhome hc hc' hcard) hne
  todo :=
    { nodup := List.nodup_nil
      mem := fun _ h => absurd h List.not_mem_nil
      stages := fun _ _ h => absurd h List.not_mem_nil
      stops := fun _ h => absurd h List.not_mem_nil
      sends := fun _ _ h => absurd h List.not_mem_nil }

/-- A step of a run, where it keeps to what is asked of a tick. -/
def ClearStep (cfg : Settings) (s : Polling Card) (e : Event Card) (s' : Polling Card) : Prop :=
  PollStep cfg s e s' ∧ Clear cfg s e

/-- A phase that has just been launched. -/
def Launched (home : Assignments Card) (t0 : Time) (s : Polling Card) : Prop :=
  home.cards.Nodup ∧ s = { run := .launched home t0 }

omit [DecidableEq Card] in
/-- There the invariant holds. -/
theorem Launched.sound : ∀ s, Launched home t0 s → Sound home s ∧ home.cards.Nodup := by
  rintro s ⟨hhome, rfl⟩
  exact ⟨sound_launched hhome, hhome⟩

/-- And a clear step keeps it. -/
theorem ClearStep.sound : ∀ s e s', Sound home s ∧ home.cards.Nodup → ClearStep cfg s e s' →
    Sound home s' ∧ home.cards.Nodup := by
  rintro s e s' ⟨h, hhome⟩ ⟨hstep, hclear⟩
  cases hstep with
  | tick _ _ hreplies hplan => exact ⟨h.tick hhome hreplies hplan hclear, hhome⟩
  | act htodo ok => exact ⟨h.act ok htodo, hhome⟩

/-- **A chunk is only moved to a card that is free.** This needs nothing of the tick. -/
theorem free_of_reassign (h : Sound home s) (hhome : home.cards.Nodup)
    (hstep : PollStep cfg s (.tick replies now) s') (hc : .reassign c card ∈ s'.todo) :
    Free cfg home s s' replies card := by
  cases hstep with
  | tick htodo hopen hreplies hplan =>
    obtain ⟨x, -, hdecided⟩ := (mem_actions hplan).mp hc
    obtain ⟨-, hbusy, hfin, haccept⟩ := of_decide_eq_true (accepts_of_reassign hdecided)
    obtain ⟨o, ho, rfl, hrep⟩ := h.reported_of_finished hhome hreplies hfin hbusy
    exact ⟨⟨o, ho, ((h.away o ho).resolve_right hbusy).symm, hrep⟩, haccept⟩

/-- **A wedged chunk that no card can take is restarted where it is.** -/
theorem restarts_of_wedged (h : Sound home s) (hhome : home.cards.Nodup)
    (hstep : PollStep cfg s (.tick replies now) s') (hc : c ∈ home.chunks)
    (hwedged : (s.run.input replies now).wedged cfg c)
    (hnone : ∀ card, card ∉ s.run.busy → ¬ Free cfg home s s' replies card) :
    .restartInPlace c (s.run.cards.card c) ∈ s'.todo := by
  have hfree : ∀ card, .reassign c card ∈ s'.todo → Free cfg home s s' replies card :=
    fun card => free_of_reassign h hhome hstep
  cases hstep with
  | tick htodo hopen hreplies hplan =>
    have hmem : (s.run.input replies now).recovery cfg c ∈ _ :=
      (mem_actions hplan).mpr ⟨c, h.chunks ▸ hc, decided_of_wedged hwedged⟩
    obtain ⟨card, heq, -, -, hbusy, -⟩ | ⟨heq, -⟩ := planRecovery_cases
      (rfl : (s.run.input replies now).recovery cfg c = _)
    · exact absurd (hfree card (heq ▸ hmem)) (hnone card hbusy)
    · exact heq ▸ hmem

/-- Only a move sends a chunk. -/
theorem eq_reassign_of_sends (h : a.sends card) : ∃ c, a = .reassign c card := by
  cases a with
  | reassign c target => exact ⟨c, by rw [of_decide_eq_true h]⟩
  | _ => exact absurd h (by simp [Action.sends])

/-- What is left of a plan sends a card one chunk at most. -/
theorem TodoSound.sends_le_one (h : TodoSound home s) (card : Card) :
    s.todo.countP (Action.sends card) ≤ 1 := by
  by_cases hsome : ∃ a ∈ s.todo, a.sends card
  · obtain ⟨a, ha, hsends⟩ := hsome
    have hsame : ∀ b ∈ s.todo, b.sends card → b.chunk = a.chunk := by
      intro b hb hb'
      obtain ⟨c, rfl⟩ := eq_reassign_of_sends hsends
      obtain ⟨c', rfl⟩ := eq_reassign_of_sends hb'
      exact (h.sends c card ha).2.2 _ hb c' (Finset.mem_singleton_self c')
    calc s.todo.countP (Action.sends card)
      _ ≤ s.todo.countP fun b => b.chunk == a.chunk :=
        List.countP_mono_left fun b hb hb' => beq_iff_eq.mpr (hsame b hb hb')
      _ = (s.todo.map Action.chunk).count a.chunk := by rw [List.count_eq_countP, List.countP_map]; rfl
      _ ≤ 1 := List.nodup_iff_count_le_one.mp h.nodup a.chunk
  · rw [List.countP_eq_zero.mpr fun a ha hsends => hsome ⟨a, ha, hsends⟩]
    exact Nat.zero_le 1

/-- A card that has been given a chunk is busy from then on. -/
theorem busy_of_step (h : Sound home s) (hstep : PollStep cfg s e s') (card : Card) :
    s.run.busy ⊆ s'.run.busy ∧ (e.sends card → card ∉ s.run.busy ∧ card ∈ s'.run.busy) := by
  cases hstep with
  | tick => exact ⟨Finset.Subset.refl _, fun h => absurd h (by simp [Event.sends])⟩
  | @act a rest htodo ok =>
    cases a with
    | stage => exact ⟨by cases ok <;> rfl, fun h => absurd h (by simp [Event.sends, Action.sends])⟩
    | reassign c target =>
      refine ⟨Finset.subset_insert _ _, fun hsends => ?_⟩
      obtain rfl : target = card := of_decide_eq_true hsends
      exact ⟨(h.todo.sends c target (htodo ▸ List.mem_cons_self)).1, Finset.mem_insert_self _ _⟩
    | restartInPlace =>
      exact ⟨Finset.Subset.refl _, fun h => absurd h (by simp [Event.sends, Action.sends])⟩

/-- A card is sent one chunk at most. -/
theorem sends_once (h : Runs.Run (Launched home t0) (ClearStep cfg) trace s) (card : Card) : trace.countP (fun t => t.2.1.sends card) ≤ 1 ∧
      (card ∉ s.run.busy → trace.countP (fun t => t.2.1.sends card) = 0) := by
  induction h with
  | nil => exact ⟨Nat.zero_le _, fun _ => rfl⟩
  | @snoc trace s s' e h hs ih =>
    have hsound := h.invariant Launched.sound ClearStep.sound
    obtain ⟨hgrown, hsends⟩ := busy_of_step hsound.1 hs.1 card
    rw [List.countP_append, List.countP_singleton]
    by_cases he : e.sends card
    · obtain ⟨hfree, hbusy⟩ := hsends he
      rw [if_pos he, ih.2 hfree]
      exact ⟨Nat.le_refl _, fun h => absurd hbusy h⟩
    · rw [if_neg he, Nat.add_zero]
      exact ⟨ih.1, fun hfree => ih.2 fun h => hfree (hgrown h)⟩

/-- **No card gets two chunks, and no prove is stopped that is still needed, where no tick judges two
    chunks wedged with a card to move one to, or a chunk by what another chunk of its card does.** -/
theorem recovers (h : PollRun cfg home t0 trace s) (hclear : ∀ t ∈ trace, Clear cfg t.1 t.2.1) :
    Recovers cfg home trace := by
  have hrun : Runs.Run (Launched home t0) (ClearStep cfg) trace s :=
    h.restrict (q := fun s e _ => Clear cfg s e) hclear
  have hsteps := hrun.forall_steps Launched.sound ClearStep.sound
  refine ⟨?_, fun card => (sends_once hrun card).1, ?_, ?_, ?_⟩
  · rintro s replies now s' ht c card hc
    obtain ⟨⟨hsound, hhome⟩, hstep, -⟩ := hsteps _ ht
    exact free_of_reassign hsound hhome hstep hc
  · rintro s replies now s' ht card
    obtain ⟨hsound, hstep⟩ := hsteps _ ht
    exact (ClearStep.sound _ _ _ hsound hstep).1.todo.sends_le_one card
  · rintro s a ok s' ht c hc c' hc' hne hcard
    obtain ⟨⟨hsound, -⟩, hstep, -⟩ := hsteps _ ht
    have hstep : PollStep cfg s (.act a ok) s' := hstep
    cases hstep with
    | act htodo =>
      exact ((hsound.todo.stops a (htodo ▸ List.mem_cons_self) c hc).2 c' hc' hne hcard).1
  · rintro s replies now s' ht c hc hwedged hnone
    obtain ⟨⟨hsound, hhome⟩, hstep, -⟩ := hsteps _ ht
    exact restarts_of_wedged hsound hhome hstep hc hwedged hnone

/-! ## Two chunks at once -/

/-- `float` on the numbers that a probe prints. -/
def readDigits (s : String) : Option Reading :=
  if s.toList ≠ [] ∧ s.toList.all Char.isDigit then
    some (.num (s.toList.foldl (fun n c => 10 * n + (c.toNat - 48)) 0 : ℕ))
  else none

/-- Three chunks, each on a card of its own. -/
def threeCards : Assignments ℕ := { chunks := [0, 1, 2], nodup := by decide, card := fun c => 10 + c }

/-- The first card finishes, and the other two have done nothing for a hundred seconds. -/
def twoWedged : List (Event ℕ) :=
  [.tick [(0, some "DONE:812:0:3:0"), (1, some "7:0:3:0"), (2, some "7:0:3:0")] 6,
    .act (.stage 0 10) true,
    .tick [(0, some "DONE:812:0:3:0"), (1, some "7:0:3:0"), (2, some "7:0:3:0")] 107,
    .act (.reassign 1 10) true,
    .act (.reassign 2 10) true]

/-- The run of these events. -/
def wedgedRun : List (Polling ℕ × Event ℕ × Polling ℕ) × Polling ℕ :=
  Runs.play (Polling.next { float := readDigits }) { run := .launched threeCards 0 } twoWedged

/-- One of them wedges later than the other, and is restarted. -/
def wedgedInTurn : List (Event ℕ) :=
  [.tick [(0, some "DONE:812:0:3:0"), (1, some "7:0:3:0"), (2, some "7:0:3:0")] 6,
    .act (.stage 0 10) true,
    .tick [(0, some "DONE:812:0:3:0"), (1, some "7:0:3:0"), (2, some "8:0:3:0")] 107,
    .act (.reassign 1 10) true,
    .tick [(0, some "DONE:812:0:3:0"), (1, some "5:98:22460:1"), (2, some "8:0:3:0")] 208,
    .act (.restartInPlace 2 12) true]

/-- In this run each chunk recovers. -/
theorem recovers_wedgedInTurn : Recovers { float := readDigits } threeCards
    (Runs.play (Polling.next { float := readDigits }) { run := .launched threeCards 0 } wedgedInTurn).1 :=
  recovers (.play PollStep.of_next ⟨by decide, rfl⟩ wedgedInTurn) (by decide +kernel)

/-- In that run the two are sent to one card. -/
theorem two_wedged_chunks_share_a_card : ∃ trace s,
    PollRun { float := readDigits } threeCards 0 trace s ∧
      ¬ Recovers { float := readDigits } threeCards trace :=
  ⟨wedgedRun.1, wedgedRun.2, .play PollStep.of_next ⟨by decide, rfl⟩ twoWedged, fun h =>
    absurd (h.once 10) (by decide +kernel)⟩

end Tip
end Hazync
