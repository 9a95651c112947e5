import Hazync.Lib.Runs
import Hazync.SegServe.JoinTree
import Mathlib.Data.Nat.Find

/-!
# Every schedule of the pipelined join tree

Receipts that have arrived stay, a join that was answered is harvested by the next pass, and a pass
publishes every join whose children are there. So in a schedule in which the driver goes on and every
published join is answered once, each place of the tree is filled in its turn, and the root is what
the level-synchronous driver builds.

One answer is what a join gets from the queue: a worker's result is accepted for as long as its job
is in flight, and no worker is given the job again after that.

## How the driver gets to an end

The argument goes up the tree. A place of the bottom level is filled from the start. For a place
above, both children are filled at some time (by induction) and stay; the next pass publishes the
join, unless it was published before. If it stays here, it is run in the same pass. If not, it is in
the queue until a worker answers, which the schedule promises to happen once (`Fair.answers`); from
then on the result is held, `Returned`, and the next harvest puts it in its place. An odd place at
the end of a level is carried up by a pass as soon as it is filled.

"The next pass" takes some words, since the driver alternates between publishing and harvesting and
the answers come in between. `Fair.next_drive` and the two lemmas after it find the next step of the
driver of each kind.

No condition is put on the order of answers, on how many there are in flight, or on how often the
driver goes round without having anything to do. Nor does an answer have to come to a join that
stays here. Only the number of leaves is bounded, below `2 ^ 17`, so that different places have
different tags.
-/

namespace Hazync.SegServe

open CarryLevels

namespace Driver

variable {α : Type*} {join : α → α → α} {widths : List ℕ} {max : ℕ} {leaves : List α}
  {d d' d'' : Driver α} {x : ℕ × ℕ}

/-! ## Nothing is lost -/

/-- What was ready is ready, what was published is published. -/
structure Later (d d' : Driver α) : Prop where
  ready : ∀ {l p}, (d.ready l p).isSome → (d'.ready l p).isSome
  joins : ∀ {j}, j ∈ d.joins → j ∈ d'.joins

/-- A state is no earlier than itself. -/
theorem Later.refl (d : Driver α) : Later d d := ⟨id, id⟩

/-- Later than later is later. -/
theorem Later.trans (h : Later d d') (h' : Later d' d'') : Later d d'' :=
  ⟨fun hr => h'.ready (h.ready hr), fun hj => h'.joins (h.joins hj)⟩

/-- A loop of steps that lose nothing loses nothing. -/
theorem later_foldl {γ : Type*} {op : Driver α → γ → Driver α} (hop : ∀ d c, Later d (op d c))
    (l : List γ) (d : Driver α) : Later d (l.foldl op d) :=
  List.foldlRecOn l op (Later.refl d) fun d' h c _ => h.trans (hop d' c)

/-- A place is filled. -/
theorem later_set {l p : ℕ} {v : α} : Later d (d.set l p v) where
  ready h := by
    rw [ready_set]
    split
    · rfl
    · exact h
  joins := id

/-- Joins are added. -/
theorem later_publish : Later d (publish widths max d) :=
  ⟨id, fun hj => mem_publish.mpr (.inl hj)⟩

/-- A carried receipt is added. -/
theorem later_carryAt (d : Driver α) (l : ℕ) : Later d (carryAt widths d l) := by
  rw [carryAt]
  split
  · split
    · exact later_set
    · exact .refl d
  · exact .refl d

/-- A result moves into its place. -/
theorem later_harvestAt (d : Driver α) (x : ℕ × ℕ) : Later d (harvestAt d x) := by
  rw [harvestAt]
  split
  · exact .refl d
  · split
    · next r _ => exact ⟨(later_set (d := d) (v := r)).ready, id⟩
    · exact .refl d

theorem later_sweep : Later d (sweep join widths max d) :=
  later_publish.trans ((later_foldl (fun _ _ => later_set) _ _).trans (later_foldl later_carryAt _ _))

theorem later_harvest : Later d (harvest widths d) := later_foldl later_harvestAt _ d

/-- So no step of the driver, and no answer, loses anything. -/
theorem later_step (e : TreeEvent) : Later d (step join widths max d e) := by
  cases e with
  | drive =>
    rw [step]
    split
    · exact ⟨later_harvest.ready, later_harvest.joins⟩
    · split
      · exact .refl d
      · exact ⟨later_sweep.ready, later_sweep.joins⟩
  | answer t =>
    rw [step]
    split
    · exact ⟨id, id⟩
    · exact .refl d

/-- A later state of a schedule. -/
theorem later_after (e : ℕ → TreeEvent) {k i : ℕ} (h : k ≤ i) :
    Later (after join max leaves e k) (after join max leaves e i) := by
  induction i, h using Nat.le_induction with
  | base => exact .refl _
  | succ i _ ih => exact ih.trans (later_step (e i))

/-! ## What a pass does -/

/-- Carrying does not touch the queue. -/
theorem foldl_carryAt (l : List ℕ) (d : Driver α) :
    (l.foldl (carryAt widths) d).joins = d.joins ∧ (l.foldl (carryAt widths) d).jout = d.jout := by
  refine List.foldlRecOn l (carryAt widths)
    (motive := fun d' => d'.joins = d.joins ∧ d'.jout = d.jout) ⟨rfl, rfl⟩ ?_
  intro d' h i _
  rw [carryAt]
  split
  · split
    · exact h
    · exact h
  · exact h

theorem foldl_runLocal_jout (l : List (Join α)) : (l.foldl (runLocal join) d).jout = d.jout :=
  List.foldlRecOn l (runLocal join) (motive := fun d' => d'.jout = d.jout) rfl
    fun _ h j _ => (jout_set (v := join j.left j.right)).trans h

/-- A pass adds what is due to the queue. -/
theorem joins_sweep : (sweep join widths max d).joins = d.joins ++ todo widths max d := by
  rw [sweep, (foldl_carryAt _ _).1, foldl_runLocal_joins]
  rfl

theorem jout_sweep : (sweep join widths max d).jout = d.jout := by
  rw [sweep, (foldl_carryAt _ _).2, foldl_runLocal_jout]
  rfl

variable (max) in
/-- A pass publishes every join whose two children are there. -/
theorem Inv.exists_published (h : Inv join leaves d) (hx : x ∈ places (joinTreeWidths leaves.length))
    (ha : (d.ready x.1 (x.2 * 2)).isSome) (hb : (d.ready x.1 (x.2 * 2 + 1)).isSome) :
    ∃ j ∈ (Driver.sweep join (joinTreeWidths leaves.length) max d).joins, j.place = x := by
  simp only [joins_sweep, List.mem_append]
  cases hpub : d.published x.1 x.2 with
  | true =>
    obtain ⟨j, hj, hplace⟩ := List.mem_map.mp (h.published.mp hpub)
    exact ⟨j, .inl hj, hplace⟩
  | false =>
    obtain ⟨j, hj, hplace⟩ := exists_mem_todo max hx hpub ha hb
    exact ⟨j, .inr hj, hplace⟩

/-- A pass runs the joins that stay here. -/
theorem ready_sweep_of_stays {j : Join α} (hj : j ∈ todo widths max d) (hstays : j.stays = true) :
    ((sweep join widths max d).ready (j.level + 1) j.pos).isSome := by
  refine (later_foldl later_carryAt _ _).ready ?_
  refine Runs.foldl_reaches (p := fun _ : Driver α => True) (c := j)
    (q := fun d' : Driver α => (d'.ready (j.level + 1) j.pos).isSome) (List.mem_filter.mpr ⟨hj, hstays⟩)
    (fun _ _ _ _ => trivial) (fun _ _ _ hr => later_set.ready hr) (fun d' _ => ?_) trivial
  simp

variable (join max) in
/-- A pass carries the odd receipts that are there. -/
theorem ready_sweep_of_odd {l : ℕ} (hl : l < widths.length - 1) (hodd : widths.getD l 0 % 2 = 1)
    (hsrc : (d.ready l (widths.getD l 0 - 1)).isSome) :
    ((sweep join widths max d).ready (l + 1) (npairs widths l)).isSome := by
  refine Runs.foldl_reaches (p := fun d' : Driver α => (d'.ready l (widths.getD l 0 - 1)).isSome) (c := l)
    (q := fun d' : Driver α => (d'.ready (l + 1) (npairs widths l)).isSome) (List.mem_range.mpr hl)
    (fun _ _ _ hr => (later_carryAt _ _).ready hr) (fun _ _ _ hr => (later_carryAt _ _).ready hr) ?_
    ((later_foldl (fun _ _ => later_set) _ _).ready (later_publish.ready hsrc))
  intro d' hsrc
  obtain ⟨r, hr⟩ := Option.isSome_iff_exists.mp hsrc
  rw [carryAt]
  split
  · simp only [hr, ready_set, and_self, if_true, Option.isSome_some]
  · next hcond =>
    exact Option.isSome_iff_ne_none.mpr fun hr =>
      hcond ⟨hodd, Option.isNone_iff_eq_none.mpr hr⟩

/-- The result of a join is here, or waits to be harvested. -/
def Returned (d : Driver α) (x : ℕ × ℕ) : Prop :=
  (d.ready (x.1 + 1) x.2).isSome ∨ (d.jout (joinTag x.1 x.2)).isSome

theorem ready_harvestAt (h : Returned d x) : ((harvestAt d x).ready (x.1 + 1) x.2).isSome := by
  rw [harvestAt]
  split
  · assumption
  · next hready =>
    obtain ⟨r, hr⟩ := Option.isSome_iff_exists.mp (h.resolve_left hready)
    simp [hr]

/-- Harvesting other places keeps a result. -/
theorem Returned.harvestAt {n : ℕ} (hn : n < 2 ^ 17) (h : Returned d x) {y : ℕ × ℕ}
    (hx : x ∈ places (joinTreeWidths n)) (hy : y ∈ places (joinTreeWidths n)) :
    Returned (harvestAt d y) x := by
  by_cases heq : x = y
  · subst heq
    exact .inl (ready_harvestAt h)
  · have htag : joinTag x.1 x.2 ≠ joinTag y.1 y.2 := fun htag => heq (place_of_tag (by omega) hx hy htag)
    refine h.imp (later_harvestAt d y).ready fun hr => ?_
    rw [Driver.harvestAt]
    split
    · exact hr
    · split
      · simpa [Function.update_apply, htag] using hr
      · exact hr

/-- A pass harvests every result that is back. -/
theorem Returned.harvest {n : ℕ} (hn : n < 2 ^ 17) (h : Returned d x)
    (hx : x ∈ places (joinTreeWidths n)) :
    ((harvest (joinTreeWidths n) d).ready (x.1 + 1) x.2).isSome :=
  Runs.foldl_reaches (p := fun d' => Returned d' x)
    (q := fun d' : Driver α => (d'.ready (x.1 + 1) x.2).isSome) hx
    (fun _ _ hy h' => h'.harvestAt hn hx hy) (fun _ _ _ hr => (later_harvestAt _ _).ready hr)
    (fun _ h' => ready_harvestAt h') h

/-- A result that is back stays, in its place or in front of it. -/
theorem Returned.step {n : ℕ} (hn : n < 2 ^ 17) (h : Returned d x)
    (hx : x ∈ places (joinTreeWidths n)) (e : TreeEvent) :
    Returned (step join (joinTreeWidths n) max d e) x := by
  cases e with
  | drive =>
    rw [Driver.step]
    split
    · exact .inl (h.harvest hn hx)
    · split
      · exact h
      · exact h.imp later_sweep.ready fun hr => by rw [jout_sweep]; exact hr
  | answer t =>
    rw [Driver.step]
    split
    · refine h.imp id fun hr => ?_
      simp only [Function.update_apply]
      split
      · rfl
      · exact hr
    · exact h

/-! ## Every place is filled -/

/-- A harvest does not touch the queue. -/
theorem joins_harvest : (harvest widths d).joins = d.joins := by
  refine List.foldlRecOn _ harvestAt (motive := fun d' => d'.joins = d.joins) rfl ?_
  intro d' h x _
  rw [harvestAt]
  split
  · exact h
  · split
    · exact h
    · exact h

/-- A new join was published by the pass of this step. -/
theorem joins_step {e : TreeEvent} {j : Join α} (h : j ∈ (step join widths max d e).joins) :
    j ∈ d.joins ∨ j ∈ todo widths max d ∧
      step join widths max d e = { sweep join widths max d with harvesting := true } := by
  cases e with
  | drive =>
    rw [step] at h ⊢
    split at h
    · exact .inl ((joins_harvest : (harvest widths d).joins = d.joins) ▸ h)
    · next hharvest =>
      split at h
      · exact .inl h
      · next hdone =>
        rw [if_neg hharvest, if_neg hdone]
        have hjoins : (Driver.sweep join widths max d).joins = d.joins ++ todo widths max d := joins_sweep
        obtain h | h := List.mem_append.mp (hjoins ▸ h)
        · exact .inl h
        · exact .inr ⟨h, rfl⟩
  | answer t =>
    rw [step] at h
    split at h
    · exact .inl h
    · exact .inl h

/-- The joins that stay here have been run. -/
theorem ready_of_stays (e : ℕ → TreeEvent) (k : ℕ) :
    ∀ j ∈ (after join max leaves e k).joins, j.stays = true →
      ((after join max leaves e k).ready (j.level + 1) j.pos).isSome := by
  induction k with
  | zero => exact fun j hj => absurd hj List.not_mem_nil
  | succ k ih =>
    intro j hj hstays
    obtain hold | ⟨hnew, hstep⟩ := joins_step hj
    · exact (later_step (e k)).ready (ih j hold hstays)
    · rw [after, hstep]
      exact ready_sweep_of_stays hnew hstays

/-- The bottom level is there. -/
theorem Inv.ready_leaf (h : Inv join leaves d) {p : ℕ} (hp : p < leaves.length) :
    (d.ready 0 p).isSome := by
  rw [h.leaf, List.getElem?_eq_getElem hp]
  rfl

/-- What stands under a place that is filled is filled. -/
theorem Inv.ready_below (h : Inv join leaves d) {l p : ℕ}
    (hl : l < (joinTreeWidths leaves.length).length - 1) (hp : p < width leaves.length l)
    (hup : (d.ready (l + 1) (p / 2)).isSome) : (d.ready l p).isSome := by
  obtain hpair | hodd := Nat.lt_or_ge (p / 2) (width leaves.length l / 2)
  · have hplace : (l, p / 2) ∈ places (joinTreeWidths leaves.length) :=
      mem_places.mpr ⟨hl, by rw [npairs_joinTreeWidths hl]; exact hpair⟩
    obtain ⟨j, hj, hjp⟩ := List.mem_map.mp (h.published.mp (h.built hplace hup))
    obtain ⟨-, ha, hb⟩ := h.children j hj
    rw [(Prod.mk.inj hjp).1, (Prod.mk.inj hjp).2] at ha hb
    obtain heven | hone := Nat.mod_two_eq_zero_or_one p
    · rw [show p / 2 * 2 = p by omega] at ha
      exact Option.isSome_iff_exists.mpr ⟨_, ha⟩
    · rw [show p / 2 * 2 + 1 = p by omega] at hb
      exact Option.isSome_iff_exists.mpr ⟨_, hb⟩
  · have hlast : p / 2 = width leaves.length l / 2 := by omega
    have hcarried := h.carried hl (by omega) (hlast ▸ hup)
    rwa [show width leaves.length l - 1 = p by omega] at hcarried

/-- Under the root, everything has arrived. -/
theorem Inv.ready_of_done (h : Inv join leaves d) (h0 : leaves ≠ [])
    (hdone : Done (joinTreeWidths leaves.length) d) {l p : ℕ}
    (hl : l ≤ (joinTreeWidths leaves.length).length - 1) (hp : p < width leaves.length l) :
    (d.ready l p).isSome := by
  induction hl using Nat.decreasingInduction generalizing p with
  | self =>
    rw [width_depth (List.length_pos_iff.mpr h0)] at hp
    obtain rfl := Nat.lt_one_iff.mp hp
    obtain hdepth | hroot := hdone
    · rw [hdepth]
      exact h.ready_leaf (List.length_pos_iff.mpr h0)
    · exact hroot
  | of_succ l hl ih => exact h.ready_below hl hp (ih (half_lt_width hp))

variable (join max leaves) in
/-- The driver goes on, and each join that it publishes for the workers is answered at some time
after that. -/
structure Fair (e : ℕ → TreeEvent) : Prop where
  drives : ∀ k, ∃ i, k ≤ i ∧ e i = .drive
  answers : ∀ k, ∀ j ∈ (after join max leaves e k).joins, j.stays = false →
    ∃ i, e i = .answer j.tag ∧ j ∈ (after join max leaves e i).joins

variable {e : ℕ → TreeEvent}

/-- Until the next step of the driver, it stays between the same two phases. -/
theorem Fair.next_drive (h : Fair join max leaves e) (k : ℕ) :
    ∃ i, k ≤ i ∧ e i = .drive ∧
      (after join max leaves e i).harvesting = (after join max leaves e k).harvesting := by
  classical
  have hex := h.drives k
  refine ⟨Nat.find hex, (Nat.find_spec hex).1, (Nat.find_spec hex).2, ?_⟩
  have hwait : ∀ i, k ≤ i → i ≤ Nat.find hex →
      (after join max leaves e i).harvesting = (after join max leaves e k).harvesting := by
    intro i hki
    induction i, hki using Nat.le_induction with
    | base => exact fun _ => rfl
    | succ i hki ih =>
      intro hlt
      rw [← ih (Nat.le_of_lt hlt)]
      have hne : e i ≠ .drive := fun hi => Nat.find_min hex hlt ⟨hki, hi⟩
      cases hi : e i with
      | drive => exact absurd hi hne
      | answer t =>
        rw [after, hi, step]
        split
        · rfl
        · rfl
  exact hwait _ (Nat.find_spec hex).1 le_rfl

/-- The driver begins a pass, or has ended. -/
theorem Fair.next_sweep (h : Fair join max leaves e) (k : ℕ) :
    ∃ i, k ≤ i ∧ (Done (joinTreeWidths leaves.length) (after join max leaves e i) ∨
      after join max leaves e (i + 1) =
        { sweep join (joinTreeWidths leaves.length) max (after join max leaves e i) with
          harvesting := true }) := by
  have hpass : ∀ i, e i = .drive → (after join max leaves e i).harvesting = false →
      Done (joinTreeWidths leaves.length) (after join max leaves e i) ∨
        after join max leaves e (i + 1) =
          { sweep join (joinTreeWidths leaves.length) max (after join max leaves e i) with
            harvesting := true } := by
    intro i hi hharvest
    rw [after, hi, step, hharvest]
    by_cases hdone : Done (joinTreeWidths leaves.length) (after join max leaves e i)
    · exact .inl hdone
    · exact .inr (by simp [hdone])
  obtain ⟨i, hki, hi, hsame⟩ := h.next_drive k
  cases hharvest : (after join max leaves e i).harvesting with
  | false => exact ⟨i, hki, hpass i hi hharvest⟩
  | true =>
    have hnext : (after join max leaves e (i + 1)).harvesting = false := by
      rw [after, hi, step, hharvest]
      rfl
    obtain ⟨m, him, hm, hsame'⟩ := h.next_drive (i + 1)
    exact ⟨m, by omega, hpass m hm (hsame'.trans hnext)⟩

/-- The driver ends a pass, or has ended. -/
theorem Fair.next_harvest (h : Fair join max leaves e) (k : ℕ) :
    ∃ i, k ≤ i ∧ (Done (joinTreeWidths leaves.length) (after join max leaves e i) ∨
      after join max leaves e (i + 1) =
        { harvest (joinTreeWidths leaves.length) (after join max leaves e i) with
          harvesting := false }) := by
  obtain ⟨i, hki, hdone | hsweep⟩ := h.next_sweep k
  · exact ⟨i, hki, .inl hdone⟩
  · obtain ⟨m, him, hm, hsame⟩ := h.next_drive (i + 1)
    refine ⟨m, by omega, .inr ?_⟩
    rw [after, hm, step, hsame, hsweep]
    rfl

/-- And so it does along a schedule. -/
theorem Returned.after {k i : ℕ} (hn : leaves.length < 2 ^ 17)
    (hx : x ∈ places (joinTreeWidths leaves.length)) (hki : k ≤ i)
    (h : Returned (after join max leaves e k) x) : Returned (Driver.after join max leaves e i) x := by
  induction i, hki using Nat.le_induction with
  | base => exact h
  | succ i _ ih => exact ih.step hn hx (e i)

/-- An answer to a published join comes back to its place. -/
theorem returned_of_answer {k : ℕ} {j : Join α}
    (hj : j ∈ (after join max leaves e k).joins) (hstays : j.stays = false)
    (hk : e k = .answer j.tag) : Returned (after join max leaves e (k + 1)) j.place := by
  refine .inr ?_
  rw [after, hk, step]
  split
  · simp [Join.place, Join.tag]
  · next hnone =>
    refine absurd (List.find?_eq_none.mp hnone j hj) ?_
    simp [hstays]

/-- In a fair schedule each place is filled in its turn. -/
theorem Fair.ready (h : Fair join max leaves e) (hn : leaves.length < 2 ^ 17) (h0 : leaves ≠ [])
    {l p : ℕ} (hl : l ≤ (joinTreeWidths leaves.length).length - 1) (hp : p < width leaves.length l) :
    ∃ k, ((after join max leaves e k).ready l p).isSome := by
  have hinv := inv_after join max hn e
  induction l generalizing p with
  | zero => exact ⟨0, (hinv 0).ready_leaf hp⟩
  | succ l ih =>
    obtain hpair | hodd := Nat.lt_or_ge p (width leaves.length l / 2)
    · obtain ⟨k₁, h₁⟩ := ih (Nat.le_of_succ_le hl) (p := p * 2) (by omega)
      obtain ⟨k₂, h₂⟩ := ih (Nat.le_of_succ_le hl) (p := p * 2 + 1) (by omega)
      have hplace : (l, p) ∈ places (joinTreeWidths leaves.length) :=
        mem_places.mpr ⟨hl, by rw [npairs_joinTreeWidths hl]; exact hpair⟩
      obtain ⟨i, hi, hdone | hsweep⟩ := h.next_sweep (Nat.max k₁ k₂)
      · exact ⟨i, (hinv i).ready_of_done h0 hdone hl hp⟩
      -- The pass publishes the join; it is run here, or answered and then harvested.
      obtain ⟨j, hj, hjp⟩ := (hinv i).exists_published max hplace
        ((later_after e (le_trans (Nat.le_max_left _ _) hi)).ready h₁)
        ((later_after e (le_trans (Nat.le_max_right _ _) hi)).ready h₂)
      have hpub : j ∈ (after join max leaves e (i + 1)).joins := by
        rw [hsweep]
        exact hj
      obtain ⟨rfl, rfl⟩ := Prod.mk.inj hjp
      cases hstays : j.stays with
      | true => exact ⟨i + 1, ready_of_stays e (i + 1) j hpub hstays⟩
      | false =>
        obtain ⟨a, ha, hpub⟩ := h.answers (i + 1) j hpub hstays
        have hret := returned_of_answer hpub hstays ha
        obtain ⟨m, ham, hdone | hharvest⟩ := h.next_harvest (a + 1)
        · exact ⟨m, (hinv m).ready_of_done h0 hdone hl hp⟩
        · refine ⟨m + 1, ?_⟩
          rw [hharvest]
          exact (hret.after hn hplace ham).harvest hn hplace
    · have hlast : p = width leaves.length l / 2 := by
        rw [width_succ] at hp
        omega
      rw [width_succ] at hp
      obtain ⟨k, hk⟩ := ih (Nat.le_of_succ_le hl) (p := width leaves.length l - 1) (by omega)
      obtain ⟨i, hki, hdone | hsweep⟩ := h.next_sweep k
      · exact ⟨i, (hinv i).ready_of_done h0 hdone hl (by rw [width_succ]; exact hp)⟩
      · refine ⟨i + 1, ?_⟩
        have hw := getD_joinTreeWidths (Nat.lt_of_lt_pred hl)
        have hcarry : ((Driver.sweep join (joinTreeWidths leaves.length) max
            (after join max leaves e i)).ready (l + 1) (npairs (joinTreeWidths leaves.length) l)).isSome :=
          ready_sweep_of_odd join max hl (by rw [hw]; omega)
            (by rw [hw]; exact (later_after e hki).ready hk)
        rw [npairs, hw, ← hlast] at hcarry
        rw [hsweep]
        exact hcarry

/-! ## The pipelined tree is the level-synchronous tree -/

/-- At the root stands the value of the tree. -/
theorem Inv.root_eq (h : Inv join leaves d) (h0 : leaves ≠ [])
    (hdone : Done (joinTreeWidths leaves.length) d) :
    root (joinTreeWidths leaves.length) d = coordinateTree join leaves := by
  have hready := h.ready_of_done h0 hdone le_rfl (p := 0)
    (by rw [width_depth (List.length_pos_iff.mpr h0)]; exact Nat.one_pos)
  obtain ⟨r, hr⟩ := Option.isSome_iff_exists.mp hready
  rw [root, hr, coordinateTree_eq, h.sound hr]

/-- Different joins have different tags. -/
theorem Inv.nodup_tags (h : Inv join leaves d) (hn : leaves.length < 2 ^ 17) :
    (d.joins.map Join.tag).Nodup := by
  have hmap : d.joins.map Join.tag = (d.joins.map Join.place).map fun x => joinTag x.1 x.2 := by
    rw [List.map_map]
    rfl
  rw [hmap]
  refine h.nodup.map_on fun x hx y hy htag => ?_
  obtain ⟨j, hj, rfl⟩ := List.mem_map.mp hx
  obtain ⟨k, hk, rfl⟩ := List.mem_map.mp hy
  exact place_of_tag (by omega) (h.children j hj).1 (h.children k hk).1 htag

/-- When the driver ends, every join of the tree has been published and its result is in. -/
theorem Inv.answered (h : Inv join leaves d) (h0 : leaves ≠ [])
    (hdone : Done (joinTreeWidths leaves.length) d)
    (hx : x ∈ places (joinTreeWidths leaves.length)) :
    ∃ j ∈ d.joins, j.place = x ∧ d.ready (x.1 + 1) x.2 = some (join j.left j.right) := by
  have hp := lt_of_mem_places hx
  have hready := h.ready_of_done h0 hdone (mem_places.mp hx).1 (p := x.2)
    (by rw [width_succ]; omega)
  obtain ⟨j, hj, hjx⟩ := List.mem_map.mp (h.published.mp (h.built hx hready))
  obtain rfl : j.place = x := hjx
  obtain ⟨r, hr⟩ := Option.isSome_iff_exists.mp hready
  refine ⟨j, hj, rfl, ?_⟩
  rw [hr, ← h.value hj]
  exact (h.sound hr).symm

/-- In every schedule no join is published twice, each is published from two children that stand
ready, the left one at the even position, and no two share a tag; the driver ends with every join
answered and the root of the level-synchronous tree, and it does end where every published join is
answered, be it once. -/
theorem pipelined_join_tree (join : α → α → α) (max : ℕ) (leaves : List α) (h0 : leaves ≠ [])
    (hn : leaves.length < 2 ^ 17) (e : ℕ → TreeEvent) :
    (∀ k, ((after join max leaves e k).joins.map Join.place).Nodup ∧
      ((after join max leaves e k).joins.map Join.tag).Nodup ∧
      (∀ j ∈ (after join max leaves e (k + 1)).joins, j ∈ (after join max leaves e k).joins ∨
        (after join max leaves e k).ready j.level (j.pos * 2) = some j.left ∧
        (after join max leaves e k).ready j.level (j.pos * 2 + 1) = some j.right) ∧
      (Done (joinTreeWidths leaves.length) (after join max leaves e k) →
        (∀ x ∈ places (joinTreeWidths leaves.length), ∃ j ∈ (after join max leaves e k).joins,
          j.place = x ∧
          (after join max leaves e k).ready (x.1 + 1) x.2 = some (join j.left j.right)) ∧
        root (joinTreeWidths leaves.length) (after join max leaves e k) =
          coordinateTree join leaves)) ∧
    (Fair join max leaves e →
      ∃ k, Done (joinTreeWidths leaves.length) (after join max leaves e k)) := by
  refine ⟨fun k => ?_, fun hfair => ?_⟩
  · have hinv := inv_after join max hn e k
    refine ⟨hinv.nodup, hinv.nodup_tags hn, fun j hj => ?_, fun hdone => ?_⟩
    · exact (joins_step hj).imp id fun hnew => (mem_todo hnew.1).2.2
    · exact ⟨fun x hx => hinv.answered h0 hdone hx, hinv.root_eq h0 hdone⟩
  · obtain ⟨k, hk⟩ := hfair.ready hn h0 le_rfl (p := 0)
      (by rw [width_depth (List.length_pos_iff.mpr h0)]; exact Nat.one_pos)
    exact ⟨k, .inr hk⟩

/-- Two joins of one place are one join, whenever each was published. -/
theorem eq_of_place (hn : leaves.length < 2 ^ 17) {k i : ℕ} {j j' : Join α}
    (hj : j ∈ (after join max leaves e k).joins) (hj' : j' ∈ (after join max leaves e i).joins)
    (h : j.place = j'.place) : j = j' := by
  have hm : j ∈ (after join max leaves e (Nat.max k i)).joins :=
    (later_after e (Nat.le_max_left k i)).joins hj
  have hm' : j' ∈ (after join max leaves e (Nat.max k i)).joins :=
    (later_after e (Nat.le_max_right k i)).joins hj'
  exact List.inj_on_of_nodup_map (inv_after join max hn e _).nodup hm hm' h

/-- Of three receipts the driver publishes one join, then the other. Each is answered once, as soon
as it is there. -/
def onceEach : ℕ → TreeEvent
  | 1 => .answer (joinTag 0 0)
  | 4 => .answer (joinTag 1 0)
  | _ => .drive

/-- The two are in the queue by the time they are answered. -/
theorem published_onceEach :
    (0, 0) ∈ (after (fun a b => "(" ++ a ++ b ++ ")") 0 ["a", "b", "c"] onceEach 1).joins.map
      Join.place ∧
    (1, 0) ∈ (after (fun a b => "(" ++ a ++ b ++ ")") 0 ["a", "b", "c"] onceEach 4).joins.map
      Join.place := by
  have hwidths : joinTreeWidths 3 = [3, 2, 1] := by
    simp [joinTreeWidths]
  simp only [after, List.length_cons, List.length_nil, Nat.reduceAdd, hwidths]
  decide

/-- This schedule is fair. -/
theorem fair_onceEach : Fair (fun a b => "(" ++ a ++ b ++ ")") 0 ["a", "b", "c"] onceEach where
  drives k := ⟨k + 5, by omega, rfl⟩
  answers k j hj _ := by
    have hwidths : joinTreeWidths 3 = [3, 2, 1] := by
      simp [joinTreeWidths]
    have hplace : j.place ∈ places (joinTreeWidths 3) :=
      ((inv_after _ 0 (by decide) onceEach k).children j hj).1
    have hall : ∀ x ∈ places [3, 2, 1], x = (0, 0) ∨ x = (1, 0) := by
      decide
    have hpub : ∀ {i x}, j.place = x →
        x ∈ (after (fun a b => "(" ++ a ++ b ++ ")") 0 ["a", "b", "c"] onceEach i).joins.map
          Join.place →
        j ∈ (after (fun a b => "(" ++ a ++ b ++ ")") 0 ["a", "b", "c"] onceEach i).joins := by
      intro i x hx hmem
      obtain ⟨j', hj', hplace'⟩ := List.mem_map.mp hmem
      rwa [eq_of_place (by decide) hj hj' (hx.trans hplace'.symm)]
    rcases hall j.place (hwidths ▸ hplace) with hx | hx
    · obtain ⟨hlevel, hpos⟩ := Prod.mk.inj hx
      exact ⟨1, by rw [Join.tag, hlevel, hpos]; rfl, hpub hx published_onceEach.1⟩
    · obtain ⟨hlevel, hpos⟩ := Prod.mk.inj hx
      exact ⟨4, by rw [Join.tag, hlevel, hpos]; rfl, hpub hx published_onceEach.2⟩

theorem pipelined_join_tree_of_three :
    ∃ k, root (joinTreeWidths 3) (after (fun a b => "(" ++ a ++ b ++ ")") 0 ["a", "b", "c"] onceEach k) =
      some "((ab)c)" := by
  obtain ⟨hruns, hends⟩ := pipelined_join_tree (fun a b => "(" ++ a ++ b ++ ")") 0 ["a", "b", "c"]
    (by simp) (by decide) onceEach
  obtain ⟨k, hk⟩ := hends fair_onceEach
  refine ⟨k, ((hruns k).2.2.2 hk).2.trans ?_⟩
  simp [coordinateTree, nextLevel]

end Driver

end Hazync.SegServe
