import Hazync.Lib.CarryLevels
import Hazync.SegServe.Wire
import Mathlib.Data.List.Nodup

/-!
# The pipelined join tree

The lifted receipts of a run are joined in a tree whose shape is a function of their number alone.
The old driver `seg_coordinate_tree_cmd` publishes a level, waits for all its joins and goes on to
the next. The driver of `seg_serve_cmd` publishes a join as soon as its two children exist, so joins
of several levels are in flight at once, and it may run the joins of narrow levels itself.

Here the driver is a state, the workers' answers come between its steps in any order, and `join` is
any operation at all.

## The shape is known beforehand

How many receipts a level has depends on the number of leaves only. So the driver lays out all
places at the start, `joinTreeWidths`, and each join has a level and a position, which make up its
tag. A worker that returns a result names the tag, and nothing else is needed to know where the
result belongs. A level with an odd number of receipts passes the last one on; so a receipt may have
to be carried over several levels before it is joined with another.

The driver works in passes. In a pass it publishes every join whose two children are there and which
it has not published yet; runs those of narrow levels on its own, since for these the way to a
worker and back costs more than the join; and carries odd receipts. Then it harvests what came back.
The loop ends when the root is there.

The result should be that of the driver that goes level by level, for any operation `join`. This is
not a matter of associativity. Both drivers build the same tree, and `Inv` says so: whatever stands
at a place is what the tree of the leaves has there. The rest of it is on how that is kept, that a
place is published once and that an answer belongs to a join which was sent.
-/

namespace Hazync.SegServe

open CarryLevels

variable {α : Type*}

/-! ## The level-synchronous tree -/

/-- Publish a level, wait for its joins, feed the outputs in as the next level. -/
def coordinateTree (join : α → α → α) (level : List α) : Option α :=
  if 1 < level.length then coordinateTree join (nextLevel join level) else level.getLast?
termination_by level.length
decreasing_by
  rw [length_nextLevel]
  omega

/-! ## The pipelined driver -/

/-- A level is narrow where it has at most `max` joins. -/
def joinStaysLocal (npairs max : ℕ) : Bool := 0 < max && npairs ≤ max

/-- How many receipts each level has, from the lifted ones up to the root. -/
def joinTreeWidths (n : ℕ) : List ℕ :=
  n :: if 1 < n then joinTreeWidths (n / 2 + if n % 2 = 1 then 1 else 0) else []
termination_by n
decreasing_by
  split <;> omega

/-- A published join: where it stands, its two children, and whether it is run here. -/
structure Join (α : Type*) where
  level : ℕ
  pos : ℕ
  left : α
  right : α
  stays : Bool

namespace Join

/-- Its level and its position. -/
def place (j : Join α) : ℕ × ℕ := (j.level, j.pos)

/-- Under which it is in the queue. -/
def tag (j : Join α) : UInt32 := joinTag j.level j.pos

end Join

/-- The driver between two of its steps. -/
structure Driver (α : Type*) where
  ready : ℕ → ℕ → Option α
  published : ℕ → ℕ → Bool
  /-- Every join published so far, in order. -/
  joins : List (Join α)
  jout : UInt32 → Option α
  /-- Between the publications of a pass and its harvest. -/
  harvesting : Bool

/-- What happens next: the driver takes a step, or a worker returns the join of this tag. -/
inductive TreeEvent
  | drive
  | answer (tag : UInt32)

namespace Driver

section Pass

variable (join : α → α → α) (widths : List ℕ) (max : ℕ) (d : Driver α)

/-- The lifted receipts are there, and nothing is published. -/
def start (leaves : List α) : Driver α where
  ready l p := if l = 0 then leaves[p]? else none
  published _ _ := false
  joins := []
  jout _ := none
  harvesting := false

/-- `widths[l] / 2` -/
def npairs (l : ℕ) : ℕ := widths.getD l 0 / 2

/-- The places of the joins, level by level. -/
def places : List (ℕ × ℕ) :=
  (List.range (widths.length - 1)).flatMap fun l => (List.range (npairs widths l)).map (l, ·)

/-- `ready[l][p] = Some(v)` -/
def set (l p : ℕ) (v : α) : Driver α :=
  { d with ready := Function.update d.ready l (Function.update (d.ready l) p (some v)) }

/-- The join at a place, when its two children have arrived and it has not been queued yet. -/
def due (x : ℕ × ℕ) : Option (Join α) :=
  if d.published x.1 x.2 then none
  else do
    let a ← d.ready x.1 (x.2 * 2)
    let b ← d.ready x.1 (x.2 * 2 + 1)
    return ⟨x.1, x.2, a, b, joinStaysLocal (npairs widths x.1) max⟩

/-- The joins a pass publishes. -/
def todo : List (Join α) := (places widths).filterMap (due widths max d)

def publish : Driver α :=
  { d with
    joins := d.joins ++ todo widths max d
    published := fun l p => d.published l p || (todo widths max d).any (·.place == (l, p)) }

/-- A join that stays here is run at once. -/
def runLocal (j : Join α) : Driver α := d.set (j.level + 1) j.pos (join j.left j.right)

/-- An odd receipt carries forward untouched. -/
def carryAt (l : ℕ) : Driver α :=
  if widths.getD l 0 % 2 = 1 ∧ (d.ready (l + 1) (npairs widths l)).isNone then
    match d.ready l (widths.getD l 0 - 1) with
    | some r => d.set (l + 1) (npairs widths l) r
    | none => d
  else d

/-- Publish, run what stays here, carry. -/
def sweep : Driver α :=
  (List.range (widths.length - 1)).foldl (carryAt widths)
    (((todo widths max d).filter (·.stays)).foldl (runLocal join) (publish widths max d))

def harvestAt (x : ℕ × ℕ) : Driver α :=
  if (d.ready (x.1 + 1) x.2).isSome then d
  else
    match d.jout (joinTag x.1 x.2) with
    | some r => { d.set (x.1 + 1) x.2 r with jout := Function.update d.jout (joinTag x.1 x.2) none }
    | none => d

/-- Collect whatever the workers have returned, keyed by tag. -/
def harvest : Driver α := (places widths).foldl harvestAt d

/-- The receipt of the top level. -/
def root : Option α := d.ready (widths.length - 1) 0

/-- The condition of the loop has failed. -/
def Done : Prop := widths.length - 1 = 0 ∨ (root widths d).isSome

instance : Decidable (Done widths d) := inferInstanceAs (Decidable (_ ∨ _))

/-- One step of the driver, or one answer of a worker. -/
def step (e : TreeEvent) : Driver α :=
  match e with
  | .drive =>
    if d.harvesting then { harvest widths d with harvesting := false }
    else if Done widths d then d
    else { sweep join widths max d with harvesting := true }
  | .answer t =>
    match d.joins.find? fun j => !j.stays && j.tag == t with
    | some j => { d with jout := Function.update d.jout t (some (join j.left j.right)) }
    | none => d

end Pass

/-- The driver after `k` events of a schedule. -/
def after (join : α → α → α) (max : ℕ) (leaves : List α) (e : ℕ → TreeEvent) : ℕ → Driver α
  | 0 => start leaves
  | k + 1 => step join (joinTreeWidths leaves.length) max (after join max leaves e k) (e k)

end Driver

/-! ## The shape of the tree -/

variable {n l p : ℕ}

theorem joinTreeWidths_of_one_lt (h : 1 < n) :
    joinTreeWidths n = n :: joinTreeWidths (width n 1) := by
  have hodd : (if n % 2 = 1 then 1 else 0) = n % 2 := by
    split <;> omega
  rw [joinTreeWidths, if_pos h, hodd]
  rfl

theorem joinTreeWidths_of_le_one (h : n ≤ 1) : joinTreeWidths n = [n] := by
  rw [joinTreeWidths, if_neg (by omega)]

/-- The widths are those of the levels. -/
theorem getD_joinTreeWidths (h : l < (joinTreeWidths n).length) :
    (joinTreeWidths n).getD l 0 = width n l := by
  induction n using Nat.strong_induction_on generalizing l with
  | _ n ih =>
    obtain h1 | h1 := Nat.lt_or_ge 1 n
    · rw [joinTreeWidths_of_one_lt h1] at h ⊢
      cases l with
      | zero => rfl
      | succ l =>
        rw [List.getD_cons_succ, ih (width n 1) (by rw [width_succ, width_zero]; omega)
          (Nat.lt_of_succ_lt_succ h), width_width]
    · rw [joinTreeWidths_of_le_one h1] at h ⊢
      obtain rfl : l = 0 := Nat.lt_one_iff.mp h
      rfl

theorem length_joinTreeWidths_pos : 0 < (joinTreeWidths n).length := by
  rw [joinTreeWidths]
  exact Nat.succ_pos _

/-- The tree ends at one receipt. -/
theorem width_depth (h : 0 < n) : width n ((joinTreeWidths n).length - 1) = 1 := by
  induction n using Nat.strong_induction_on with
  | _ n ih =>
    obtain h1 | h1 := Nat.lt_or_ge 1 n
    · have hlt : width n 1 < n := by
        rw [width_succ, width_zero]
        omega
      rw [joinTreeWidths_of_one_lt h1, List.length_cons, Nat.add_sub_cancel,
        ← Nat.sub_add_cancel (length_joinTreeWidths_pos (n := width n 1)), ← width_width]
      exact ih _ hlt (width_pos h)
    · rw [joinTreeWidths_of_le_one h1]
      exact le_antisymm h1 h

/-- The depth grows with the logarithm of the number of leaves. -/
theorem length_joinTreeWidths_le {e : ℕ} (h : n ≤ 2 ^ e) : (joinTreeWidths n).length ≤ e + 1 := by
  induction e generalizing n with
  | zero =>
    rw [joinTreeWidths_of_le_one h]
    exact le_rfl
  | succ e ih =>
    obtain h1 | h1 := Nat.lt_or_ge 1 n
    · have hhalf : width n 1 ≤ 2 ^ e := by
        rw [width_succ, width_zero]
        omega
      rw [joinTreeWidths_of_one_lt h1, List.length_cons]
      exact Nat.succ_le_succ (ih hhalf)
    · rw [joinTreeWidths_of_le_one h1]
      exact Nat.succ_le_succ (Nat.zero_le _)

/-- The old driver returns the only receipt of the last level. -/
theorem coordinateTree_eq (join : α → α → α) (leaves : List α) :
    coordinateTree join leaves =
      (level join ((joinTreeWidths leaves.length).length - 1) leaves)[0]? := by
  induction leaves using coordinateTree.induct join with
  | case1 leaves h ih =>
    rw [coordinateTree, if_pos h, ih, joinTreeWidths_of_one_lt h, length_nextLevel,
      List.length_cons, Nat.add_sub_cancel, level_nextLevel]
    rw [← Nat.sub_add_cancel (length_joinTreeWidths_pos (n := width leaves.length 1))]
    rfl
  | case2 leaves h =>
    rw [coordinateTree, if_neg h, joinTreeWidths_of_le_one (not_lt.mp h)]
    match leaves, h with
    | [], _ => rfl
    | [a], _ => rfl
    | a :: b :: l, h => exact absurd (by simp) h

namespace Driver

variable {join : α → α → α} {widths : List ℕ} {max : ℕ} {leaves : List α} {d : Driver α}
  {x : ℕ × ℕ} {v : α}

@[simp] theorem mem_places : x ∈ places widths ↔ x.1 < widths.length - 1 ∧ x.2 < npairs widths x.1 := by
  obtain ⟨l, p⟩ := x
  simp [places]

theorem npairs_joinTreeWidths (h : l < (joinTreeWidths n).length - 1) :
    npairs (joinTreeWidths n) l = width n l / 2 := by
  rw [npairs, getD_joinTreeWidths (Nat.lt_of_lt_pred h)]

theorem lt_of_mem_places (h : x ∈ places (joinTreeWidths n)) : x.2 < width n x.1 / 2 := by
  obtain ⟨hl, hp⟩ := mem_places.mp h
  rwa [npairs_joinTreeWidths hl] at hp

/-- No place is listed twice. -/
theorem nodup_places : (places widths).Nodup := by
  refine List.nodup_flatMap.mpr ⟨fun l _ => ?_, ?_⟩
  · exact List.nodup_range.map fun p q h => (Prod.mk.inj h).2
  · refine List.nodup_range.imp fun {l m} hne x hx hx' => ?_
    obtain ⟨p, -, rfl⟩ := List.mem_map.mp hx
    obtain ⟨q, -, h⟩ := List.mem_map.mp hx'
    exact hne (Prod.mk.inj h).1.symm

@[simp] theorem ready_set {l p l' p' : ℕ} :
    (d.set l p v).ready l' p' = if l' = l ∧ p' = p then some v else d.ready l' p' := by
  simp only [set, Function.update_apply]
  by_cases hl : l' = l
  · subst hl
    simp [Function.update_apply]
  · simp [hl]

@[simp] theorem published_set {l p : ℕ} : (d.set l p v).published = d.published := rfl

@[simp] theorem joins_set {l p : ℕ} : (d.set l p v).joins = d.joins := rfl

@[simp] theorem jout_set {l p : ℕ} : (d.set l p v).jout = d.jout := rfl

/-- What is due has both children there and has not been published. -/
theorem due_eq_some {j : Join α} (h : due widths max d x = some j) :
    j.place = x ∧ d.published j.level j.pos = false ∧
      d.ready j.level (j.pos * 2) = some j.left ∧ d.ready j.level (j.pos * 2 + 1) = some j.right := by
  rw [due] at h
  split at h
  · exact absurd h (by simp)
  · next hpub =>
    obtain ⟨a, ha, h⟩ := Option.bind_eq_some_iff.mp h
    obtain ⟨b, hb, h⟩ := Option.bind_eq_some_iff.mp h
    obtain rfl := Option.some.inj h
    exact ⟨rfl, Bool.eq_false_iff.mpr hpub, ha, hb⟩

/-- What a pass publishes has both children there, the left one at the even position. -/
theorem mem_todo {j : Join α} (h : j ∈ todo widths max d) :
    j.place ∈ places widths ∧ d.published j.level j.pos = false ∧
      d.ready j.level (j.pos * 2) = some j.left ∧ d.ready j.level (j.pos * 2 + 1) = some j.right := by
  obtain ⟨x, hx, hdue⟩ := List.mem_filterMap.mp h
  obtain ⟨hplace, hchildren⟩ := due_eq_some hdue
  exact ⟨hplace ▸ hx, hchildren⟩

variable (max) in
/-- A place with both children there is published, unless it was. -/
theorem exists_mem_todo (hx : x ∈ places widths) (hpub : d.published x.1 x.2 = false)
    (ha : (d.ready x.1 (x.2 * 2)).isSome) (hb : (d.ready x.1 (x.2 * 2 + 1)).isSome) :
    ∃ j ∈ todo widths max d, j.place = x := by
  obtain ⟨a, ha⟩ := Option.isSome_iff_exists.mp ha
  obtain ⟨b, hb⟩ := Option.isSome_iff_exists.mp hb
  refine ⟨⟨x.1, x.2, a, b, joinStaysLocal (npairs widths x.1) max⟩, ?_, rfl⟩
  refine List.mem_filterMap.mpr ⟨x, hx, ?_⟩
  rw [due, hpub, ha, hb]
  rfl

/-- A pass publishes no place twice. -/
theorem nodup_todo : ((todo widths max d).map Join.place).Nodup := by
  rw [todo, List.map_filterMap]
  refine nodup_places.filterMap fun x y z hx hy => ?_
  obtain ⟨j, hj, rfl⟩ := Option.map_eq_some_iff.mp hx
  obtain ⟨k, hk, hkj⟩ := Option.map_eq_some_iff.mp hy
  rw [← (due_eq_some hj).1, ← (due_eq_some hk).1, hkj]

/-! ## What every pass keeps -/

variable (join max leaves) in
/-- What the driver holds is the tree's, and what it has published it will recognise. The tree is
    that of the leaves at their final number; an odd node at the end of a level goes up as it is. -/
structure Inv (d : Driver α) : Prop where
  /-- The bottom level has the leaves that have come. -/
  leaf : ∀ p, d.ready 0 p = leaves[p]?
  /-- What stands at a place is what the tree has there. -/
  sound : ∀ {l p v}, d.ready l p = some v → (level join l leaves)[p]? = some v
  /-- No place is published twice. -/
  nodup : (d.joins.map Join.place).Nodup
  /-- The marks are of the joins that were published, and of no others. -/
  published : ∀ {l p}, d.published l p = true ↔ (l, p) ∈ d.joins.map Join.place
  /-- A join was published with both of its children there, and they stay. -/
  children : ∀ j ∈ d.joins, j.place ∈ places (joinTreeWidths leaves.length) ∧
    d.ready j.level (j.pos * 2) = some j.left ∧ d.ready j.level (j.pos * 2 + 1) = some j.right
  /-- An answer is under the tag of a join that was sent away, and is that join's result. -/
  answer : ∀ {t v}, d.jout t = some v →
    ∃ j ∈ d.joins, j.stays = false ∧ j.tag = t ∧ v = join j.left j.right
  /-- A place above the leaves is filled only after its join was published. -/
  built : ∀ {l p}, (l, p) ∈ places (joinTreeWidths leaves.length) →
    (d.ready (l + 1) p).isSome → d.published l p = true
  /-- The odd one at the end of a level was there before it was carried up. -/
  carried : ∀ {l}, l < (joinTreeWidths leaves.length).length - 1 → width leaves.length l % 2 = 1 →
    (d.ready (l + 1) (width leaves.length l / 2)).isSome →
      (d.ready l (width leaves.length l - 1)).isSome

/-- At the start. -/
theorem inv_start : Inv join leaves (start leaves) where
  leaf p := rfl
  sound {l p v} h := by
    cases l with
    | zero => exact h
    | succ l => exact absurd h (by simp [start])
  nodup := List.nodup_nil
  published := by simp [start]
  children j hj := absurd hj List.not_mem_nil
  answer h := absurd h (by simp [start])
  built _ h := absurd h (by simp [start])
  carried _ _ h := absurd h (by simp [start])

/-- A join stands for its two children joined. -/
theorem Inv.value (h : Inv join leaves d) {j : Join α} (hj : j ∈ d.joins) :
    (level join (j.level + 1) leaves)[j.pos]? = some (join j.left j.right) := by
  obtain ⟨-, ha, hb⟩ := h.children j hj
  exact getElem?_nextLevel (h.sound ha) (h.sound hb)

/-- Learning the right receipt for a place above the leaves. -/
theorem Inv.set (h : Inv join leaves d) {l p : ℕ} (hv : (level join (l + 1) leaves)[p]? = some v)
    (hbuilt : (l, p) ∈ places (joinTreeWidths leaves.length) → d.published l p = true)
    (hcarried : width leaves.length l % 2 = 1 → p = width leaves.length l / 2 →
      (d.ready l (width leaves.length l - 1)).isSome) :
    Inv join leaves (d.set (l + 1) p v) where
  leaf q := by simpa using h.leaf q
  sound {l' p' w} hw := by
    rw [ready_set] at hw
    split at hw
    · next heq =>
      obtain ⟨rfl, rfl⟩ := heq
      rw [hv, hw]
    · exact h.sound hw
  nodup := h.nodup
  published := h.published
  children j hj := by
    obtain ⟨hplace, ha, hb⟩ := h.children j hj
    refine ⟨hplace, ?_, ?_⟩
    · rw [ready_set]
      split
      · next heq => rw [← hv, ← heq.1, ← heq.2, h.sound ha]
      · exact ha
    · rw [ready_set]
      split
      · next heq => rw [← hv, ← heq.1, ← heq.2, h.sound hb]
      · exact hb
  answer := h.answer
  -- the place of a join is set only after the join was published
  built {l' p'} hplace hready := by
    rw [ready_set] at hready
    split at hready
    · next heq =>
      obtain ⟨hl, rfl⟩ := heq
      obtain rfl := Nat.succ.inj hl
      exact hbuilt hplace
    · exact h.built hplace hready
  carried {l'} hl hodd hready := by
    have hsrc : (d.ready l' (width leaves.length l' - 1)).isSome := by
      rw [ready_set] at hready
      split at hready
      · next heq =>
        obtain ⟨hl, hp⟩ := heq
        obtain rfl := Nat.succ.inj hl
        exact hcarried hodd hp.symm
      · exact h.carried hl hodd hready
    rw [ready_set]
    split
    · rfl
    · exact hsrc

/-- The joins of a pass are added. -/
theorem mem_publish {j : Join α} :
    j ∈ (publish widths max d).joins ↔ j ∈ d.joins ∨ j ∈ todo widths max d := List.mem_append

/-- What is due is published. -/
theorem Inv.publish (h : Inv join leaves d) :
    Inv join leaves (publish (joinTreeWidths leaves.length) max d) where
  leaf := h.leaf
  sound := h.sound
  nodup := by
    rw [Driver.publish, List.map_append]
    refine h.nodup.append nodup_todo fun x hx hx' => ?_
    obtain ⟨j, hj, rfl⟩ := List.mem_map.mp hx'
    have hpub := (mem_todo hj).2.1
    rw [h.published.mpr hx] at hpub
    exact Bool.noConfusion hpub
  published {l p} := by
    simp only [Driver.publish, Bool.or_eq_true, h.published, List.any_eq_true, beq_iff_eq,
      List.map_append, List.mem_append, List.mem_map]
  children j hj := by
    obtain hj | hj := mem_publish.mp hj
    · exact h.children j hj
    · obtain ⟨hplace, -, hready⟩ := mem_todo hj
      exact ⟨hplace, hready⟩
  answer ht := by
    obtain ⟨j, hj, hrest⟩ := h.answer ht
    exact ⟨j, mem_publish.mpr (.inl hj), hrest⟩
  built hplace hready := by
    rw [Driver.publish, Bool.or_eq_true]
    exact .inl (h.built hplace hready)
  carried := h.carried

/-- A join is run here. -/
theorem Inv.runLocal (h : Inv join leaves d) {j : Join α} (hj : j ∈ d.joins) :
    Inv join leaves (runLocal join d j) :=
  h.set (h.value hj) (fun _ => h.published.mpr (List.mem_map_of_mem hj)) fun hodd hp => by
    have hlt : j.pos < width leaves.length j.level / 2 := lt_of_mem_places (h.children j hj).1
    exact absurd hlt (hp ▸ lt_irrefl _)

/-- An odd receipt is carried up. -/
theorem Inv.carryAt (h : Inv join leaves d) {l : ℕ}
    (hl : l < (joinTreeWidths leaves.length).length - 1) :
    Inv join leaves (carryAt (joinTreeWidths leaves.length) d l) := by
  rw [Driver.carryAt, npairs, getD_joinTreeWidths (Nat.lt_of_lt_pred hl)]
  split
  · next hcond =>
    split
    · next r hr =>
      refine h.set ?_ ?_ ?_
      · rw [level_succ, ← length_level (f := join), getElem?_nextLevel_odd
          (by rw [length_level]; exact hcond.1), length_level]
        exact h.sound hr
      · exact fun hplace => absurd (lt_of_mem_places hplace) (lt_irrefl _)
      · exact fun _ _ => by rw [hr]; rfl
    · exact h
  · exact h

theorem foldl_runLocal_joins (l : List (Join α)) :
    (l.foldl (runLocal join) d).joins = d.joins :=
  List.foldlRecOn l (runLocal join) (motive := fun d' => d'.joins = d.joins) rfl
    fun _ h j _ => (joins_set (v := join j.left j.right)).trans h

theorem Inv.foldl_runLocal (h : Inv join leaves d) {l : List (Join α)} (hl : ∀ j ∈ l, j ∈ d.joins) :
    Inv join leaves (l.foldl (Driver.runLocal join) d) := by
  refine (List.foldlRecOn l (Driver.runLocal join)
    (motive := fun d' => Inv join leaves d' ∧ d'.joins = d.joins) ⟨h, rfl⟩ ?_).1
  rintro d' ⟨h', hjoins⟩ j hj
  exact ⟨h'.runLocal (hjoins ▸ hl j hj), hjoins⟩

/-- The first half of a pass. -/
theorem Inv.sweep (h : Inv join leaves d) :
    Inv join leaves (sweep join (joinTreeWidths leaves.length) max d) := by
  refine List.foldlRecOn _ _ ?_ fun d' h' l hl => h'.carryAt (List.mem_range.mp hl)
  refine h.publish.foldl_runLocal fun j hj => ?_
  exact mem_publish.mpr (.inr (List.mem_of_mem_filter hj))

/-- The level and the position fit into the bits that a tag has for them. -/
theorem place_bounds (hn : n ≤ 2 ^ 17 + 1) (hx : x ∈ places (joinTreeWidths n)) :
    x.1 < 2 ^ 14 ∧ x.2 < 2 ^ 16 := by
  have hlen := length_joinTreeWidths_le (n := n) (e := 18) (by omega)
  have hw := lt_of_mem_places hx
  have hle := width_le (n := n) (k := x.1)
  have hl := (mem_places.mp hx).1
  omega

/-- A tag names one place of the tree, for as many leaves as there can be: with one more the first
level has a position that does not fit. -/
theorem place_of_tag (hn : n ≤ 2 ^ 17 + 1) {y : ℕ × ℕ} (hx : x ∈ places (joinTreeWidths n))
    (hy : y ∈ places (joinTreeWidths n)) (h : joinTag x.1 x.2 = joinTag y.1 y.2) : x = y := by
  obtain ⟨hxl, hxp⟩ := place_bounds hn hx
  obtain ⟨hyl, hyp⟩ := place_bounds hn hy
  obtain ⟨hl, hp⟩ := joinTag_inj (by omega) hxp (by omega) hyp h
  exact Prod.ext hl hp

/-- A result goes to its place, which its tag names. -/
theorem Inv.harvestAt (hn : leaves.length < 2 ^ 17) (h : Inv join leaves d)
    (hx : x ∈ places (joinTreeWidths leaves.length)) : Inv join leaves (harvestAt d x) := by
  rw [Driver.harvestAt]
  split
  · exact h
  · split
    · next r hr =>
      obtain ⟨j, hj, -, htag, rfl⟩ := h.answer hr
      obtain rfl : j.place = x := place_of_tag (by omega) (h.children j hj).1 hx htag
      have hset := h.set (h.value hj) (fun _ => h.published.mpr (List.mem_map_of_mem hj))
        fun _ hp => absurd (lt_of_mem_places hx) (hp ▸ lt_irrefl _)
      refine { hset with answer := fun {t v} ht => ?_ }
      replace ht : Function.update d.jout (joinTag j.level j.pos) none t = some v := ht
      rw [Function.update_apply] at ht
      split at ht
      · exact absurd ht (by simp)
      · exact h.answer ht
    · exact h

theorem Inv.harvest (hn : leaves.length < 2 ^ 17) (h : Inv join leaves d) :
    Inv join leaves (harvest (joinTreeWidths leaves.length) d) :=
  List.foldlRecOn _ _ h fun _ h' _ hx => h'.harvestAt hn hx

/-- A step, of the driver or of a worker. -/
theorem Inv.step (hn : leaves.length < 2 ^ 17) (h : Inv join leaves d) (e : TreeEvent) :
    Inv join leaves (step join (joinTreeWidths leaves.length) max d e) := by
  cases e with
  | drive =>
    rw [Driver.step]
    split
    · exact { h.harvest hn with }
    · split
      · exact h
      · exact { h.sweep with }
  | answer t =>
    rw [Driver.step]
    split
    · next j hj =>
      obtain ⟨hstays, htag⟩ : j.stays = false ∧ j.tag = t := by simpa using List.find?_some hj
      refine { h with answer := fun {t' v} ht => ?_ }
      replace ht : Function.update d.jout t (some (join j.left j.right)) t' = some v := ht
      rw [Function.update_apply] at ht
      split at ht
      · next heq =>
        exact ⟨j, List.mem_of_find?_eq_some hj, hstays, heq ▸ htag, (Option.some.inj ht).symm⟩
      · exact h.answer ht
    · exact h

variable (join max) in
/-- And so along every schedule. -/
theorem inv_after (hn : leaves.length < 2 ^ 17) (e : ℕ → TreeEvent) (k : ℕ) :
    Inv join leaves (after join max leaves e k) := by
  induction k with
  | zero => exact inv_start
  | succ k ih => exact ih.step hn (e k)

end Driver

end Hazync.SegServe
