import Mathlib.Data.List.Induction
import Mathlib.Data.List.Sort
import Mathlib.Logic.Function.Basic
import Mathlib.Order.Defs.LinearOrder
import Mathlib.Tactic.Common

/-!
# Ordered maps

A finite map as the list of its entries in the order of their keys. The order is a field, so two
maps with the same lookups are the same map (`ext_get?`), whatever was inserted and erased on
the way. `get?` of an update is `Function.update` of `get?`.

`partitionPoint` is the length of the part of a list before the first element that fails a
test. On a list where the elements that pass come first it cuts the list into those that pass
and those that fail.

## Maps that are iterated

A hash table and an ordered map have the same lookups. The difference is what one gets by going
through the entries, and a program that writes a file, or hashes one entry after the other, depends
on it. So the order belongs to the type here. There is only one list of entries for given lookups,
and two maps that agree on all keys write the same file.

For everything else a map is the function from keys to optional values. The updates are
`Function.update` of it, one at a time or many in a row; of several entries of one key the last
wins. The statements on `Perm` say what happens to the multiset of entries, for sums over a map.
-/

/-- A map kept as its entries, by increasing key. -/
structure SortedMap (K V : Type*) [LinearOrder K] where
  entries : List (K × V)
  sorted : entries.Pairwise fun a b => a.1 < b.1

namespace SortedMap

variable {K V : Type*} [LinearOrder K]

instance [DecidableEq V] : DecidableEq (SortedMap K V) := fun m n =>
  decidable_of_iff (m.entries = n.entries) ⟨fun h => by cases m; cases n; cases h; rfl, congrArg _⟩

/-- The map with no entries. -/
def empty : SortedMap K V := ⟨[], .nil⟩

/-- The value of a key. -/
def get? (m : SortedMap K V) (k : K) : Option V :=
  (m.entries.find? fun e => e.1 = k).map Prod.snd

/-- The entries below the key, the new entry, the entries above the key. -/
def insert (m : SortedMap K V) (k : K) (v : V) : SortedMap K V where
  entries := m.entries.filter (fun e => e.1 < k) ++ (k, v) :: m.entries.filter fun e => k < e.1
  sorted := by
    refine List.pairwise_append.mpr ⟨m.sorted.filter _,
      List.pairwise_cons.mpr ⟨fun e he => ?_, m.sorted.filter _⟩, fun a ha b hb => ?_⟩
    · exact of_decide_eq_true (List.mem_filter.mp he).2
    · have hak : a.1 < k := of_decide_eq_true (List.mem_filter.mp ha).2
      rcases List.mem_cons.mp hb with rfl | hb
      · exact hak
      · exact hak.trans (of_decide_eq_true (List.mem_filter.mp hb).2)

/-- Without the entry of the key, if there is one. -/
def erase (m : SortedMap K V) (k : K) : SortedMap K V where
  entries := m.entries.filter fun e => e.1 ≠ k
  sorted := m.sorted.filter _

/-- The entries with keys from `lo` to `hi`, both included. -/
def range (m : SortedMap K V) (lo hi : K) : List (K × V) :=
  m.entries.filter fun e => lo ≤ e.1 ∧ e.1 ≤ hi

variable {m m' : SortedMap K V} {k l : K} {v : V}

/-- A key has one entry. -/
theorem nodup_keys (m : SortedMap K V) : (m.entries.map Prod.fst).Nodup :=
  List.pairwise_map.mpr (m.sorted.imp fun h => h.ne)

/-- A lookup finds the entry of the key. -/
theorem get?_eq_some : m.get? k = some v ↔ (k, v) ∈ m.entries := by
  rw [get?, Option.map_eq_some_iff]
  constructor
  · rintro ⟨⟨l, w⟩, hfind, rfl⟩
    obtain rfl : l = k := by simpa using List.find?_some hfind
    exact List.mem_of_find?_eq_some hfind
  · intro hmem
    cases hfind : m.entries.find? fun e => e.1 = k with
    | none =>
      have hne := List.find?_eq_none.mp hfind (k, v) hmem
      exact absurd (decide_eq_true rfl) hne
    | some e =>
      have hk : e.1 = k := by simpa using List.find?_some hfind
      have he := List.inj_on_of_nodup_map m.nodup_keys (List.mem_of_find?_eq_some hfind) hmem hk
      exact ⟨(k, v), congrArg some he, rfl⟩

/-- The entries are the lookups. -/
theorem mem_entries {e : K × V} : e ∈ m.entries ↔ m.get? e.1 = some e.2 := get?_eq_some.symm

/-- And none is found where there is no entry. -/
theorem get?_eq_none : m.get? k = none ↔ ∀ v, (k, v) ∉ m.entries := by
  simp only [← get?_eq_some, Option.eq_none_iff_forall_ne_some, ne_eq]

/-- A map is its lookups. -/
theorem ext_get? (h : ∀ k, m.get? k = m'.get? k) : m = m' := by
  have hmem : ∀ e, e ∈ m.entries ↔ e ∈ m'.entries := by
    intro e
    rw [mem_entries, mem_entries, h]
  have hperm : m.entries.Perm m'.entries :=
    (List.perm_ext_iff_of_nodup (List.Nodup.of_map _ m.nodup_keys)
      (List.Nodup.of_map _ m'.nodup_keys)).mpr hmem
  have hentries : m.entries = m'.entries :=
    hperm.eq_of_pairwise (fun a b _ _ hab hba => absurd hab hba.not_gt) m.sorted m'.sorted
  cases m
  cases hentries
  rfl

@[simp] theorem get?_empty : (empty : SortedMap K V).get? k = none := rfl

/-- The key has the new value, and the others what they had. -/
theorem get?_insert (m : SortedMap K V) (k : K) (v : V) :
    (m.insert k v).get? = Function.update m.get? k (some v) := by
  funext l
  refine Option.ext fun w => ?_
  rw [get?_eq_some, insert, List.mem_append, List.mem_cons, List.mem_filter, List.mem_filter,
    ← get?_eq_some, decide_eq_true_iff, decide_eq_true_iff, Prod.mk.injEq]
  by_cases hl : l = k
  · subst hl
    simp only [lt_irrefl, and_false, true_and, false_or, or_false, Function.update_self,
      Option.some.injEq, eq_comm]
  · rw [Function.update_of_ne hl]
    constructor
    · rintro (⟨h, -⟩ | ⟨h, -⟩ | ⟨h, -⟩)
      · exact h
      · exact absurd h hl
      · exact h
    · intro h
      rcases lt_or_gt_of_ne hl with hlt | hgt
      · exact .inl ⟨h, hlt⟩
      · exact .inr (.inr ⟨h, hgt⟩)

/-- The key has none, and the others what they had. -/
theorem get?_erase (m : SortedMap K V) (k : K) :
    (m.erase k).get? = Function.update m.get? k none := by
  funext l
  refine Option.ext fun w => ?_
  rw [get?_eq_some, erase, List.mem_filter, ← get?_eq_some, decide_eq_true_iff]
  by_cases hl : l = k
  · subst hl
    simp only [ne_eq, not_true_eq_false, and_false, Function.update_self, reduceCtorEq]
  · rw [Function.update_of_ne hl]
    exact and_iff_left hl

/-- A map without lookups is empty. -/
theorem entries_eq_nil : m.entries = [] ↔ ∀ k, m.get? k = none := by
  rw [List.eq_nil_iff_forall_not_mem]
  constructor
  · intro h k
    exact get?_eq_none.mpr fun v => h (k, v)
  · intro h e he
    rw [mem_entries, h] at he
    cases he

/-- Taking an entry out leaves the others. -/
theorem entries_erase (h : m.get? k = some v) : m.entries.Perm ((k, v) :: (m.erase k).entries) := by
  have hnot : (k, v) ∉ (m.erase k).entries := by
    rw [← get?_eq_some, get?_erase, Function.update_self]
    exact nofun
  refine (List.perm_ext_iff_of_nodup (.of_map _ m.nodup_keys)
    (List.nodup_cons.mpr ⟨hnot, .of_map _ (m.erase k).nodup_keys⟩)).mpr fun e => ?_
  rw [List.mem_cons, mem_entries, mem_entries, get?_erase]
  by_cases hk : e.1 = k
  · rw [hk, Function.update_self, h]
    constructor
    · intro hv
      exact .inl (Prod.ext hk (Option.some.inj hv).symm)
    · rintro (rfl | hv)
      · rfl
      · cases hv
  · rw [Function.update_of_ne hk]
    exact ⟨.inr, fun h => h.resolve_left fun he => hk (congrArg Prod.fst he)⟩

/-- Putting an entry in at a new key keeps the others. -/
theorem entries_insert (h : m.get? k = none) :
    (m.insert k v).entries.Perm ((k, v) :: m.entries) := by
  have hself : (m.insert k v).get? k = some v := by rw [get?_insert, Function.update_self]
  refine (entries_erase hself).trans (List.Perm.cons _ (List.Perm.of_eq ?_))
  refine congrArg entries (ext_get? fun l => ?_)
  rw [get?_erase, get?_insert, Function.update_idem]
  by_cases hl : l = k
  · rw [hl, Function.update_self, h]
  · rw [Function.update_of_ne hl]

/-! ## Many updates -/

def eraseAll (m : SortedMap K V) (ks : List K) : SortedMap K V := ks.foldl erase m

def insertAll (m : SortedMap K V) (es : List (K × V)) : SortedMap K V :=
  es.foldl (fun m e => m.insert e.1 e.2) m

/-- Keys that are taken out have no value. -/
theorem get?_eraseAll (m : SortedMap K V) (ks : List K) (k : K) :
    (m.eraseAll ks).get? k = if k ∈ ks then none else m.get? k := by
  induction ks generalizing m with
  | nil => simp [eraseAll]
  | cons l ks ih =>
    rw [eraseAll, List.foldl_cons]
    refine (ih (m.erase l)).trans ?_
    rw [get?_erase]
    by_cases hl : k = l
    · simp [hl]
    · simp [hl]

/-- The last entry of a key wins. -/
theorem get?_insertAll (m : SortedMap K V) (es : List (K × V)) (k : K) :
    (m.insertAll es).get? k =
      ((es.reverse.find? fun e => e.1 = k).map Prod.snd).or (m.get? k) := by
  induction es using List.reverseRecOn with
  | nil => rfl
  | append_singleton es e ih =>
    rw [insertAll, List.foldl_concat, List.reverse_concat, List.find?_cons, get?_insert]
    by_cases hk : k = e.1
    · rw [hk, Function.update_self, decide_eq_true rfl]
      rfl
    · rw [Function.update_of_ne hk, decide_eq_false (Ne.symm hk)]
      exact ih

/-- A key that no entry is for keeps its value. -/
theorem get?_insertAll_of_notMem {es : List (K × V)} (h : k ∉ es.map Prod.fst) :
    (m.insertAll es).get? k = m.get? k := by
  rw [get?_insertAll, List.find?_eq_none.mpr, Option.map_none, Option.none_or]
  intro e he hk
  exact h (List.mem_map.mpr ⟨e, List.mem_reverse.mp he, of_decide_eq_true hk⟩)

/-- Entries with distinct keys are all there. -/
theorem get?_insertAll_of_mem {es : List (K × V)} (hkeys : (es.map Prod.fst).Nodup)
    (h : (k, v) ∈ es) : (m.insertAll es).get? k = some v := by
  obtain ⟨e, he⟩ : ∃ e, (es.reverse.find? fun e => e.1 = k) = some e := by
    rw [← Option.isSome_iff_exists, List.find?_isSome]
    exact ⟨(k, v), List.mem_reverse.mpr h, decide_eq_true rfl⟩
  have hk : e.1 = k := by simpa using List.find?_some he
  have hmem : e ∈ es := List.mem_reverse.mp (List.mem_of_find?_eq_some he)
  obtain rfl := List.inj_on_of_nodup_map hkeys hmem h hk
  rw [get?_insertAll, he]
  rfl

/-- Entries at new keys, each of its own, are as many more. -/
theorem length_entries_insertAll {es : List (K × V)} (hkeys : (es.map Prod.fst).Nodup)
    (hnew : ∀ e ∈ es, m.get? e.1 = none) :
    (m.insertAll es).entries.length = m.entries.length + es.length := by
  induction es generalizing m with
  | nil => rfl
  | cons e es ih =>
    obtain ⟨he, hkeys⟩ := List.nodup_cons.mp hkeys
    rw [insertAll, List.foldl_cons]
    refine (ih (m := m.insert e.1 e.2) hkeys ?_).trans ?_
    · intro e' he'
      have hne : e'.1 ≠ e.1 := fun heq => he (heq ▸ List.mem_map_of_mem he')
      rw [get?_insert, Function.update_of_ne hne]
      exact hnew e' (List.mem_cons_of_mem _ he')
    · rw [(entries_insert (hnew e List.mem_cons_self)).length_eq, List.length_cons, List.length_cons]
      omega

/-- An entry of the whole is one of the new or one of the old. -/
theorem mem_entries_insertAll {es : List (K × V)} {e : K × V} (h : e ∈ (m.insertAll es).entries) :
    e.1 ∈ es.map Prod.fst ∨ e ∈ m.entries := by
  by_cases hmem : e.1 ∈ es.map Prod.fst
  · exact .inl hmem
  · right
    rw [mem_entries, get?_insertAll_of_notMem hmem] at h
    exact mem_entries.mpr h

/-! ## The cut of a partitioned list -/

section Partition

variable {α : Type*} {p : α → Bool} {xs : List α}

/-- How many elements come before the first one that fails `p`. -/
def partitionPoint (p : α → Bool) (xs : List α) : ℕ := (xs.takeWhile p).length

@[simp] theorem partitionPoint_cons (p : α → Bool) (x : α) (xs : List α) :
    partitionPoint p (x :: xs) = if p x then partitionPoint p xs + 1 else 0 := by
  rw [partitionPoint, List.takeWhile_cons]
  split <;> rfl

/-- Where the elements that pass come first, the cut is between those that pass and the rest. -/
theorem split_partitionPoint (h : xs.Pairwise fun a b => p b = true → p a = true) :
    xs.take (partitionPoint p xs) = xs.filter p ∧
      xs.drop (partitionPoint p xs) = xs.filter (!p ·) := by
  induction xs with
  | nil => exact ⟨rfl, rfl⟩
  | cons x xs ih =>
    obtain ⟨hx, hxs⟩ := List.pairwise_cons.mp h
    cases hpx : p x with
    | true =>
      obtain ⟨htake, hdrop⟩ := ih hxs
      rw [partitionPoint_cons, if_pos hpx, List.take_succ_cons, List.drop_succ_cons, htake, hdrop,
        List.filter_cons_of_pos hpx, List.filter_cons_of_neg (by rw [hpx]; decide)]
      exact ⟨rfl, rfl⟩
    | false =>
      have hfail : ∀ y ∈ xs, p y = false := by
        intro y hy
        by_contra hpy
        rw [hx y hy (by simpa using hpy)] at hpx
        cases hpx
      have hnone : xs.filter p = [] := by
        refine List.filter_eq_nil_iff.mpr fun y hy => ?_
        rw [hfail y hy]
        decide
      have hall : xs.filter (!p ·) = xs := by
        refine List.filter_eq_self.mpr fun y hy => ?_
        rw [hfail y hy]
        rfl
      rw [partitionPoint_cons, if_neg (by rw [hpx]; decide), List.take_zero, List.drop_zero,
        List.filter_cons_of_neg (by rw [hpx]; decide), hnone,
        List.filter_cons_of_pos (by rw [hpx]; rfl), hall]
      exact ⟨rfl, rfl⟩

end Partition

end SortedMap
