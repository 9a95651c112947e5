import Hazync.Lib.MerkleForest

/-!
# Caching the levels of a forest

`IsCache L C` says that `C` holds the levels above `L`, from the lowest up and none of them empty.
There is exactly one such `C`. An update that has not finished leaves a cache wrong at the entries
above one position and right everywhere else: `IsCacheExcept L i C`, in which every stored entry is
compared with the *stored* level below it, so that overwriting position `i` disturbs nothing.

## Wrong in one place

A forest whose levels are cached has to change the cache whenever a leaf changes. The update of one
position goes up from it, a node on each level, so that for a time the lower levels are new and the
upper ones old. An invariant for this is needed that is true at every step. What is wrong at any
time are the entries above the position, one on each level.

One could say that the cache differs from the right one in these entries. This is awkward, since the
entry that was written last is right, and is next to others that are not. `IsCacheExcept` instead
compares each entry with the ones below it that are stored, right or wrong, and leaves out one entry
on each level. Then a write at the excepted entry of one level changes nothing that is compared
there, and puts the exception one level up.
-/

namespace MerkleForest

variable {α : Type*} (node : α → α → α)

/-- `C` is the list of the nonempty levels above `L`. -/
def IsCache : List α → List (List α) → Prop
  | L, [] => L.length < 2
  | L, u :: C => 2 ≤ L.length ∧ u = pairUp node L ∧ IsCache u C

/-- As `IsCache`, but for the entries above position `i`. -/
def IsCacheExcept : List α → ℕ → List (List α) → Prop
  | L, _, [] => L.length < 2
  | L, i, u :: C => 2 ≤ L.length ∧ u.length = L.length / 2 ∧
      (∀ j, j ≠ i / 2 → u[j]? = (pairUp node L)[j]?) ∧ IsCacheExcept u (i / 2) C

variable {node} {L : List α} {C : List (List α)}

@[simp] theorem isCache_nil : IsCache node L [] ↔ L.length < 2 := Iff.rfl

@[simp] theorem isCache_cons {u : List α} :
    IsCache node L (u :: C) ↔ 2 ≤ L.length ∧ u = pairUp node L ∧ IsCache node u C := Iff.rfl

/-- The cache is determined by the level below it. -/
theorem IsCache.unique {D : List (List α)} (hC : IsCache node L C) (hD : IsCache node L D) :
    C = D := by
  induction C generalizing L D with
  | nil =>
    cases D with
    | nil => rfl
    | cons u D => exact absurd hD.1 (by rw [isCache_nil] at hC; omega)
  | cons u C ih =>
    cases D with
    | nil => exact absurd hC.1 (by rw [isCache_nil] at hD; omega)
    | cons v D =>
      obtain ⟨-, rfl, hC⟩ := hC
      obtain ⟨-, rfl, hD⟩ := hD
      rw [ih hC hD]

/-- A nonempty level above the list is in the cache, at its height. -/
theorem IsCache.getElem? (h : IsCache node L C) {k : ℕ} (hk : 0 < L.length / 2 ^ (k + 1)) :
    C[k]? = some (level node (k + 1) L) := by
  induction C generalizing L k with
  | nil =>
    rw [isCache_nil] at h
    rw [pow_succ', ← Nat.div_div_eq_div_mul, show L.length / 2 = 0 by omega] at hk
    simp at hk
  | cons u C ih =>
    obtain ⟨-, rfl, hC⟩ := h
    cases k with
    | zero => rfl
    | succ k =>
      rw [List.getElem?_cons_succ, ih hC, level_succ node (k + 1)]
      rw [length_pairUp, Nat.div_div_eq_div_mul, ← pow_succ']
      exact hk

/-- What the cache holds at a height, it holds rightly, and it holds no empty level. -/
theorem IsCache.of_getElem? (h : IsCache node L C) {k : ℕ} {u : List α} (hu : C[k]? = some u) :
    u = level node (k + 1) L ∧ 0 < u.length := by
  induction C generalizing L k with
  | nil => simp at hu
  | cons v C ih =>
    obtain ⟨hlen, rfl, hC⟩ := h
    cases k with
    | zero =>
      obtain rfl := Option.some.inj hu
      exact ⟨rfl, by rw [length_pairUp]; omega⟩
    | succ k => exact ih hC hu

/-- A right cache is right but for any position. -/
theorem IsCache.except (h : IsCache node L C) (i : ℕ) : IsCacheExcept node L i C := by
  induction C generalizing L i with
  | nil => exact h
  | cons u C ih =>
    obtain ⟨hlen, rfl, hC⟩ := h
    exact ⟨hlen, length_pairUp node L, fun _ _ => rfl, ih hC _⟩

/-- The excepted entries do not depend on what position `i` holds. -/
theorem IsCacheExcept.set {i : ℕ} (h : IsCacheExcept node L i C) (x : α) :
    IsCacheExcept node (L.set i x) i C := by
  cases C with
  | nil => simpa [IsCacheExcept] using h
  | cons u C =>
    obtain ⟨hlen, hu, hval, hC⟩ := h
    refine ⟨by simpa using hlen, by simpa using hu, fun j hj => ?_, hC⟩
    rw [hval j hj, getElem?_pairUp, getElem?_pairUp, List.getElem?_set_ne (by omega),
      List.getElem?_set_ne (by omega)]

/-- An exception past the end is none. -/
theorem IsCacheExcept.isCache {i : ℕ} (h : IsCacheExcept node L i C) (hi : L.length ≤ i) :
    IsCache node L C := by
  induction C generalizing L i with
  | nil => exact h
  | cons u C ih =>
    obtain ⟨hlen, hu, hval, hC⟩ := h
    refine ⟨hlen, ?_, ih hC (by omega)⟩
    apply List.ext_getElem?
    intro j
    rcases Nat.lt_or_ge j u.length with hlt | hge
    · exact hval j (by omega)
    · rw [List.getElem?_eq_none hge, List.getElem?_eq_none (by rw [length_pairUp]; omega)]

end MerkleForest
