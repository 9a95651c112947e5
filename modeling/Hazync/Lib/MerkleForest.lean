import Mathlib.Data.List.Basic
import Mathlib.Data.Nat.Bitwise
import Mathlib.Data.Nat.Log
import Mathlib.Data.Option.NAry
import Mathlib.Tactic.Common
import Mathlib.Tactic.Positivity
import Mathlib.Tactic.Ring

/-!
# The forest of perfect trees over a list, level by level

A list of `n` entries determines one perfect binary tree per set bit of `n`, laid out left to
right in descending height. Reading the trees one at a time needs offsets; reading them one
*level* at a time does not: `pairUp` combines the entries of a level two by two and drops an
unpaired last one, and the root of the tree of height `h` is exactly the entry that `pairUp`
would drop from the `h`-th level (`peak`). Every operation on the list — append, overwrite,
drop the last entry — acts on the levels by the same operation or by nothing at all, so each
fact about roots and authentication paths is one induction over the levels.

Nothing here is about hashes: `node` is any binary operation, and the facts that need a
one-to-one `node` take that as a hypothesis.

## Climbing

A proof that an entry is in the forest is a list of siblings, from the bottom up. Checking one is a
`climb`: the entry is joined with the first sibling, the result with the second, and so on. At each
step the position says on which side the sibling stands, and is then halved. That a climb along the
true siblings ends at the true root (`peak_climb`) needs nothing of `node`.

The converse is what makes proofs worth something. If a climb ends at a root, and `node` is
one-to-one, then from the root down each step of the climb had to be between the two true entries,
and the value at the bottom is the entry at the position (`climb_sound`). Neither the siblings nor
the value is assumed honest here. The same argument, for all peaks at once, says that roots and
number of entries determine the list (`eq_of_peak_eq`).

## Positions and trees

Which tree a position is in is a matter of the binary digits of the number of entries: `InTree n i
h` says that bit `h` of `n` is set and that `i`, without its low `h` bits, is the last such stretch
of the prefix of `n`. A position is in exactly one tree. A change at a position changes the root of
that tree and no other (`peak_set`), and dropping the last entry takes away the lowest tree, of
which the siblings along the path become the new lower roots (`peak_dropLast`).
-/

namespace MerkleForest

variable {α : Type*} (node : α → α → α)

/-! ## One level up -/

/-- The level above `L`: adjacent entries combined, an unpaired last entry dropped. -/
def pairUp : List α → List α
  | a :: b :: rest => node a b :: pairUp rest
  | [_] => []
  | [] => []

@[simp] theorem pairUp_nil : pairUp node [] = [] := rfl

@[simp] theorem pairUp_singleton (a : α) : pairUp node [a] = [] := rfl

@[simp] theorem pairUp_cons_cons (a b : α) (L : List α) :
    pairUp node (a :: b :: L) = node a b :: pairUp node L := rfl

@[simp] theorem length_pairUp (L : List α) : (pairUp node L).length = L.length / 2 := by
  induction L using pairUp.induct with
  | case1 a b rest ih => simp only [pairUp_cons_cons, List.length_cons, ih]; omega
  | case2 a => simp
  | case3 => simp

/-- An entry of the level above is of two below. -/
theorem getElem?_pairUp (L : List α) (j : ℕ) :
    (pairUp node L)[j]? = Option.map₂ node L[2 * j]? L[2 * j + 1]? := by
  induction L using pairUp.induct generalizing j with
  | case1 a b rest ih =>
    cases j with
    | zero => rfl
    | succ j =>
      rw [pairUp_cons_cons, List.getElem?_cons_succ, ih]
      rw [show 2 * (j + 1) = 2 * j + 1 + 1 by omega]
      simp only [List.getElem?_cons_succ]
  | case2 a => simp
  | case3 => simp

/-- The entry a level pairs position `i` with. -/
def sib (i : ℕ) : ℕ := if i % 2 = 0 then i + 1 else i - 1

/-- An even position is paired with the next. -/
theorem sib_of_even {i : ℕ} (h : i % 2 = 0) : sib i = i + 1 := if_pos h

/-- An odd one with the one before. -/
theorem sib_of_odd {i : ℕ} (h : i % 2 = 1) : sib i = i - 1 := if_neg (by omega)

/-- An even shift moves a position and its sibling alike. -/
theorem sib_two_mul_add (a i : ℕ) : sib (2 * a + i) = 2 * a + sib i := by
  unfold sib
  split <;> split <;> omega

/-- A pair lies within an even number of entries, or outside. -/
theorem sib_lt_two_mul {a i : ℕ} (h : i < 2 * a) : sib i < 2 * a := by
  unfold sib
  split <;> omega

/-- As a program computes it. -/
theorem xor_one_eq_sib (i : ℕ) : i ^^^ 1 = sib i := by
  unfold sib
  rcases Nat.mod_two_eq_zero_or_one i with h | h
  · rw [if_pos h, Nat.xor_one_of_even (Nat.even_iff.mpr h)]
  · rw [if_neg (by omega), Nat.xor_one_of_odd (Nat.odd_iff.mpr h)]

/-- The parent of `x` at position `i` and its sibling `s`. -/
def join (i : ℕ) (x s : α) : α := if i % 2 = 0 then node x s else node s x

/-- What the entry above positions `i` and `sib i` is. -/
theorem getElem?_pairUp_half {L : List α} {i : ℕ} {x s : α} (hx : L[i]? = some x)
    (hs : L[sib i]? = some s) : (pairUp node L)[i / 2]? = some (join node i x s) := by
  rw [getElem?_pairUp]
  rcases Nat.mod_two_eq_zero_or_one i with h | h
  · rw [sib_of_even h] at hs
    rw [show 2 * (i / 2) = i by omega, hx, hs]
    simp [join, h]
  · rw [sib_of_odd h] at hs
    rw [show 2 * (i / 2) = i - 1 by omega, show i - 1 + 1 = i by omega, hx, hs]
    simp [join, h]

/-! ## How append, take and overwrite act on the level above -/

/-- An entry with no neighbour yet changes nothing above. -/
theorem pairUp_append_of_even {L : List α} (x : α) (h : L.length % 2 = 0) :
    pairUp node (L ++ [x]) = pairUp node L := by
  induction L using pairUp.induct with
  | case1 a b rest ih =>
    rw [List.cons_append, List.cons_append, pairUp_cons_cons, pairUp_cons_cons, ih]
    simp only [List.length_cons] at h
    omega
  | case2 a => simp at h
  | case3 => rfl

/-- The entry that has its neighbour by now. -/
theorem pairUp_append_of_odd {L : List α} {y : α} (x : α) (h : L.length % 2 = 1)
    (hy : L.getLast? = some y) : pairUp node (L ++ [x]) = pairUp node L ++ [node y x] := by
  induction L using pairUp.induct with
  | case1 a b rest ih =>
    have hlen : rest.length % 2 = 1 := by simp only [List.length_cons] at h; omega
    have hne : rest ≠ [] := by rintro rfl; simp at hlen
    obtain ⟨c, t, rfl⟩ := List.exists_cons_of_ne_nil hne
    have hy' : (c :: t).getLast? = some y := by simpa [List.getLast?_cons_cons] using hy
    rw [List.cons_append, List.cons_append, pairUp_cons_cons, ih hlen hy']
    rfl
  | case2 a => simp at hy; simp [hy]
  | case3 => simp at h

/-- A prefix of a level is under the prefix of half its length. -/
theorem pairUp_take (L : List α) (k : ℕ) :
    pairUp node (L.take k) = (pairUp node L).take (k / 2) := by
  apply List.ext_getElem?
  intro j
  simp only [getElem?_pairUp, List.getElem?_take]
  by_cases h : j < k / 2
  · rw [if_pos h, if_pos (by omega), if_pos (by omega)]
  · rw [if_neg h, if_neg (by omega : ¬ 2 * j + 1 < k), Option.map₂_none_right]

/-- So is what is behind a prefix. -/
theorem pairUp_drop (L : List α) (k : ℕ) :
    pairUp node (L.drop (2 * k)) = (pairUp node L).drop k := by
  apply List.ext_getElem?
  intro j
  simp only [getElem?_pairUp, List.getElem?_drop]
  rw [show 2 * k + 2 * j = 2 * (k + j) by omega,
    show 2 * k + (2 * j + 1) = 2 * (k + j) + 1 by omega]

theorem pairUp_dropLast_of_even {L : List α} (h : L.length % 2 = 0) :
    pairUp node L.dropLast = (pairUp node L).dropLast := by
  rw [List.dropLast_eq_take, List.dropLast_eq_take, pairUp_take, length_pairUp]
  congr 1
  omega

/-- The last entry had no neighbour, and nothing above is lost. -/
theorem pairUp_dropLast_of_odd {L : List α} (h : L.length % 2 = 1) :
    pairUp node L.dropLast = pairUp node L := by
  rw [List.dropLast_eq_take, pairUp_take]
  apply List.take_of_length_le
  rw [length_pairUp]
  omega

/-- Overwriting a paired entry overwrites its parent. -/
theorem pairUp_set {L : List α} {i : ℕ} {s : α} (x : α) (hs : L[sib i]? = some s)
    (hi : i < L.length) :
    pairUp node (L.set i x) = (pairUp node L).set (i / 2) (join node i x s) := by
  have hsl : sib i < L.length := (List.getElem?_eq_some_iff.mp hs).1
  apply List.ext_getElem?
  intro j
  rw [getElem?_pairUp, List.getElem?_set, List.getElem?_set, List.getElem?_set,
    getElem?_pairUp, length_pairUp]
  rcases Nat.mod_two_eq_zero_or_one i with h | h
  · rw [sib_of_even h] at hs hsl
    by_cases hj : i / 2 = j
    · subst hj
      rw [if_pos (by omega), if_pos hi, if_neg (by omega), if_pos rfl, if_pos (by omega)]
      rw [show 2 * (i / 2) + 1 = i + 1 by omega, hs]
      simp [join, h]
    · rw [if_neg (by omega), if_neg (by omega), if_neg hj]
  · rw [sib_of_odd h] at hs hsl
    by_cases hj : i / 2 = j
    · subst hj
      rw [if_neg (by omega), if_pos (by omega), if_pos hi, if_pos rfl, if_pos (by omega)]
      rw [show 2 * (i / 2) = i - 1 by omega, hs]
      simp [join, h]
    · rw [if_neg (by omega), if_neg (by omega), if_neg hj]

/-- Overwriting the unpaired last entry changes nothing above. -/
theorem pairUp_set_last {L : List α} {i : ℕ} (x : α) (hodd : L.length % 2 = 1)
    (hi : i + 1 = L.length) : pairUp node (L.set i x) = pairUp node L := by
  apply List.ext_getElem?
  intro j
  rw [getElem?_pairUp, getElem?_pairUp, List.getElem?_set, List.getElem?_set]
  by_cases hj : i = 2 * j
  · have h1 : L[2 * j + 1]? = none := List.getElem?_eq_none (by omega)
    rw [if_neg (by omega : i ≠ 2 * j + 1), h1, Option.map₂_none_right, Option.map₂_none_right]
  · rw [if_neg hj, if_neg (by omega)]

/-! ## Levels -/

/-- Level `k` of the forest over `L`; level 0 is `L` itself. -/
def level : ℕ → List α → List α
  | 0, L => L
  | k + 1, L => level k (pairUp node L)

@[simp] theorem level_zero (L : List α) : level node 0 L = L := rfl

@[simp] theorem level_succ (k : ℕ) (L : List α) :
    level node (k + 1) L = level node k (pairUp node L) := rfl

/-- Level `k + 1` is above level `k`. -/
theorem level_succ' (k : ℕ) (L : List α) :
    level node (k + 1) L = pairUp node (level node k L) := by
  induction k generalizing L with
  | zero => rfl
  | succ k ih => rw [level_succ, ih, level_succ]

/-- A level has as many entries as pairs of pairs are complete. -/
@[simp] theorem length_level (k : ℕ) (L : List α) :
    (level node k L).length = L.length / 2 ^ k := by
  induction k generalizing L with
  | zero => simp
  | succ k ih => rw [level_succ, ih, length_pairUp, Nat.div_div_eq_div_mul, pow_succ']

/-- A prefix of whole trees, level by level. -/
theorem level_take (k : ℕ) (L : List α) (m : ℕ) :
    level node k (L.take (m * 2 ^ k)) = (level node k L).take m := by
  induction k generalizing L with
  | zero => simp
  | succ k ih =>
    rw [level_succ, pairUp_take, pow_succ, ← mul_assoc, Nat.mul_div_cancel _ (by norm_num), ih]
    rfl

/-- And what is behind it. -/
theorem level_drop (k : ℕ) (L : List α) (m : ℕ) :
    level node k (L.drop (m * 2 ^ k)) = (level node k L).drop m := by
  induction k generalizing L with
  | zero => simp
  | succ k ih =>
    rw [level_succ, pow_succ, show m * (2 ^ k * 2) = 2 * (m * 2 ^ k) by ring, pairUp_drop, ih]
    rfl

/-- Level `j` of the slice a node of level `k` covers is the matching slice of level `j`. -/
theorem getElem?_level_slice {k j q : ℕ} (L : List α) (m : ℕ) (hj : j ≤ k)
    (hq : q < 2 ^ (k - j)) :
    (level node j ((L.drop (m * 2 ^ k)).take (2 ^ k)))[q]?
      = (level node j L)[m * 2 ^ (k - j) + q]? := by
  have hk : 2 ^ k = 2 ^ (k - j) * 2 ^ j := by rw [← pow_add, Nat.sub_add_cancel hj]
  rw [hk, level_take, ← mul_assoc, level_drop, List.getElem?_take, if_pos hq,
    List.getElem?_drop]

/-- The root of the tree of height `h`: the entry the level leaves unpaired, if there is one. -/
def peak : ℕ → List α → Option α
  | 0, L => if L.length % 2 = 1 then L.getLast? else none
  | h + 1, L => peak h (pairUp node L)

@[simp] theorem peak_succ (h : ℕ) (L : List α) :
    peak node (h + 1) L = peak node h (pairUp node L) := rfl

/-- No entry is left over. -/
theorem peak_zero_of_even {L : List α} (h : L.length % 2 = 0) : peak node 0 L = none :=
  if_neg (by omega)

/-- The last entry is left over. -/
theorem peak_zero_of_odd {L : List α} (h : L.length % 2 = 1) : peak node 0 L = L.getLast? :=
  if_pos h

/-- A peak is what a level leaves over. -/
theorem peak_eq_level (h : ℕ) (L : List α) : peak node h L = peak node 0 (level node h L) := by
  induction h generalizing L with
  | zero => rfl
  | succ h ih => rw [peak_succ, ih, level_succ]

/-- There is a tree of height `h` where that bit of the length is set. -/
theorem peak_isSome (h : ℕ) (L : List α) :
    (peak node h L).isSome ↔ L.length / 2 ^ h % 2 = 1 := by
  rw [peak_eq_level, ← length_level node h L]
  generalize level node h L = M
  rcases Nat.mod_two_eq_zero_or_one M.length with hm | hm
  · simp [peak_zero_of_even node hm, hm]
  · have hne : M ≠ [] := by rintro rfl; simp at hm
    simp [peak_zero_of_odd node hm, hm, List.getLast?_eq_some_getLast hne]

/-- It is the last entry of its level. -/
theorem peak_eq_getElem? (h : ℕ) (L : List α) :
    peak node h L =
      if L.length / 2 ^ h % 2 = 1 then (level node h L)[L.length / 2 ^ h - 1]? else none := by
  rw [peak_eq_level, peak, length_level, List.getLast?_eq_getElem?, length_level]

@[simp] theorem peak_nil (h : ℕ) : peak node h ([] : List α) = none := by
  rw [← Option.not_isSome_iff_eq_none, peak_isSome]
  simp

/-- A list all of whose peaks are empty is empty. -/
theorem eq_nil_of_peak_none {L : List α} (h : ∀ k, peak node k L = none) : L = [] := by
  by_contra hne
  have hpos : L.length ≠ 0 := by simpa using hne
  have hlog : L.length / 2 ^ Nat.log 2 L.length = 1 := by
    apply Nat.div_eq_of_lt_le
    · simpa using Nat.pow_log_le_self 2 hpos
    · simpa [pow_succ, mul_comm] using Nat.lt_pow_succ_log_self (by norm_num : 1 < 2) L.length
  have hsome := (peak_isSome node (Nat.log 2 L.length) L).mpr (by rw [hlog])
  rw [h] at hsome
  simp at hsome

/-! ## Paths and climbs -/

/-- Fold `x` at position `i` up through the siblings `ss`, bottom first. -/
def climb : ℕ → α → List α → α
  | _, x, [] => x
  | i, x, s :: ss => climb (i / 2) (join node i x s) ss

@[simp] theorem climb_nil (i : ℕ) (x : α) : climb node i x [] = x := rfl

@[simp] theorem climb_cons (i : ℕ) (x s : α) (ss : List α) :
    climb node i x (s :: ss) = climb node (i / 2) (join node i x s) ss := rfl

/-- `ss` are the siblings met on the way up from position `i` of `L`. -/
def IsPath : List α → ℕ → List α → Prop
  | _, _, [] => True
  | L, i, s :: ss => L[sib i]? = some s ∧ IsPath (pairUp node L) (i / 2) ss

@[simp] theorem isPath_nil (L : List α) (i : ℕ) : IsPath node L i [] := trivial

@[simp] theorem isPath_cons {L : List α} {i : ℕ} {s : α} {ss : List α} :
    IsPath node L i (s :: ss) ↔ L[sib i]? = some s ∧ IsPath node (pairUp node L) (i / 2) ss :=
  Iff.rfl

/-- A path, sibling by sibling. -/
theorem isPath_iff {L : List α} {i : ℕ} {ss : List α} :
    IsPath node L i ss ↔
      ∀ k < ss.length, (level node k L)[sib (i / 2 ^ k)]? = ss[k]? := by
  induction ss generalizing L i with
  | nil => simp
  | cons s ss ih =>
    rw [isPath_cons, ih]
    have hpow (k : ℕ) : i / 2 / 2 ^ k = i / 2 ^ (k + 1) := by
      rw [Nat.div_div_eq_div_mul, pow_succ']
    constructor
    · rintro ⟨h0, hs⟩ k hk
      cases k with
      | zero => simpa using h0
      | succ k =>
        have := hs k (by simpa using hk)
        rwa [hpow] at this
    · intro hs
      refine ⟨by simpa using hs 0 (by simp), fun k hk => ?_⟩
      rw [hpow]
      simpa using hs (k + 1) (by simpa using hk)

/-- The start of a path is a path. -/
theorem IsPath.take {L : List α} {i : ℕ} {ss : List α} (h : IsPath node L i ss) (k : ℕ) :
    IsPath node L i (ss.take k) := by
  rw [isPath_iff] at h ⊢
  intro j hj
  rw [List.length_take] at hj
  rw [h j (by omega), List.getElem?_take, if_pos (by omega)]

/-- A path inside the slice a tree covers is the path of the whole list. -/
theorem isPath_of_slice {L : List α} {m i : ℕ} {ss : List α} (hi : i < 2 ^ ss.length)
    (hp : IsPath node ((L.drop (m * 2 ^ ss.length)).take (2 ^ ss.length)) i ss) :
    IsPath node L (m * 2 ^ ss.length + i) ss := by
  rw [isPath_iff] at hp ⊢
  intro k hk
  have hpow : 2 ^ ss.length = 2 ^ (ss.length - k) * 2 ^ k := by
    rw [← pow_add, Nat.sub_add_cancel hk.le]
  obtain ⟨half, heven⟩ : ∃ half, 2 ^ (ss.length - k) = 2 * half :=
    ⟨2 ^ (ss.length - k - 1), by rw [← pow_succ']; congr 1; omega⟩
  have hquot : (m * 2 ^ ss.length + i) / 2 ^ k = m * 2 ^ (ss.length - k) + i / 2 ^ k := by
    rw [hpow, ← mul_assoc, add_comm, Nat.add_mul_div_right _ _ (by positivity), add_comm]
  have hlocal : i / 2 ^ k < 2 ^ (ss.length - k) := by
    rw [Nat.div_lt_iff_lt_mul (by positivity), ← hpow]
    exact hi
  have hsib : sib ((m * 2 ^ ss.length + i) / 2 ^ k) = m * 2 ^ (ss.length - k) + sib (i / 2 ^ k) := by
    rw [hquot, heven, show m * (2 * half) = 2 * (m * half) by ring]
    exact sib_two_mul_add _ _
  have hsmall : sib (i / 2 ^ k) < 2 ^ (ss.length - k) := by
    rw [heven] at hlocal ⊢
    exact sib_lt_two_mul hlocal
  rw [hsib, ← hp k hk, getElem?_level_slice node L m hk.le hsmall]

/-- The climb along the true path ends at the entry above. -/
theorem level_climb {L : List α} {i : ℕ} {x : α} {ss : List α} (hx : L[i]? = some x)
    (hp : IsPath node L i ss) :
    (level node ss.length L)[i / 2 ^ ss.length]? = some (climb node i x ss) := by
  induction ss generalizing L i x with
  | nil => simpa using hx
  | cons s ss ih =>
    obtain ⟨hs, hp⟩ := hp
    have := ih (getElem?_pairUp_half node hx hs) hp
    rwa [Nat.div_div_eq_div_mul, ← pow_succ'] at this

/-- Only the low bits of the position decide the turns of a climb. -/
theorem climb_mod (i : ℕ) (x : α) (ss : List α) :
    climb node (i % 2 ^ ss.length) x ss = climb node i x ss := by
  induction ss generalizing i x with
  | nil => rfl
  | cons s ss ih =>
    have hdvd : i % 2 ^ (ss.length + 1) % 2 = i % 2 :=
      Nat.mod_mod_of_dvd i (Dvd.intro_left (2 ^ ss.length) rfl)
    have hhalf : i % 2 ^ (ss.length + 1) / 2 = i / 2 % 2 ^ ss.length := by
      rw [pow_succ', Nat.mod_mul_right_div_self]
    simp only [List.length_cons, climb_cons, join, hdvd, hhalf, ih]

section Injective

variable {node}

/-- `node` is injective on pairs. -/
def PairInjective (node : α → α → α) : Prop :=
  ∀ a b c d, node a b = node c d → a = c ∧ b = d

/-- The parent tells both of its children. -/
theorem join_inj (hinj : PairInjective node) {i : ℕ} {x s y t : α}
    (h : join node i x s = join node i y t) : x = y ∧ s = t := by
  unfold join at h
  split at h
  · exact hinj _ _ _ _ h
  · exact (hinj _ _ _ _ h).symm

/-- **A climb that ends at a true entry was a true path.** Neither the starting value nor the
siblings are assumed honest: a one-to-one `node` pins both, from the top down. -/
theorem climb_sound (hinj : PairInjective node) {L : List α} {i : ℕ} {x : α} {ss : List α}
    (h : (level node ss.length L)[i / 2 ^ ss.length]? = some (climb node i x ss)) :
    L[i]? = some x ∧ IsPath node L i ss := by
  induction ss generalizing L i x with
  | nil => exact ⟨by simpa using h, trivial⟩
  | cons s ss ih =>
    rw [List.length_cons, pow_succ', ← Nat.div_div_eq_div_mul, level_succ] at h
    obtain ⟨hup, hpath⟩ := ih h
    have hi : i / 2 < L.length / 2 := by
      simpa using (List.getElem?_eq_some_iff.mp hup).1
    -- both children exist, so the entry above is `join` of the true pair
    obtain ⟨y, hy⟩ : ∃ y, L[i]? = some y := ⟨_, List.getElem?_eq_getElem (by omega)⟩
    obtain ⟨t, ht⟩ : ∃ t, L[sib i]? = some t :=
      ⟨_, List.getElem?_eq_getElem (by unfold sib; split <;> omega)⟩
    have hjoin : join node i y t = join node i x s := by
      have := getElem?_pairUp_half node hy ht
      rw [hup] at this
      exact (Option.some.inj this).symm
    obtain ⟨rfl, rfl⟩ := join_inj hinj hjoin
    exact ⟨hy, ht, hpath⟩

end Injective

/-! ## The tree a position lies in -/

/-- Position `i` of a list of `n` entries lies in the tree of height `h`. -/
def InTree (n i h : ℕ) : Prop := n / 2 ^ h % 2 = 1 ∧ i / 2 ^ h + 1 = n / 2 ^ h

/-- The tree of height 0 is the last entry of an odd number. -/
theorem inTree_zero {n i : ℕ} : InTree n i 0 ↔ n % 2 = 1 ∧ i + 1 = n := by simp [InTree]

/-- A level up, the position is half of what it was. -/
theorem inTree_succ {n i h : ℕ} : InTree n i (h + 1) ↔ InTree (n / 2) (i / 2) h := by
  simp only [InTree, Nat.div_div_eq_div_mul, pow_succ']

/-- A position in a tree is one of the list. -/
theorem InTree.lt {n i h : ℕ} (hin : InTree n i h) : i < n := by
  have h1 : i / 2 ^ h < n / 2 ^ h := by have := hin.2; omega
  exact lt_of_not_ge fun hle => absurd (Nat.div_le_div_right (c := 2 ^ h) hle) (by omega)

/-- A position lies in one tree only. -/
theorem InTree.unique {n i h k : ℕ} (hh : InTree n i h) (hk : InTree n i k) : h = k := by
  induction h generalizing n i k with
  | zero =>
    cases k with
    | zero => rfl
    | succ k =>
      rw [inTree_zero] at hh
      have := (inTree_succ.mp hk).lt
      omega
  | succ h ih =>
    cases k with
    | zero =>
      rw [inTree_zero] at hk
      have := (inTree_succ.mp hh).lt
      omega
    | succ k => rw [ih (inTree_succ.mp hh) (inTree_succ.mp hk)]

/-- Every position lies in a tree. -/
theorem exists_inTree {n i : ℕ} (hi : i < n) : ∃ h, InTree n i h := by
  induction n using Nat.strongRecOn generalizing i with
  | ind n ih =>
    by_cases hlast : n % 2 = 1 ∧ i + 1 = n
    · exact ⟨0, inTree_zero.mpr hlast⟩
    · obtain ⟨h, hin⟩ := ih (n / 2) (by omega) (by omega : i / 2 < n / 2)
      exact ⟨h + 1, inTree_succ.mpr hin⟩

/-- The tree of the last entry is the lowest one: its size divides the count. -/
theorem InTree.dvd_of_last {n i h : ℕ} (hin : InTree n i h) (hlast : i + 1 = n) : 2 ^ h ∣ n := by
  by_contra hno
  have hs := Nat.succ_div (a := i) (b := 2 ^ h)
  rw [hlast, if_neg hno] at hs
  have := hin.2
  omega

/-- The last entry stands at the all-ones index of its tree. -/
theorem InTree.last_mod {n i h : ℕ} (hin : InTree n i h) (hlast : i + 1 = n) :
    i % 2 ^ h + 1 = 2 ^ h := by
  have hlt := Nat.mod_lt i (show 0 < 2 ^ h by positivity)
  obtain ⟨m, hm⟩ := hin.dvd_of_last hlast
  have hsplit := Nat.div_add_mod i (2 ^ h)
  by_contra hne
  have hmod : (i + 1) % 2 ^ h = i % 2 ^ h + 1 := by
    rw [← hsplit, Nat.add_assoc, Nat.mul_add_mod, Nat.mod_eq_of_lt (by omega), Nat.mul_add_mod,
      Nat.mod_mod]
  rw [hlast, hm, Nat.mul_mod_right] at hmod
  omega

/-- The lowest tree is no lower than the length is even. -/
theorem InTree.le_of_dvd {n i h k : ℕ} (hin : InTree n i h) (hdvd : 2 ^ k ∣ n) : k ≤ h := by
  by_contra hlt
  obtain ⟨m, rfl⟩ := hdvd
  have hpow : 2 ^ k = 2 ^ h * (2 * 2 ^ (k - h - 1)) := by
    rw [← pow_succ', ← pow_add]
    congr 1
    omega
  have hodd := hin.1
  rw [hpow, mul_assoc, Nat.mul_div_cancel_left _ (by positivity), mul_assoc] at hodd
  omega

/-- The root of the tree that a position is in. -/
theorem peak_of_inTree {L : List α} {i h : ℕ} (hin : InTree L.length i h) :
    peak node h L = (level node h L)[i / 2 ^ h]? := by
  obtain ⟨hodd, hlast⟩ := hin
  rw [peak_eq_level, peak_zero_of_odd node (by simpa using hodd), List.getLast?_eq_getElem?,
    length_level, ← hlast, Nat.add_sub_cancel]

/-- The climb along the true path ends at the root. -/
theorem peak_climb {L : List α} {i : ℕ} {x : α} {ss : List α}
    (hin : InTree L.length i ss.length) (hx : L[i]? = some x) (hp : IsPath node L i ss) :
    peak node ss.length L = some (climb node i x ss) := by
  rw [peak_of_inTree node hin, level_climb node hx hp]

/-- A climb to the root was along the true path. -/
theorem of_peak_climb {node : α → α → α} (hinj : PairInjective node) {L : List α} {i : ℕ}
    {x : α} {ss : List α} (hin : InTree L.length i ss.length)
    (h : peak node ss.length L = some (climb node i x ss)) :
    L[i]? = some x ∧ IsPath node L i ss :=
  climb_sound hinj (by rwa [peak_of_inTree node hin] at h)

/-! ## What each operation on the list does to the peaks -/

/-- Overwriting position `i` replaces the root of its tree and no other. -/
theorem peak_set {L : List α} {i : ℕ} {ss : List α} (x : α)
    (hin : InTree L.length i ss.length) (hp : IsPath node L i ss) (k : ℕ) :
    peak node k (L.set i x) =
      if k = ss.length then some (climb node i x ss) else peak node k L := by
  induction ss generalizing L i x k with
  | nil =>
    obtain ⟨hodd, hlast⟩ := inTree_zero.mp hin
    cases k with
    | zero =>
      rw [peak_zero_of_odd node (by simpa using hodd), List.getLast?_eq_getElem?]
      rw [List.length_set, show L.length - 1 = i by omega, List.getElem?_set_self (by omega)]
      simp
    | succ k => rw [peak_succ, pairUp_set_last node x hodd hlast]; simp
  | cons s ss ih =>
    obtain ⟨hs, hp⟩ := hp
    have hin' : InTree (L.length / 2) (i / 2) ss.length := inTree_succ.mp hin
    have hhalf := hin'.lt
    have hi : i < L.length := hin.lt
    cases k with
    | zero =>
      rw [if_neg (by simp)]
      rcases Nat.mod_two_eq_zero_or_one L.length with he | ho
      · rw [peak_zero_of_even node (by simpa using he), peak_zero_of_even node he]
      · rw [peak_zero_of_odd node (by simpa using ho), peak_zero_of_odd node ho,
          List.getLast?_eq_getElem?, List.getLast?_eq_getElem?, List.length_set,
          List.getElem?_set_ne (by omega)]
    | succ k =>
      rw [peak_succ, pairUp_set node x hs hi, ih _ (by simpa using hin') hp]
      simp

/-- Dropping the last entry removes its tree and bares the path's siblings as roots. -/
theorem peak_dropLast {L : List α} {i : ℕ} {ss : List α} (hi : i + 1 = L.length)
    (hin : InTree L.length i ss.length) (hp : IsPath node L i ss) (k : ℕ) :
    peak node k L.dropLast =
      if k < ss.length then ss[k]? else if k = ss.length then none else peak node k L := by
  induction ss generalizing L i k with
  | nil =>
    obtain ⟨hodd, -⟩ := inTree_zero.mp hin
    cases k with
    | zero => rw [peak_zero_of_even node (by rw [List.length_dropLast]; omega)]; simp
    | succ k => rw [peak_succ, pairUp_dropLast_of_odd node hodd]; simp
  | cons s ss ih =>
    obtain ⟨hs, hp⟩ := hp
    have hin' : InTree (L.length / 2) (i / 2) ss.length := inTree_succ.mp hin
    have heven : L.length % 2 = 0 := by have := hin'.lt; have := hin'.2; omega
    cases k with
    | zero =>
      rw [peak_zero_of_odd node (by rw [List.length_dropLast]; omega)]
      rw [sib_of_odd (by omega)] at hs
      rw [List.getLast?_eq_getElem?, List.length_dropLast, List.dropLast_eq_take,
        List.getElem?_take, if_pos (by omega), show L.length - 1 - 1 = i - 1 by omega, hs]
      simp
    | succ k =>
      have hi' : i / 2 + 1 = (pairUp node L).length := by rw [length_pairUp]; omega
      rw [peak_succ, pairUp_dropLast_of_even node heven, ih hi' (by simpa using hin') hp]
      simp

/-- A path whose subtree ends strictly left of the last entry survives dropping it. -/
theorem IsPath.dropLast {L : List α} {i : ℕ} {ss : List α} (hp : IsPath node L i ss)
    (hlt : i / 2 ^ ss.length < (L.length - 1) / 2 ^ ss.length) :
    IsPath node L.dropLast i ss := by
  induction ss generalizing L i with
  | nil => trivial
  | cons s ss ih =>
    obtain ⟨hs, hp⟩ := hp
    rw [List.length_cons, pow_succ', ← Nat.div_div_eq_div_mul, ← Nat.div_div_eq_div_mul] at hlt
    have hhalf : i / 2 < (L.length - 1) / 2 :=
      lt_of_not_ge fun h => absurd (Nat.div_le_div_right (c := 2 ^ ss.length) h) (by omega)
    refine ⟨?_, ?_⟩
    · rw [List.dropLast_eq_take, List.getElem?_take, if_pos (by unfold sib; split <;> omega), hs]
    · rcases Nat.mod_two_eq_zero_or_one L.length with he | ho
      · rw [pairUp_dropLast_of_even node he]
        refine ih hp ?_
        rw [length_pairUp, show L.length / 2 - 1 = (L.length - 1) / 2 by omega]
        exact hlt
      · rw [pairUp_dropLast_of_odd node ho]
        exact hp

/-! ## The peaks bind the list -/

/-- **Equal roots and equal length, equal lists.** -/
theorem eq_of_peak_eq {node : α → α → α} (hinj : PairInjective node) {L M : List α}
    (hlen : L.length = M.length) (h : ∀ k, peak node k L = peak node k M) : L = M := by
  induction hn : L.length using Nat.strongRecOn generalizing L M with
  | ind n ih =>
    rcases Nat.eq_zero_or_pos n with rfl | hpos
    · rw [List.length_eq_zero_iff.mp hn, List.length_eq_zero_iff.mp (hlen.symm.trans hn)]
    have hup : pairUp node L = pairUp node M :=
      ih (L.length / 2) (by omega) (by simp [hlen]) (fun k => h (k + 1)) (by simp)
    apply List.ext_getElem?
    intro j
    by_cases hj : j / 2 < L.length / 2
    · -- a paired entry: read both children off the equal parents
      have hpair := congrArg (·[j / 2]?) hup
      simp only [getElem?_pairUp] at hpair
      have hget (K : List α) (hK : K.length = L.length) (m : ℕ) (hm : m < L.length) :
          K[m]? = some (K.get ⟨m, hK ▸ hm⟩) := List.getElem?_eq_getElem _
      rw [hget L rfl (2 * (j / 2)) (by omega), hget L rfl (2 * (j / 2) + 1) (by omega),
        hget M hlen.symm (2 * (j / 2)) (by omega), hget M hlen.symm (2 * (j / 2) + 1) (by omega)]
        at hpair
      obtain ⟨h0, h1⟩ := hinj _ _ _ _ (Option.some.inj hpair)
      rcases Nat.mod_two_eq_zero_or_one j with he | ho
      · have hjj : 2 * (j / 2) = j := by omega
        rw [hget L rfl j (by omega), hget M hlen.symm j (by omega)]
        simp only [hjj] at h0
        rw [h0]
      · have hjj : 2 * (j / 2) + 1 = j := by omega
        rw [hget L rfl j (by omega), hget M hlen.symm j (by omega)]
        simp only [hjj] at h1
        rw [h1]
    · rcases Nat.lt_or_ge j L.length with hlt | hge
      · -- the unpaired last entry is the peak of height 0
        have ho : L.length % 2 = 1 := by omega
        have h0 := h 0
        rw [peak_zero_of_odd node ho, peak_zero_of_odd node (hlen ▸ ho),
          List.getLast?_eq_getElem?, List.getLast?_eq_getElem?, ← hlen] at h0
        rwa [show j = L.length - 1 by omega]
      · rw [List.getElem?_eq_none hge, List.getElem?_eq_none (hlen ▸ hge)]

end MerkleForest
