import Mathlib.Data.Finset.Card
import Mathlib.Data.List.Induction
import Mathlib.Order.Interval.Finset.Nat

/-!
# Stretches of one code

A word of codes, one of which is blank, is put as the stretches of equal codes that are not blank.
The pass keeps the last stretch open. `Exact` says what a list of stretches is for the word, and
what is counted of them in an interval is what the word has there that is not blank.

## What the list of stretches is

A long row of states, one for each place, is mostly constant, and is sent as a list of stretches.
There is one such list that is shortest: stretches that are as long as they can be, in order, with
nothing between two of them but blank places or a change of the code. `Exact` says this of a list,
over the function from places to codes, and it determines what each place reads as
(`Exact.decode_eq`).

The pass goes over the word once and keeps a stretch open. What it knows is `Scanned`: the stretches
so far, the open one with them, are exact for the part of the word that it has seen; and the closed
ones have ended before the last place, so that they cannot be made longer any more. Its step has one
case for a blank, one for the same code again, and one for another code.

Counting over an interval is done on the stretches, without going back to the places: each stretch
adds the length of its part in the interval. As the stretches are in order, those that end before it
are skipped and the first that starts after it ends the count (`countWithin_eq`,
`counted_dropWhile`).
-/

namespace Stretches

/-- A stretch from `lo` to `hi`, both included. -/
structure Stretch (α : Type*) where
  lo : ℕ
  hi : ℕ
  code : α
deriving DecidableEq

variable {α : Type*}

/-- The stretches that are closed, the one that reaches up to the place, and the place. -/
structure Scan (α : Type*) where
  done : List (Stretch α)
  cur : Option (Stretch α)
  pos : ℕ

section Scanning

variable [DecidableEq α]

/-- A place that is not blank opens a stretch. -/
def starting (blank : α) (i : ℕ) (c : α) : Option (Stretch α) :=
  if c = blank then none else some ⟨i, i, c⟩

/-- A place more: it belongs to the open stretch, or the stretch is closed. -/
def Scan.next (blank : α) (s : Scan α) (c : α) : Scan α :=
  match s.cur with
  | none => ⟨s.done, starting blank s.pos c, s.pos + 1⟩
  | some r =>
    if c = r.code then ⟨s.done, some { r with hi := s.pos }, s.pos + 1⟩
    else ⟨s.done ++ [r], starting blank s.pos c, s.pos + 1⟩

/-- The open one is the last. -/
def Scan.stretches (s : Scan α) : List (Stretch α) := s.done ++ s.cur.toList

/-- The longest stretches of one code that is not blank. -/
def stretches (blank : α) (l : List α) : List (Stretch α) :=
  (l.foldl (Scan.next blank) ⟨[], none, 0⟩).stretches

/-- The code at a place, if it is not blank. -/
def codeAt (blank : α) (l : List α) (n : ℕ) : Option α := l[n]?.filter (· ≠ blank)

end Scanning

/-- The place is in the stretch. -/
def Stretch.Has (r : Stretch α) (n : ℕ) : Prop := r.lo ≤ n ∧ n ≤ r.hi

instance (r : Stretch α) (n : ℕ) : Decidable (r.Has n) := inferInstanceAs (Decidable (_ ∧ _))

/-- The stretches have the places that have a code, in order, and none can be made longer. -/
structure Exact (f : ℕ → Option α) (l : List (Stretch α)) : Prop where
  /-- In a stretch every place has its code. -/
  inside : ∀ r ∈ l, ∀ n, r.Has n → f n = some r.code
  /-- Each place that has a code is in one. -/
  complete : ∀ n, f n ≠ none → ∃ r ∈ l, r.Has n
  ordered : l.Pairwise fun a b => a.hi < b.lo
  filled : ∀ r ∈ l, r.lo ≤ r.hi
  /-- Two that meet have different codes, so that neither could go on into the other. -/
  apart : ∀ a ∈ l, ∀ b ∈ l, b.lo = a.hi + 1 → a.code ≠ b.code

variable {blank c : α} {l : List α} {rs : List (Stretch α)} {r : Stretch α} {s : Scan α} {n : ℕ}
  {f : ℕ → Option α}

section Scanning

variable [DecidableEq α]

/-- A place more at the end. -/
theorem codeAt_concat (blank : α) (l : List α) (c : α) (n : ℕ) : codeAt blank (l ++ [c]) n =
    if n = l.length then (if c = blank then none else some c) else codeAt blank l n := by
  unfold codeAt
  by_cases hn : n = l.length
  · by_cases hc : c = blank <;> simp [hn, hc, Option.filter]
  · rw [if_neg hn, List.getElem?_append]
    split
    · rfl
    · have hlen : l.length < n := by omega
      rw [List.getElem?_eq_none (by simp; omega), List.getElem?_eq_none hlen.le]

/-- There is nothing after the word. -/
theorem codeAt_of_length_le (h : l.length ≤ n) : codeAt blank l n = none := by
  unfold codeAt
  rw [List.getElem?_eq_none h]
  rfl

/-- What the pass knows after `l`. -/
structure Scanned (blank : α) (l : List α) (s : Scan α) : Prop where
  pos : s.pos = l.length
  /-- The stretches so far, the open one among them, are those of the list so far. -/
  exact : Exact (codeAt blank l) s.stretches
  /-- A closed stretch was ended by a place that is not in it. -/
  closed : ∀ r ∈ s.done, r.hi + 1 < l.length
  /-- The open one goes up to the last place. -/
  reaches : ∀ r ∈ s.cur, r.hi + 1 = l.length

/-- A blank opens nothing. -/
theorem Exact.skip (h : Exact (codeAt blank l) rs) : Exact (codeAt blank (l ++ [blank])) rs := by
  have hcode : codeAt blank (l ++ [blank]) = codeAt blank l := by
    funext n
    rw [codeAt_concat]
    split
    · rename_i hn
      rw [hn, codeAt_of_length_le (le_refl _)]
      simp
    · rfl
  rwa [hcode]

/-- Every stretch ends before the word does. -/
theorem Exact.hi_lt (h : Exact (codeAt blank l) rs) (hr : r ∈ rs) : r.hi < l.length := by
  by_contra hlen
  have hcode := h.inside r hr r.hi ⟨h.filled r hr, le_refl _⟩
  rw [codeAt_of_length_le (not_lt.mp hlen)] at hcode
  cases hcode

/-- Another code opens a stretch. -/
theorem Exact.opened (h : Exact (codeAt blank l) rs) (hc : c ≠ blank)
    (hlast : ∀ r ∈ rs, r.hi + 1 = l.length → r.code ≠ c) :
    Exact (codeAt blank (l ++ [c])) (rs ++ [⟨l.length, l.length, c⟩]) := by
  have hmem : ∀ r, r ∈ rs ++ [⟨l.length, l.length, c⟩] ↔ r ∈ rs ∨ r = ⟨l.length, l.length, c⟩ := by
    simp
  refine ⟨?_, ?_, ?_, ?_, ?_⟩
  · intro r hr n hn
    rw [codeAt_concat]
    rcases (hmem r).mp hr with hr | rfl
    · have hlt := h.hi_lt hr
      rw [if_neg (by have := hn.2; omega)]
      exact h.inside r hr n hn
    · obtain rfl : n = l.length := le_antisymm hn.2 hn.1
      simp [hc]
  · intro n hn
    rw [codeAt_concat] at hn
    by_cases heq : n = l.length
    · exact ⟨⟨l.length, l.length, c⟩, by simp, heq.ge, heq.le⟩
    · rw [if_neg heq] at hn
      obtain ⟨r, hr, hin⟩ := h.complete n hn
      exact ⟨r, List.mem_append_left _ hr, hin⟩
  · rw [List.pairwise_append]
    refine ⟨h.ordered, List.pairwise_singleton _ _, ?_⟩
    intro a ha b hb
    rw [List.mem_singleton.mp hb]
    exact h.hi_lt ha
  · intro r hr
    rcases (hmem r).mp hr with hr | rfl
    · exact h.filled r hr
    · exact le_refl _
  · intro a ha b hb hnext
    rcases (hmem b).mp hb with hb | rfl
    · rcases (hmem a).mp ha with ha | rfl
      · exact h.apart a ha b hb hnext
      · have hlt := h.hi_lt hb
        have hle := h.filled b hb
        simp only at hnext
        omega
    · rcases (hmem a).mp ha with ha | rfl
      · exact hlast a ha hnext.symm
      · simp at hnext

/-- The same code again makes the last stretch longer. -/
theorem Exact.widened {done : List (Stretch α)} (h : Exact (codeAt blank l) (done ++ [r]))
    (hreach : r.hi + 1 = l.length) (hcode : r.code ≠ blank) :
    Exact (codeAt blank (l ++ [r.code])) (done ++ [{ r with hi := l.length }]) := by
  have hmem : ∀ x, x ∈ done ++ [{ r with hi := l.length }] ↔
      x ∈ done ∨ x = { r with hi := l.length } := by simp
  have hr : r ∈ done ++ [r] := by simp
  have hdone : ∀ x ∈ done, x ∈ done ++ [r] := fun x hx => List.mem_append_left _ hx
  obtain ⟨hordered, -, hbefore⟩ := List.pairwise_append.mp h.ordered
  have hlo := h.filled r hr
  refine ⟨?_, ?_, ?_, ?_, ?_⟩
  · intro x hx n hn
    rw [codeAt_concat]
    rcases (hmem x).mp hx with hx | rfl
    · have hlt := h.hi_lt (hdone x hx)
      rw [if_neg (by have := hn.2; omega)]
      exact h.inside x (hdone x hx) n hn
    -- the new place is in the widened stretch, the others are where they were
    · by_cases hlast : n = l.length
      · rw [if_pos hlast, if_neg hcode]
      · rw [if_neg hlast]
        refine h.inside r hr n ⟨hn.1, ?_⟩
        have hle : n ≤ l.length := hn.2
        omega
  · intro n hn
    rw [codeAt_concat] at hn
    by_cases heq : n = l.length
    · refine ⟨{ r with hi := l.length }, by simp, ?_, heq.le⟩
      dsimp only
      omega
    -- an earlier place keeps its stretch, which may be the one that was widened
    · rw [if_neg heq] at hn
      obtain ⟨x, hx, hin⟩ := h.complete n hn
      rcases List.mem_append.mp hx with hx | hx
      · exact ⟨x, List.mem_append_left _ hx, hin⟩
      · obtain rfl := List.mem_singleton.mp hx
        refine ⟨{ x with hi := l.length }, by simp, hin.1, ?_⟩
        have hle : n ≤ x.hi := hin.2
        dsimp only
        omega
  · rw [List.pairwise_append]
    refine ⟨hordered, List.pairwise_singleton _ _, ?_⟩
    intro a ha b hb
    rw [List.mem_singleton.mp hb]
    exact hbefore a ha r (List.mem_singleton_self r)
  · intro x hx
    rcases (hmem x).mp hx with hx | rfl
    · exact h.filled x (hdone x hx)
    · dsimp only
      omega
  · intro a ha b hb hnext
    rcases (hmem a).mp ha with ha | rfl
    · rcases (hmem b).mp hb with hb | rfl
      · exact h.apart a (hdone a ha) b (hdone b hb) hnext
      · exact h.apart a (hdone a ha) r hr hnext
    · rcases (hmem b).mp hb with hb | rfl
      · have hlt := h.hi_lt (hdone b hb)
        have hle := h.filled b (hdone b hb)
        simp only at hnext
        omega
      · simp only at hnext
        omega

/-- A stretch is of a code that is not blank. -/
theorem Exact.code_ne (h : Exact (codeAt blank l) rs) (hr : r ∈ rs) : r.code ≠ blank := by
  have hcode := h.inside r hr r.hi ⟨h.filled r hr, le_refl _⟩
  unfold codeAt at hcode
  exact of_decide_eq_true (Option.filter_eq_some_iff.mp hcode).2

/-- All stretches are closed, and the code opens one if it is not blank. -/
theorem Exact.start (h : Exact (codeAt blank l) rs)
    (hlast : ∀ r ∈ rs, r.hi + 1 = l.length → r.code ≠ c) :
    Scanned blank (l ++ [c]) ⟨rs, starting blank l.length c, l.length + 1⟩ := by
  have hlen : (l ++ [c]).length = l.length + 1 := by simp
  refine ⟨hlen.symm, ?_, ?_, ?_⟩
  · unfold Scan.stretches starting
    split
    · rename_i hc
      rw [hc]
      simpa using h.skip
    · rename_i hc
      exact h.opened hc hlast
  · intro r hr
    have hlt := h.hi_lt hr
    omega
  · intro r hr
    unfold starting at hr
    split at hr
    · cases hr
    · obtain rfl := Option.some.inj hr
      exact hlen.symm

/-- The step of the pass, case by case. -/
theorem Scanned.next (h : Scanned blank l s) (c : α) :
    Scanned blank (l ++ [c]) (s.next blank c) := by
  obtain ⟨done, cur, pos⟩ := s
  obtain rfl : pos = l.length := h.pos
  have hclosed : ∀ r ∈ done, r.hi + 1 < l.length := h.closed
  have hexact := h.exact
  unfold Scan.next
  cases cur with
  | none =>
    have hdone : Exact (codeAt blank l) done := by simpa [Scan.stretches] using hexact
    apply hdone.start
    intro r hr hreach
    exact absurd hreach (hclosed r hr).ne
  | some r =>
    have hall : Exact (codeAt blank l) (done ++ [r]) := hexact
    have hreach : r.hi + 1 = l.length := h.reaches r rfl
    dsimp only
    split
    · rename_i hc
      rw [hc]
      have hcode : r.code ≠ blank := hall.code_ne (by simp)
      refine ⟨by simp, hall.widened hreach hcode, ?_, ?_⟩
      · intro x hx
        have := hclosed x hx
        rw [List.length_append]
        omega
      · intro x hx
        obtain rfl := Option.some.inj hx
        simp
    · rename_i hc
      apply hall.start
      intro x hx hx'
      rcases List.mem_append.mp hx with hx | hx
      · exact absurd hx' (hclosed x hx).ne
      · rw [List.mem_singleton.mp hx]
        exact Ne.symm hc

/-- The pass gives the stretches of the word. -/
theorem stretches_exact (blank : α) (l : List α) : Exact (codeAt blank l) (stretches blank l) := by
  have hscan : Scanned blank l (l.foldl (Scan.next blank) ⟨[], none, 0⟩) := by
    induction l using List.reverseRecOn with
    | nil =>
      refine ⟨rfl, ⟨?_, ?_, List.Pairwise.nil, ?_, ?_⟩, ?_, ?_⟩
      · simp [Scan.stretches]
      · simp [codeAt]
      · simp [Scan.stretches]
      · simp [Scan.stretches]
      · simp
      · simp
    | append_singleton l c ih =>
      rw [List.foldl_append]
      exact ih.next c
  exact hscan.exact

end Scanning

/-! ## What the stretches say -/

/-- Two stretches with a place in common are one. -/
theorem Exact.disjoint (h : Exact f rs) {a b : Stretch α} (ha : a ∈ rs) (hb : b ∈ rs) :
    a = b ∨ a.hi < b.lo ∨ b.hi < a.lo := by
  have hpair : rs.Pairwise fun a b => a = b ∨ a.hi < b.lo ∨ b.hi < a.lo :=
    h.ordered.imp fun hlt => .inr (.inl hlt)
  have hback : rs.Pairwise fun a b => b = a ∨ b.hi < a.lo ∨ a.hi < b.lo :=
    h.ordered.imp fun hlt => .inr (.inr hlt)
  exact List.Pairwise.forall_of_forall_of_flip (fun _ _ => .inl rfl) hpair hback ha hb

/-- The code goes on neither after a stretch nor before it. -/
theorem Exact.longest (h : Exact f rs) (hr : r ∈ rs) :
    f (r.hi + 1) ≠ some r.code ∧ ∀ n, n + 1 = r.lo → f n ≠ some r.code := by
  have hfilled := h.filled r hr
  constructor
  · intro hcode
    obtain ⟨b, hb, hin⟩ := h.complete (r.hi + 1) (by simp [hcode])
    have hsame := h.inside b hb (r.hi + 1) hin
    rw [hcode] at hsame
    have hbhi : r.hi + 1 ≤ b.hi := hin.2
    rcases h.disjoint hr hb with rfl | hlt | hlt
    · omega
    · exact h.apart r hr b hb (le_antisymm hin.1 hlt) (Option.some.inj hsame)
    · omega
  · intro n hn hcode
    obtain ⟨b, hb, hin⟩ := h.complete n (by simp [hcode])
    have hsame := h.inside b hb n hin
    rw [hcode] at hsame
    have hblo : b.lo ≤ n := hin.1
    have hbhi : n ≤ b.hi := hin.2
    rcases h.disjoint hb hr with rfl | hlt | hlt
    · omega
    · exact h.apart b hb r hr (by omega) (Option.some.inj hsame).symm
    · omega

/-- What a place reads as. -/
def decode (rs : List (Stretch α)) (n : ℕ) : Option α :=
  (rs.find? fun r => r.Has n).map Stretch.code

/-- Read from the stretches, each place has its code. -/
theorem Exact.decode_eq (h : Exact f rs) (n : ℕ) : decode rs n = f n := by
  unfold decode
  cases hfind : rs.find? fun r => r.Has n with
  | some r =>
    have hin : r.Has n := by simpa using List.find?_some hfind
    exact (h.inside r (List.mem_of_find?_eq_some hfind) n hin).symm
  | none =>
    by_contra hne
    obtain ⟨r, hr, hin⟩ := h.complete n (Ne.symm hne)
    exact List.find?_eq_none.mp hfind r hr (decide_eq_true hin)

/-! ## Counting in an interval -/

/-- The stretches are counted as long as they start in the interval, those with a code that
counts. -/
def countWithin (p : α → Bool) (lo hi : ℕ) : ℤ → List (Stretch α) → ℤ
  | n, [] => n
  | n, r :: rs =>
    if r.lo ≤ hi then
      countWithin p lo hi (if p r.code then n + (min r.hi hi - max r.lo lo + 1) else n) rs
    else n

/-- The places of an interval that have a code that counts. -/
def counted (p : α → Bool) (lo hi : ℕ) (rs : List (Stretch α)) : Finset ℕ :=
  (Finset.Icc lo hi).filter fun x => ∃ r ∈ rs, r.Has x ∧ p r.code = true

variable {p : α → Bool} {lo hi : ℕ}

/-- One stretch more has its part of the interval. -/
theorem counted_cons (r : Stretch α) (rs : List (Stretch α)) : counted p lo hi (r :: rs) =
    (if p r.code then Finset.Icc (max r.lo lo) (min r.hi hi) else ∅) ∪ counted p lo hi rs := by
  ext x
  unfold counted Stretch.Has
  split
  · rename_i hp
    simp only [Finset.mem_filter, Finset.mem_union, Finset.mem_Icc, List.mem_cons,
      exists_eq_or_imp, hp, and_true, max_le_iff, le_min_iff, and_or_left]
    apply or_congr_left
    omega
  · rename_i hp
    simp [hp]

/-- The count over the stretches is that of the places. -/
theorem countWithin_eq (hordered : rs.Pairwise fun a b => a.hi < b.lo)
    (hfilled : ∀ r ∈ rs, r.lo ≤ r.hi) (hreach : ∀ r ∈ rs, lo ≤ r.hi) (hle : lo ≤ hi + 1) (n : ℤ) :
    countWithin p lo hi n rs = n + (counted p lo hi rs).card := by
  induction rs generalizing n with
  | nil => simp [countWithin, counted]
  | cons r rs ih =>
    obtain ⟨hafter, hordered⟩ := List.pairwise_cons.mp hordered
    have hrlo := hfilled r List.mem_cons_self
    have hrhi := hreach r List.mem_cons_self
    unfold countWithin
    have hafter' : ∀ x ∈ counted p lo hi rs, r.hi < x := by
      intro x hx
      obtain ⟨-, y, hy, hin, -⟩ := Finset.mem_filter.mp hx
      exact lt_of_lt_of_le (hafter y hy) hin.1
    split
    · rename_i hstart
      rw [ih hordered (fun x hx => hfilled x (List.mem_cons_of_mem _ hx))
        fun x hx => hreach x (List.mem_cons_of_mem _ hx), counted_cons]
      split
      · have hdisjoint :
            Disjoint (Finset.Icc (max r.lo lo) (min r.hi hi)) (counted p lo hi rs) := by
          rw [Finset.disjoint_left]
          intro x hx hx'
          have hlast := (Finset.mem_Icc.mp hx).2
          have hnext := hafter' x hx'
          omega
        rw [Finset.card_union_of_disjoint hdisjoint, Nat.card_Icc]
        push_cast
        omega
      · rw [Finset.empty_union]
    · -- what comes later starts later still
      rename_i hbeyond
      have hnone : counted p lo hi (r :: rs) = ∅ := by
        apply Finset.filter_eq_empty_iff.mpr
        intro x hx
        rintro ⟨y, hy, hin, -⟩
        have hxhi := (Finset.mem_Icc.mp hx).2
        have hylo : y.lo ≤ x := hin.1
        rcases List.mem_cons.mp hy with rfl | hy
        · omega
        · have := hafter y hy
          omega
      rw [hnone]
      simp

/-- Stretches that end before the interval can be left out. -/
theorem counted_dropWhile (p : α → Bool) (lo hi : ℕ) (hordered : rs.Pairwise fun a b => a.hi < b.lo)
    (hfilled : ∀ r ∈ rs, r.lo ≤ r.hi) :
    counted p lo hi (rs.dropWhile fun r => r.hi < lo) = counted p lo hi rs ∧
      ∀ r ∈ rs.dropWhile fun r => r.hi < lo, lo ≤ r.hi := by
  induction rs with
  | nil => simp
  | cons r rs ih =>
    obtain ⟨hafter, hordered⟩ := List.pairwise_cons.mp hordered
    rw [List.dropWhile_cons]
    split
    · rename_i hshort
      obtain ⟨hsame, hall⟩ := ih hordered fun x hx => hfilled x (List.mem_cons_of_mem _ hx)
      refine ⟨?_, hall⟩
      have hbefore : r.hi < lo := of_decide_eq_true hshort
      have hempty : Finset.Icc (max r.lo lo) (min r.hi hi) = ∅ := Finset.Icc_eq_empty (by omega)
      rw [hsame, counted_cons, hempty, ite_self, Finset.empty_union]
    · rename_i hlong
      refine ⟨rfl, ?_⟩
      have hreach : lo ≤ r.hi := by simpa using hlong
      intro x hx
      rcases List.mem_cons.mp hx with rfl | hx
      · exact hreach
      · have := hafter x hx
        have := hfilled x (List.mem_cons_of_mem _ hx)
        omega

end Stretches
