import Mathlib.Order.Defs.LinearOrder
import Mathlib.Data.List.Chain
import Mathlib.Data.Set.Basic
import Mathlib.Algebra.BigOperators.Group.List.Basic
import Mathlib.Algebra.GroupWithZero.Nat
import Mathlib.Algebra.Order.Monoid.Unbundled.Basic

/-!
# Heaviest paths in one pass

A pass over the rows of a table that keeps, for each row a path reaches, the largest weight of a
path that ends there. One value a row is enough, and the pass finds it, as long as every row comes
after the rows a path can come from: the rows are in the order of a rank that every step of a path
raises.

A path runs over what the rows say (`content`), so two tables with the same content have the same
paths, in whatever order they hold it.

## One value for a row

There may be many paths to a row, and the pass keeps only the weight of the heaviest. That this is
enough is the usual argument: the best path to a row is a best path to some row before it, and one
step. It needs that the rows before it have been dealt with. So the rows are in the order of a rank
which every link raises, and paths start at one fixed rank. In one direction nothing of this is
needed: whatever value the pass has for a row is the weight of some path
(`exists_path_of_mem_reached`).

Ranks may be equal for several rows, and the order among these is open. It has no effect on the
values, but it has one on which of several equally heavy rows comes first. `firstMax` is the loop
that picks one, and `firstMax_cases` says which: the first of the largest, where a row that is as
heavy as the start does not replace it.
-/

namespace Hazync
namespace HeaviestPath

variable {α β : Type*} (content : α → β) (link : β → β → Prop) [DecidableRel link]
  (first : β → Prop) [DecidablePred first] (weight : β → ℕ)

/-- A path of contents in `S`: it starts at a first one, and each links to the next. -/
structure IsPath (S : Set β) (path : List β) : Prop where
  mem : ∀ b ∈ path, b ∈ S
  first : ∃ b ∈ path.head?, first b
  chain : path.IsChain link

/-- The total weight of a path. -/
def total (path : List β) : ℕ := (path.map weight).sum

/-- The largest value of a row that links to `b`. -/
def bestPred (best : List (α × ℕ)) (b : β) : Option ℕ :=
  ((best.filter fun p => link (content p.1) b).map Prod.snd).max?

/-- The largest weight of a path to `b` over the rows so far, if there is one. -/
def value (best : List (α × ℕ)) (b : β) : Option ℕ :=
  if first b then some (weight b) else (bestPred content link best b).map (· + weight b)

/-- One row of the pass. -/
def reach (best : List (α × ℕ)) (r : α) : List (α × ℕ) :=
  match value content link first weight best (content r) with
  | some w => best ++ [(r, w)]
  | none => best

/-- The rows that paths reach, each with the largest weight. -/
def reached (rows : List α) : List (α × ℕ) := rows.foldl (reach content link first weight) []

variable {content link first weight} {S T : Set β} {path : List β} {b c : β}
variable {best : List (α × ℕ)} {rows : List α} {r : α}

omit [DecidableRel link] [DecidablePred first] in
/-- More contents, more paths. -/
theorem IsPath.mono (h : IsPath link first S path) (hST : ∀ b ∈ path, b ∈ T) :
    IsPath link first T path := ⟨hST, h.first, h.chain⟩

omit [DecidableRel link] [DecidablePred first] in
/-- A first content is a path. -/
theorem isPath_singleton (hb : b ∈ S) (hfirst : first b) : IsPath link first S [b] :=
  ⟨fun _ hx => List.mem_singleton.mp hx ▸ hb, ⟨b, rfl, hfirst⟩, List.isChain_singleton b⟩

omit [DecidableRel link] [DecidablePred first] in
/-- A path goes on over a link. -/
theorem IsPath.concat (h : IsPath link first S path) (hc : c ∈ path.getLast?) (hlink : link c b)
    (hb : b ∈ S) : IsPath link first S (path ++ [b]) where
  mem := by
    intro x hx
    rw [List.mem_append, List.mem_singleton] at hx
    exact hx.elim (h.mem x) fun hxb => hxb ▸ hb
  first := by
    obtain ⟨a, ha, hfirst⟩ := h.first
    exact ⟨a, by rw [List.head?_append, ha]; rfl, hfirst⟩
  chain := by
    refine List.isChain_append.mpr ⟨h.chain, List.isChain_singleton b, ?_⟩
    intro x hx y hy
    rw [Option.mem_unique hx hc, ← Option.mem_some_iff.mp hy]
    exact hlink

omit [DecidableRel link] [DecidablePred first] in
/-- A path is one content, a first one, or a path to a content that links to its last. -/
theorem IsPath.cases_last (h : IsPath link first S path) (hb : b ∈ path.getLast?) :
    path = [b] ∧ first b ∨
      ∃ front c, path = front ++ [b] ∧ IsPath link first S front ∧ c ∈ front.getLast? ∧ link c b := by
  obtain ⟨front, rfl⟩ := List.getLast?_eq_some_iff.mp hb
  cases hlast : front.getLast? with
  | none =>
    obtain rfl := List.getLast?_eq_none_iff.mp hlast
    obtain ⟨a, ha, hfirst⟩ := h.first
    exact .inl ⟨rfl, Option.some.inj ha ▸ hfirst⟩
  | some c =>
    obtain ⟨hchain, -, hlink⟩ := List.isChain_append.mp h.chain
    obtain ⟨a, ha, hfirst⟩ := h.first
    refine .inr ⟨front, c, rfl, ⟨fun x hx => h.mem x (List.mem_append_left _ hx), ⟨a, ?_, hfirst⟩,
      hchain⟩, hlast, hlink c hlast b rfl⟩
    obtain ⟨init, rfl⟩ := List.getLast?_eq_some_iff.mp hlast
    rw [List.head?_append_of_ne_nil _ (by simp)] at ha
    exact ha

/-- A step more adds the weight of its content. -/
theorem total_concat : total weight (path ++ [b]) = total weight path + weight b := by
  rw [total, total, List.map_append, List.sum_append, List.map_singleton, List.sum_singleton]

/-! ## The pass -/

/-- The value is that of a row that links to it. -/
theorem mem_bestPred {w : ℕ} (h : bestPred content link best b = some w) :
    ∃ p, (p, w) ∈ best ∧ link (content p) b := by
  have hmem := List.max?_mem h
  obtain ⟨⟨p, w'⟩, hp, rfl⟩ := List.mem_map.mp hmem
  obtain ⟨hp, hlink⟩ := List.mem_filter.mp hp
  exact ⟨p, hp, of_decide_eq_true hlink⟩

/-- And no such row has a larger one. -/
theorem le_bestPred {p : α} {w : ℕ} (hp : (p, w) ∈ best) (hlink : link (content p) b) :
    ∃ m, bestPred content link best b = some m ∧ w ≤ m := by
  have hmem : w ∈ (best.filter fun p => link (content p.1) b).map Prod.snd :=
    List.mem_map.mpr ⟨(p, w), List.mem_filter.mpr ⟨hp, decide_eq_true hlink⟩, rfl⟩
  obtain ⟨m, hm⟩ := Option.ne_none_iff_exists'.mp
    (mt List.max?_eq_none_iff.mp (List.ne_nil_of_mem hmem))
  exact ⟨m, hm, (List.max?_le_iff hm).mp (le_refl m) w hmem⟩

/-- One row more. -/
theorem reached_concat : reached content link first weight (rows ++ [r]) =
    reach content link first weight (reached content link first weight rows) r := by
  rw [reached, reached, List.foldl_append]
  rfl

/-- A row of the pass adds itself, or nothing. -/
theorem mem_reach {x : α × ℕ} : x ∈ reach content link first weight best r ↔
    x ∈ best ∨ ∃ w, value content link first weight best (content r) = some w ∧ x = (r, w) := by
  rw [reach]
  cases value content link first weight best (content r) <;> simp

/-- The pass keeps the order of the rows. -/
theorem map_reached_sublist :
    ((reached content link first weight rows).map Prod.fst).Sublist rows := by
  induction rows using List.reverseRecOn with
  | nil => exact List.Sublist.refl _
  | append_singleton rows r ih =>
    rw [reached_concat, reach]
    split
    · rw [List.map_append]
      exact ih.append (List.Sublist.refl _)
    · exact ih.trans (List.sublist_append_left _ _)

/-- Every value is the weight of a path to its row. -/
theorem exists_path_of_mem_reached {w : ℕ} (h : (r, w) ∈ reached content link first weight rows) :
    ∃ path, IsPath link first {b | ∃ r ∈ rows, content r = b} path ∧
      content r ∈ path.getLast? ∧ total weight path = w := by
  induction rows using List.reverseRecOn generalizing r w with
  | nil => cases h
  | append_singleton rows r' ih =>
    have hmono : ∀ {path}, IsPath link first {b | ∃ r ∈ rows, content r = b} path →
        IsPath link first {b | ∃ r ∈ rows ++ [r'], content r = b} path := by
      intro path hpath
      refine hpath.mono fun b hb => ?_
      obtain ⟨x, hx, hxb⟩ := hpath.mem b hb
      exact ⟨x, List.mem_append_left _ hx, hxb⟩
    rw [reached_concat] at h
    obtain h | ⟨w', hvalue, heq⟩ := mem_reach.mp h
    · obtain ⟨path, hpath, hlast, htotal⟩ := ih h
      exact ⟨path, hmono hpath, hlast, htotal⟩
    · cases heq
      have hmem : ∃ x ∈ rows ++ [r'], content x = content r' :=
        ⟨r', List.mem_append_right _ (List.mem_singleton_self r'), rfl⟩
      rw [value] at hvalue
      split at hvalue
      · rename_i hfirst
        cases hvalue
        exact ⟨[content r'], isPath_singleton hmem hfirst, rfl, by simp [total]⟩
      · obtain ⟨m, hm, rfl⟩ := Option.map_eq_some_iff.mp hvalue
        obtain ⟨p, hp, hlink⟩ := mem_bestPred hm
        obtain ⟨path, hpath, hlast, htotal⟩ := ih hp
        exact ⟨path ++ [content r'], (hmono hpath).concat hlast hlink hmem, by simp,
          by rw [total_concat, htotal]⟩

section Ranked

/-! ## In the order of a rank -/

variable {rank : β → ℕ}

omit [DecidableRel link] [DecidablePred first] in
/-- Along a path the rank rises: only its last content has the last one's rank. -/
theorem IsPath.rank_le (h : IsPath link first S path)
    (hlink : ∀ a ∈ S, ∀ b ∈ S, link a b → rank a < rank b) (hb : b ∈ path.getLast?) :
    ∀ a ∈ path, rank a ≤ rank b := by
  induction path using List.reverseRecOn generalizing b with
  | nil => cases hb
  | append_singleton front x ih =>
    obtain ⟨hpath, -⟩ | ⟨front', c, hpath, hfront, hc, hcx⟩ := h.cases_last hb
    · intro a ha
      rw [hpath, List.mem_singleton] at ha
      exact ha ▸ le_refl _
    · obtain ⟨rfl, hx⟩ := List.append_inj' hpath rfl
      obtain rfl := List.singleton_injective hx
      intro a ha
      rw [List.mem_append, List.mem_singleton] at ha
      obtain ha | rfl := ha
      · exact (ih hfront hc a ha).trans (hlink c (hfront.mem c (List.mem_of_getLast? hc)) x
          (h.mem x (List.mem_append_right _ (List.mem_singleton_self x))) hcx).le
      · exact le_refl _

/-- **No path to a row is heavier than the pass says**, where the rows come in the order of a rank
that every link raises, and paths start at one rank. -/
theorem total_le_of_path (rank : β → ℕ) (base : ℕ)
    (hlink : ∀ a b, (∃ r ∈ rows, content r = a) → (∃ r ∈ rows, content r = b) →
      link a b → rank a < rank b)
    (hfirst : ∀ b, first b → rank b = base)
    (hsorted : rows.Pairwise fun r r' => rank (content r) ≤ rank (content r'))
    (hpath : IsPath link first {b | ∃ r ∈ rows, content r = b} path) (hb : b ∈ path.getLast?) :
    ∀ r ∈ rows, content r = b →
      ∃ w, (r, w) ∈ reached content link first weight rows ∧ total weight path ≤ w := by
  induction rows using List.reverseRecOn generalizing path b with
  | nil => exact fun r hr => absurd hr List.not_mem_nil
  | append_singleton rows r' ih =>
    obtain ⟨hinit, -, hlast⟩ := List.pairwise_append.mp hsorted
    have hsub : ∀ {a}, (∃ r ∈ rows, content r = a) → ∃ r ∈ rows ++ [r'], content r = a := by
      rintro a ⟨r, hr, hra⟩
      exact ⟨r, List.mem_append_left _ hr, hra⟩
    have hlink' : ∀ a b, (∃ r ∈ rows, content r = a) → (∃ r ∈ rows, content r = b) →
        link a b → rank a < rank b := fun a b ha hb => hlink a b (hsub ha) (hsub hb)
    -- what is below the rank of the new row is a row before it
    have hbefore : ∀ {a}, (∃ r ∈ rows ++ [r'], content r = a) → rank a < rank (content r') →
        ∃ r ∈ rows, content r = a := by
      rintro a ⟨r, hr, rfl⟩ hlt
      rw [List.mem_append, List.mem_singleton] at hr
      obtain hr | rfl := hr
      · exact ⟨r, hr, rfl⟩
      · exact absurd hlt (lt_irrefl _)
    have hfront : ∀ {front c}, IsPath link first {b | ∃ r ∈ rows ++ [r'], content r = b} front →
        c ∈ front.getLast? → rank c < rank (content r') →
        IsPath link first {b | ∃ r ∈ rows, content r = b} front := by
      intro front c hfront hc hlt
      refine hfront.mono fun a ha => hbefore (hfront.mem a ha) ?_
      exact lt_of_le_of_lt (hfront.rank_le (fun a ha b hb => hlink a b ha hb) hc a ha) hlt
    intro r hr hrb
    rw [reached_concat]
    rw [List.mem_append, List.mem_singleton] at hr
    obtain ⟨rfl, hfirst'⟩ | ⟨front, c, rfl, hpre, hc, hcb⟩ := hpath.cases_last hb
    · -- the path is the row itself
      obtain hr | rfl := hr
      · obtain ⟨w, hw, hle⟩ := ih hlink' hinit (isPath_singleton ⟨r, hr, hrb⟩ hfirst') rfl r hr hrb
        exact ⟨w, mem_reach.mpr (.inl hw), hle⟩
      · refine ⟨weight b, mem_reach.mpr (.inr ⟨_, ?_, rfl⟩), by simp [total]⟩
        rw [hrb, value, if_pos hfirst']
    · have hcmem := hpre.mem c (List.mem_of_getLast? hc)
      have hbmem := hpath.mem b (List.mem_append_right _ (List.mem_singleton_self b))
      have hcb' : rank c < rank b := hlink c b hcmem hbmem hcb
      obtain hr | rfl := hr
      · have hle : rank b ≤ rank (content r') := hrb ▸ hlast r hr r' (List.mem_singleton_self r')
        have hpre' := hfront hpre hc (lt_of_lt_of_le hcb' hle)
        obtain ⟨w, hw, hle⟩ := ih hlink' hinit (hpre'.concat hc hcb ⟨r, hr, hrb⟩) hb r hr hrb
        exact ⟨w, mem_reach.mpr (.inl hw), hle⟩
      · subst hrb
        have hpre' := hfront hpre hc hcb'
        obtain ⟨p, hp, hpc⟩ := hpre'.mem c (List.mem_of_getLast? hc)
        obtain ⟨w, hw, hle⟩ := ih hlink' hinit hpre' hc p hp hpc
        obtain ⟨m, hm, hwm⟩ := le_bestPred hw (hpc.symm ▸ hcb)
        -- a first content has no path to it but itself
        have hnot : ¬ first (content r) := by
          intro hfst
          obtain ⟨a, ha, hfa⟩ := hpre.first
          have hle := hpre.rank_le (fun a ha b hb => hlink a b ha hb) hc a (List.mem_of_mem_head? ha)
          rw [hfirst a hfa, ← hfirst _ hfst] at hle
          exact absurd hcb' (not_lt.mpr hle)
        refine ⟨m + weight (content r), mem_reach.mpr (.inr ⟨_, ?_, rfl⟩), ?_⟩
        · rw [value, if_neg hnot, hm]
          rfl
        · rw [total_concat]
          exact Nat.add_le_add_right (hle.trans hwm) _

end Ranked

/-! ## The first of the largest -/

section FirstMax

variable {γ κ : Type*} [LinearOrder κ] (key : γ → κ)

/-- A loop that keeps the largest so far, beginning with `start`. -/
def firstMax (start : γ) (l : List γ) : γ := l.foldl (fun m x => if key m < key x then x else m) start

/-- It ends with `start`, or with the first of the largest. -/
theorem firstMax_cases (key : γ → κ) (start : γ) (l : List γ) :
    (firstMax key start l = start ∧ ∀ y ∈ l, key y ≤ key start) ∨
      ∃ pre post, l = pre ++ firstMax key start l :: post ∧
        (∀ y ∈ pre, key y < key (firstMax key start l)) ∧
        ∀ y ∈ post, key y ≤ key (firstMax key start l) := by
  induction l using List.reverseRecOn with
  | nil => exact .inl ⟨rfl, fun y hy => absurd hy List.not_mem_nil⟩
  | append_singleton l x ih =>
    have hstep : firstMax key start (l ++ [x]) =
        if key (firstMax key start l) < key x then x else firstMax key start l := by
      rw [firstMax, List.foldl_append]
      rfl
    have hmax : ∀ y ∈ l, key y ≤ key (firstMax key start l) := by
      obtain ⟨h, hle⟩ | ⟨pre, post, h, hpre, hpost⟩ := ih
      · rw [h]
        exact hle
      · intro y hy
        rw [h, List.mem_append, List.mem_cons] at hy
        obtain hy | rfl | hy := hy
        · exact (hpre y hy).le
        · exact le_refl _
        · exact hpost y hy
    rw [hstep]
    by_cases hlt : key (firstMax key start l) < key x
    · rw [if_pos hlt]
      exact .inr ⟨l, [], rfl, fun y hy => lt_of_le_of_lt (hmax y hy) hlt,
        fun y hy => absurd hy List.not_mem_nil⟩
    · rw [if_neg hlt]
      obtain ⟨h, hle⟩ | ⟨pre, post, h, hpre, hpost⟩ := ih
      · refine .inl ⟨h, fun y hy => ?_⟩
        rw [List.mem_append, List.mem_singleton] at hy
        obtain hy | rfl := hy
        · exact hle y hy
        · exact h ▸ not_lt.mp hlt
      · refine .inr ⟨pre, post ++ [x], ?_, hpre, fun y hy => ?_⟩
        · rw [← List.cons_append, ← List.append_assoc, ← h]
        · rw [List.mem_append, List.mem_singleton] at hy
          obtain hy | rfl := hy
          · exact hpost y hy
          · exact not_lt.mp hlt

end FirstMax

end HeaviestPath
end Hazync
