import Hazync.Coordinator.RangeId
import Hazync.Lib.KeyedTable
import Hazync.Lib.Runs
import Hazync.Lib.SlidingWindow
import Mathlib.Algebra.Order.Ring.Rat
import Mathlib.Data.Rat.Defs

/-!
# The rate limiter (`rate_ok`, `coordinator/server.py`)

A log of times for each kind of request and address, in one map. A call looks at the log of its own
key, cut to the last `RATE_WINDOW` seconds. When there are more than `RATE_MAP_MAX` keys, those
whose last time is that old are thrown out first, which changes no answer.

What is thrown out is bounded by what has aged, and not by what comes in: where more addresses call
within one window, the map holds them all.

## Why throwing out is harmless

The answer to a call depends on the times of its key within the window, and on nothing else of the
map. A key is thrown out only if its last time is a window old, and its log is in the order of the
clock, so none of its times would be counted by this call or by a later one. This is what
`RateInv.logged` says, in the form that goes through the induction: the recent part of each log is
the recent part of what was let through in the run so far, at every time from now on. The sliding
window itself, and that no more than the limit falls into any of them, is a fact about lists of
times, in the library.

## Why the bound fails

The map is looked at before the new key goes in. If it is over its size, the aged are thrown out,
and if none has aged it stays as big as it is and the new key is added. `HasRoom` is the condition
on the map before the call: a call that is exempt, a map that is not over its size, a key that is
there already, or one that has aged. Where it fails the map grows, by one for every new address
within the window (`rate_map_unbounded`).
-/

namespace Hazync
namespace Coordinator

open KeyedTable SlidingWindow

/-- A key of the map. -/
structure RateKey where
  kind : String
  ip : String
deriving DecidableEq

abbrev RateMap := List (RateKey × List ℚ)

/-- What the environment sets. -/
structure RateConfig where
  window : ℚ
  mapMax : ℕ
  exempt : List String

/-- A call, with the clock it reads. -/
structure RateCall where
  now : ℚ
  key : RateKey
  limit : ℕ

/-- `_rate.get(key, ())` -/
def RateMap.get (m : RateMap) (k : RateKey) : List ℚ := (find Prod.fst k m).elim [] Prod.snd

/-- The entry with another log. -/
def relog (q : List ℚ) (e : RateKey × List ℚ) : RateKey × List ℚ := (e.1, q)

/-- `_rate[key] = q` -/
def RateMap.set (m : RateMap) (k : RateKey) (q : List ℚ) : RateMap :=
  upsert Prod.fst (k, q) (relog q) m

variable (cfg : RateConfig)

/-- `not v or now - v[-1] >= RATE_WINDOW` -/
def agedOut (now : ℚ) (q : List ℚ) : Bool := q.getLast?.all fun t => cfg.window ≤ now - t

/-- Above `RATE_MAP_MAX` keys, those that have aged out are dropped; otherwise the map is left. -/
def evict (now : ℚ) (m : RateMap) : RateMap :=
  if cfg.mapMax < m.length then m.filter fun e => !agedOut cfg now e.2 else m

/-- `rate_ok`: whether the call is let through, and the map after it. A call of an exempt address
    leaves no trace. -/
def rateOk (m : RateMap) (c : RateCall) : Bool × RateMap :=
  if c.key.ip ∈ cfg.exempt then (true, m)
  else
    let m := evict cfg c.now m
    let q := recent cfg.window c.now (m.get c.key)
    if c.limit ≤ q.length then (false, m.set c.key q)
    else (true, m.set c.key (q ++ [c.now]))

/-! ## Runs -/

/-- The map and the clock that the last call has read. -/
structure RateState where
  map : RateMap
  clock : ℚ

/-- A call, and its answer. -/
def RateStep (s : RateState) (e : RateCall × Bool) (s' : RateState) : Prop :=
  s.clock ≤ e.1.now ∧ rateOk cfg s.map e.1 = (e.2, s'.map) ∧ s'.clock = e.1.now

abbrev RateRun := Runs.Run (fun s : RateState => s.map = []) (RateStep cfg)

/-- When the calls of a key were let through. -/
def allowedAt (k : RateKey) (trace : List (RateState × (RateCall × Bool) × RateState)) : List ℚ :=
  (trace.filter fun t => t.2.1.1.key = k ∧ t.2.1.2 = true).map fun t => t.2.1.1.now

/-! ## The map -/

@[simp] theorem fst_relog (q : List ℚ) (e : RateKey × List ℚ) : (relog q e).1 = e.1 := rfl

namespace RateMap

variable {m : RateMap} {k k' : RateKey} {q : List ℚ}

/-- What a key has after a write. -/
theorem get_set (m : RateMap) (k k' : RateKey) (q : List ℚ) :
    (m.set k q).get k' = if k' = k then q else m.get k' := by
  unfold get set
  rw [find_upsert (fst_relog q)]
  by_cases hk : k' = k
  · rw [if_pos hk, if_pos hk]
    cases find Prod.fst k' m <;> rfl
  · rw [if_neg hk, if_neg hk]

theorem nodup_set (h : (m.map Prod.fst).Nodup) : ((m.set k q).map Prod.fst).Nodup :=
  nodup_upsert (fst_relog q) (k, q) h

theorem length_set (m : RateMap) (k : RateKey) (q : List ℚ) :
    (m.set k q).length = if ∃ e ∈ m, e.1 = k then m.length else m.length + 1 := by
  have hkeys := congrArg List.length (map_upsert (fst_relog q) (k, q) m)
  rw [List.length_map] at hkeys
  unfold set
  rw [hkeys]
  split <;> simp

end RateMap

variable {cfg} {now now' : ℚ} {m : RateMap} {c : RateCall} {k : RateKey}

theorem nodup_evict (h : (m.map Prod.fst).Nodup) : ((evict cfg now m).map Prod.fst).Nodup := by
  unfold evict
  split
  · exact h.sublist (List.filter_sublist.map Prod.fst)
  · exact h

/-- What is thrown out had no recent time: a key has its log still, or had one that has aged. -/
theorem get_evict (hm : (m.map Prod.fst).Nodup) (k : RateKey) :
    (evict cfg now m).get k = m.get k ∨
      (evict cfg now m).get k = [] ∧ agedOut cfg now (m.get k) = true := by
  unfold evict
  split
  · unfold RateMap.get
    rw [find_filter hm]
    cases hfind : find Prod.fst k m with
    | none => exact .inl rfl
    | some e =>
      rw [Option.filter_some]
      cases haged : agedOut cfg now e.2 with
      | true => exact .inr ⟨rfl, haged⟩
      | false => exact .inl rfl
  · exact .inl rfl

/-- Throwing out changes no recent time. -/
theorem recent_evict (hm : (m.map Prod.fst).Nodup) (hsorted : (m.get k).Pairwise (· ≤ ·))
    (hnow : now ≤ now') :
    recent cfg.window now' ((evict cfg now m).get k) = recent cfg.window now' (m.get k) := by
  rcases get_evict hm k with heq | ⟨heq, haged⟩
  · rw [heq]
  · have hlast : ∀ t ∈ (m.get k).getLast?, cfg.window ≤ now - t := by
      intro t ht
      rw [agedOut, Option.mem_def.mp ht] at haged
      simpa using haged
    have hnone : recent cfg.window now (m.get k) = [] := recent_eq_nil hsorted hlast
    rw [heq, ← recent_recent hnow (l := m.get k), hnone]

/-- The answer to a call that is not exempt, and the map after it. -/
theorem rateOk_eq (hexempt : c.key.ip ∉ cfg.exempt) :
    ∃ q, rateOk cfg m c = (decide (q.length < c.limit),
        (evict cfg c.now m).set c.key (if q.length < c.limit then q ++ [c.now] else q)) ∧
      q = recent cfg.window c.now ((evict cfg c.now m).get c.key) := by
  refine ⟨_, ?_, rfl⟩
  unfold rateOk
  rw [if_neg hexempt]
  dsimp only
  split
  · rename_i hfull
    have hnot := not_lt.mpr hfull
    rw [if_neg hnot, decide_eq_false hnot]
  · rename_i hfew
    have hlt := not_le.mp hfew
    rw [if_pos hlt, decide_eq_true hlt]

/-! ## What the map knows -/

/-- The logs are in order, and of what was let through they have all that is recent. -/
structure RateInv (cfg : RateConfig) (trace : List (RateState × (RateCall × Bool) × RateState))
    (s : RateState) : Prop where
  /-- One log for each key. -/
  nodup : (s.map.map Prod.fst).Nodup
  /-- A log is in the order of the clock, so that its last time is its latest. -/
  sorted : ∀ k, (s.map.get k).Pairwise (· ≤ ·)
  past : ∀ k, ∀ t ∈ s.map.get k, t ≤ s.clock
  /-- Evictions and cuts have cost it nothing that a later call could still count. -/
  logged : ∀ k, k.ip ∉ cfg.exempt → ∀ now, s.clock ≤ now →
    recent cfg.window now (s.map.get k) = recent cfg.window now (allowedAt k trace)

theorem allowedAt_append (k : RateKey)
    (trace trace' : List (RateState × (RateCall × Bool) × RateState)) :
    allowedAt k (trace ++ trace') = allowedAt k trace ++ allowedAt k trace' := by
  unfold allowedAt
  rw [List.filter_append, List.map_append]

/-- What one call adds to the times of a key. -/
theorem allowedAt_singleton {s s' : RateState} {ok : Bool} :
    allowedAt k [(s, (c, ok), s')] = if c.key = k ∧ ok = true then [c.now] else [] := by
  unfold allowedAt
  by_cases h : c.key = k ∧ ok = true
  · rw [if_pos h, List.filter_cons_of_pos (by simpa using h)]
    rfl
  · rw [if_neg h, List.filter_cons_of_neg (by simpa using h)]
    rfl

/-- What a call that is not exempt finds, and leaves. -/
theorem RateInv.answer {trace : List (RateState × (RateCall × Bool) × RateState)}
    {s s' : RateState} {ok : Bool} (hs : RateInv cfg trace s) (hstep : RateStep cfg s (c, ok) s')
    (hexempt : c.key.ip ∉ cfg.exempt) :
    ok = decide ((recent cfg.window c.now (allowedAt c.key trace)).length < c.limit) ∧
      s'.map = (evict cfg c.now s.map).set c.key
        (recent cfg.window c.now (allowedAt c.key trace) ++
          allowedAt c.key [(s, (c, ok), s')]) := by
  obtain ⟨hclock, hok, -⟩ := hstep
  obtain ⟨q, heq, hq⟩ := rateOk_eq (m := s.map) hexempt
  have hlogged : q = recent cfg.window c.now (allowedAt c.key trace) := by
    rw [hq, recent_evict hs.nodup (hs.sorted c.key) le_rfl]
    exact hs.logged c.key hexempt c.now hclock
  rw [heq] at hok
  obtain ⟨rfl, hmap⟩ := Prod.mk.inj hok
  rw [← hlogged]
  refine ⟨rfl, ?_⟩
  rw [← hmap, allowedAt_singleton]
  by_cases hfew : q.length < c.limit
  · simp [hfew]
  · simp [hfew]

/-- **A call keeps what the map knows.** An eviction and a cut take times that no later call counts;
    an answer that lets through adds the time to the log and to the run alike. -/
theorem RateInv.step {trace : List (RateState × (RateCall × Bool) × RateState)}
    {s s' : RateState} {e : RateCall × Bool} (hs : RateInv cfg trace s)
    (hstep : RateStep cfg s e s') : RateInv cfg (trace ++ [(s, e, s')]) s' := by
  obtain ⟨c, ok⟩ := e
  have hclock : s.clock ≤ s'.clock := by
    rw [hstep.2.2]
    exact hstep.1
  by_cases hexempt : c.key.ip ∈ cfg.exempt
  · -- the map stays, and no key of it is the caller's
    have hmap : s'.map = s.map := by
      have hok := hstep.2.1
      unfold rateOk at hok
      rw [if_pos hexempt] at hok
      exact (Prod.mk.inj hok).2.symm
    refine ⟨by rw [hmap]; exact hs.nodup, by rw [hmap]; exact hs.sorted, ?_, ?_⟩
    · intro k t ht
      rw [hmap] at ht
      exact (hs.past k t ht).trans hclock
    -- what a window keeps of the list is what it keeps of the log
    · intro k hk now hnow
      have hne : c.key ≠ k := by
        intro heq
        rw [← heq] at hk
        exact hk hexempt
      rw [hmap, allowedAt_append, allowedAt_singleton, if_neg fun h => hne h.1, List.append_nil]
      exact hs.logged k hk now (hclock.trans hnow)
  · obtain ⟨-, hmap⟩ := hs.answer hstep hexempt
    -- only the caller's list changes, and keys may be evicted
    have hget : ∀ k, s'.map.get k = if k = c.key then
        recent cfg.window c.now (allowedAt c.key trace) ++ allowedAt c.key [(s, (c, ok), s')]
        else (evict cfg c.now s.map).get k := by
      intro k
      rw [hmap, RateMap.get_set]
    have hlog : ∀ t ∈ recent cfg.window c.now (allowedAt c.key trace), t ∈ s.map.get c.key := by
      intro t ht
      rw [← hs.logged c.key hexempt c.now hstep.1] at ht
      exact (mem_recent.mp ht).1
    have hlast : ∀ t ∈ allowedAt c.key [(s, (c, ok), s')], t = c.now := by
      intro t ht
      rw [allowedAt_singleton] at ht
      split at ht
      · exact List.mem_singleton.mp ht
      · cases ht
    have hevicted : ∀ k, ∀ t ∈ (evict cfg c.now s.map).get k, t ∈ s.map.get k := by
      intro k t ht
      rcases get_evict hs.nodup k with heq | ⟨heq, -⟩
      · rwa [heq] at ht
      · rw [heq] at ht
        cases ht
    refine ⟨?_, ?_, ?_, ?_⟩
    · rw [hmap]
      exact RateMap.nodup_set (nodup_evict hs.nodup)
    · intro k
      rw [hget]
      split
      -- what is left of the list is sorted, and the new time is the last
      · rw [List.pairwise_append]
        refine ⟨?_, ?_, ?_⟩
        · rw [← hs.logged c.key hexempt c.now hstep.1]
          exact (hs.sorted c.key).filter _
        · rw [allowedAt_singleton]
          split <;> simp
        · intro t ht t' ht'
          rw [hlast t' ht']
          exact (hs.past c.key t (hlog t ht)).trans hstep.1
      · rcases get_evict hs.nodup k with heq | ⟨heq, -⟩
        · rw [heq]
          exact hs.sorted k
        · rw [heq]
          exact List.Pairwise.nil
    · intro k t ht
      rw [hget] at ht
      split at ht
      · rcases List.mem_append.mp ht with ht | ht
        · exact (hs.past c.key t (hlog t ht)).trans hclock
        · rw [hlast t ht, hstep.2.2]
      · exact (hs.past k t (hevicted k t ht)).trans hclock
    · intro k hk now hnow
      rw [hget, allowedAt_append, recent_append]
      have hle : c.now ≤ now := by
        rw [← hstep.2.2]
        exact hnow
      split
      · rename_i heq
        rw [heq, recent_append, recent_recent hle]
      · rename_i hne
        -- an evicted list had nothing within the window any more
        rw [recent_evict hs.nodup (hs.sorted k) hle, hs.logged k hk now (hclock.trans hnow),
          allowedAt_singleton, if_neg fun h => hne h.1.symm]
        simp

/-- The map knows what it should in every state of a run. -/
theorem RateInv.of_run {trace : List (RateState × (RateCall × Bool) × RateState)} {s : RateState}
    (h : RateRun cfg trace s) : RateInv cfg trace s := by
  induction h with
  | nil hinit =>
    refine ⟨by simp [hinit], ?_, ?_, ?_⟩
    · intro k
      rw [hinit]
      exact List.Pairwise.nil
    · intro k t ht
      rw [hinit] at ht
      cases ht
    · intro k _ now _
      rw [hinit]
      rfl
  | snoc _ hstep ih => exact ih.step hstep

/-! ## The size of the map -/

/-- The call is exempt, or there are not too many keys, or its own is there, or one has aged. -/
def HasRoom (cfg : RateConfig) (m : RateMap) (c : RateCall) : Prop :=
  c.key.ip ∈ cfg.exempt ∨ m.length ≤ cfg.mapMax ∨ (∃ e ∈ m, e.1 = c.key) ∨
    ∃ e ∈ m, agedOut cfg c.now e.2 = true

instance : Decidable (HasRoom cfg m c) := inferInstanceAs (Decidable (_ ∨ _ ∨ _ ∨ _))

/-- Where nothing has aged, nothing is thrown out. -/
theorem evict_of_fresh (h : ∀ e ∈ m, agedOut cfg now e.2 = false) : evict cfg now m = m := by
  unfold evict
  split
  · apply List.filter_eq_self.mpr
    intro e he
    rw [h e he]
    rfl
  · rfl

theorem length_evict_le (cfg : RateConfig) (now : ℚ) (m : RateMap) :
    (evict cfg now m).length ≤ m.length := by
  unfold evict
  split
  · exact List.length_filter_le _ _
  · exact le_rfl

theorem length_evict_lt (hfull : cfg.mapMax < m.length) {e : RateKey × List ℚ} (he : e ∈ m)
    (haged : agedOut cfg now e.2 = true) : (evict cfg now m).length < m.length := by
  unfold evict
  rw [if_pos hfull]
  apply List.length_filter_lt_length_iff_exists.mpr
  exact ⟨e, he, by simp [haged]⟩

/-- One key more than `RATE_MAP_MAX` stays the most there are just where there is room. -/
theorem length_rateOk (hm : m.length ≤ cfg.mapMax + 1) :
    (rateOk cfg m c).2.length ≤ cfg.mapMax + 1 ↔ HasRoom cfg m c := by
  by_cases hexempt : c.key.ip ∈ cfg.exempt
  · unfold rateOk
    rw [if_pos hexempt]
    exact ⟨fun _ => .inl hexempt, fun _ => hm⟩
  obtain ⟨q, heq, -⟩ := rateOk_eq (m := m) hexempt
  rw [heq]
  dsimp only
  rw [RateMap.length_set]
  have hle := length_evict_le cfg c.now m
  constructor
  · intro hlen
    by_contra hroom
    unfold HasRoom at hroom
    simp only [not_or, not_exists, not_and, Bool.not_eq_true, not_le] at hroom
    obtain ⟨-, hfull, hnew, hfresh⟩ := hroom
    rw [evict_of_fresh hfresh, if_neg fun ⟨e, he, hkey⟩ => hnew e he hkey] at hlen
    omega
  · intro hroom
    split
    · omega
    · rename_i hgone
      -- the caller's key comes in: there was room, or it or another key has been thrown out
      have hlt : (evict cfg c.now m).length ≤ cfg.mapMax := by
        by_cases hfull : cfg.mapMax < m.length
        · rcases hroom with h | h | ⟨e, he, hkey⟩ | ⟨e, he, haged⟩
          · exact absurd h hexempt
          · omega
          · have haged : agedOut cfg c.now e.2 = true := by
              by_contra hfresh
              apply hgone
              refine ⟨e, ?_, hkey⟩
              unfold evict
              rw [if_pos hfull]
              exact List.mem_filter.mpr ⟨he, by simpa using hfresh⟩
            have := length_evict_lt hfull he haged
            omega
          · have := length_evict_lt hfull he haged
            omega
        · omega
      omega

/-! ## What a run keeps -/

/-- The limit in every window, the answers that a map without evictions gives,
and the bound on the map. -/
structure RateKept (cfg : RateConfig)
    (trace : List (RateState × (RateCall × Bool) × RateState)) : Prop where
  /-- In any window no more than the limit of a key's calls is let through. -/
  limited : ∀ k, k.ip ∉ cfg.exempt → ∀ n,
    (∀ t ∈ trace, t.2.1.1.key = k → t.2.1.1.limit ≤ n) → Limited cfg.window n (allowedAt k trace)
  /-- A call is let through just where fewer than its limit were, in the window before it. -/
  answers : ∀ pre t post, trace = pre ++ t :: post → t.2.1.1.key.ip ∉ cfg.exempt →
    t.2.1.2 = decide ((recent cfg.window t.2.1.1.now (allowedAt t.2.1.1.key pre)).length <
      t.2.1.1.limit)
  /-- The map has at most one key more than `RATE_MAP_MAX`. -/
  bounded : ∀ t ∈ trace, t.2.2.map.length ≤ cfg.mapMax + 1

variable {trace : List (RateState × (RateCall × Bool) × RateState)} {s : RateState}

/-- A key that is not exempt is limited, in every window of the run, to the greatest limit that its
    calls came with. -/
theorem limited_of_run (h : RateRun cfg trace s) (hk : k.ip ∉ cfg.exempt) {n : ℕ}
    (hn : ∀ t ∈ trace, t.2.1.1.key = k → t.2.1.1.limit ≤ n) :
    Limited cfg.window n (allowedAt k trace) := by
  induction h with
  | nil => exact Limited.nil
  | @snoc trace s s' e hrun hstep ih =>
    obtain ⟨c, ok⟩ := e
    have hold := ih fun t ht => hn t (List.mem_append_left _ ht)
    rw [allowedAt_append, allowedAt_singleton]
    split
    · rename_i hin
      obtain ⟨rfl, rfl⟩ := hin
      obtain ⟨hok, -⟩ := (RateInv.of_run hrun).answer hstep hk
      have hlt := of_decide_eq_true hok.symm
      have hlimit : c.limit ≤ n :=
        hn (s, (c, true), s') (List.mem_append_right _ (List.mem_singleton_self _)) rfl
      exact hold.concat (lt_of_lt_of_le hlt hlimit)
    · rw [List.append_nil]
      exact hold

/-- The map is bounded in a run just where there is room for every call of it. -/
theorem bounded_iff_of_run (h : RateRun cfg trace s) :
    (∀ t ∈ trace, t.2.2.map.length ≤ cfg.mapMax + 1) ↔
      ∀ t ∈ trace, HasRoom cfg t.1.map t.2.1.1 := by
  have hboth : ((∀ t ∈ trace, t.2.2.map.length ≤ cfg.mapMax + 1) ↔
      ∀ t ∈ trace, HasRoom cfg t.1.map t.2.1.1) ∧
      ((∀ t ∈ trace, t.2.2.map.length ≤ cfg.mapMax + 1) → s.map.length ≤ cfg.mapMax + 1) := by
    induction h with
    | nil hinit => exact ⟨by simp, fun _ => by simp [hinit]⟩
    | @snoc trace s s' e hrun hstep ih =>
      obtain ⟨hiff, hlast⟩ := ih
      simp only [List.mem_append, List.mem_singleton, or_imp, forall_and, forall_eq]
      have hmap : s'.map = (rateOk cfg s.map e.1).2 := by rw [hstep.2.1]
      refine ⟨?_, And.right⟩
      constructor
      · intro ⟨hbound, hs'⟩
        rw [hmap] at hs'
        exact ⟨hiff.mp hbound, (length_rateOk (hlast hbound)).mp hs'⟩
      · intro ⟨hroom, hs⟩
        have hbound := hiff.mpr hroom
        rw [hmap]
        exact ⟨hbound, (length_rateOk (hlast hbound)).mpr hs⟩
  exact hboth.1

/-- **A run is limited and bounded just where there is room for every call.** The limits hold in
    every run; it is the size of the map that needs the room, since a call from a new address adds
    its key also where nothing has aged. -/
theorem rate_kept_iff (h : RateRun cfg trace s) :
    RateKept cfg trace ↔ ∀ t ∈ trace, HasRoom cfg t.1.map t.2.1.1 := by
  rw [← bounded_iff_of_run h]
  constructor
  · exact RateKept.bounded
  · intro hbound
    refine ⟨fun k hk n hn => limited_of_run h hk hn, ?_, hbound⟩
    intro pre t post heq hexempt
    obtain ⟨hrun, hstep⟩ := h.split heq
    exact ((RateInv.of_run hrun).answer hstep hexempt).1

/-! ## Many addresses at once -/

/-- What holds where the environment sets nothing. -/
def defaultRate : RateConfig where
  window := 60
  mapMax := 50000
  exempt := []

/-- The key of a write from the address `i`. -/
def floodKey (i : ℕ) : RateKey := ⟨"w", toString i⟩

/-- The first write of address `i`, at time 0. -/
def floodCall (i : ℕ) : RateCall := ⟨0, floodKey i, 120⟩

theorem floodKey_inj {i j : ℕ} (h : floodKey i = floodKey j) : i = j :=
  toString_inj (RateKey.mk.inj h).2

/-- `n` addresses call at one moment. -/
theorem flood_run (n : ℕ) : ∃ trace s, RateRun defaultRate trace s ∧ s.clock = 0 ∧
    s.map.length = n ∧ ∀ e ∈ s.map, ∃ i < n, e = (floodKey i, [0]) := by
  induction n with
  | zero => exact ⟨[], ⟨[], 0⟩, .nil rfl, rfl, rfl, by simp⟩
  | succ n ih =>
    obtain ⟨trace, s, hrun, hclock, hlen, hall⟩ := ih
    have hfresh : ∀ e ∈ s.map, agedOut defaultRate (floodCall n).now e.2 = false := by
      intro e he
      obtain ⟨i, -, rfl⟩ := hall e he
      have hpos : (0 : ℚ) < 60 := by decide
      simp [agedOut, defaultRate, floodCall, hpos]
    have hnew : ∀ e ∈ s.map, e.1 ≠ floodKey n := by
      intro e he heq
      obtain ⟨i, hi, rfl⟩ := hall e he
      exact absurd (floodKey_inj heq) hi.ne
    have hget : s.map.get (floodKey n) = [] := by
      unfold RateMap.get
      rw [find_none.mpr hnew]
      rfl
    have hstep : RateStep defaultRate s (floodCall n, true) ⟨s.map.set (floodKey n) [0], 0⟩ := by
      have hexempt : (floodCall n).key.ip ∉ defaultRate.exempt := List.not_mem_nil
      obtain ⟨q, heq, hq⟩ := rateOk_eq (m := s.map) hexempt
      have hnil : q = [] := by
        rw [hq, evict_of_fresh hfresh, floodCall, hget, recent_nil]
      rw [hnil, evict_of_fresh hfresh] at heq
      exact ⟨hclock.le, heq, rfl⟩
    refine ⟨_, _, hrun.snoc hstep, rfl, ?_, ?_⟩
    · rw [RateMap.length_set, if_neg fun ⟨e, he, hkey⟩ => hnew e he hkey, hlen]
    · intro e he
      have hset : s.map.set (floodKey n) [0] = s.map ++ [(floodKey n, [0])] := by
        unfold RateMap.set upsert
        exact if_neg fun ⟨e, he, hkey⟩ => hnew e he hkey
      rw [hset] at he
      rcases List.mem_append.mp he with he | he
      · obtain ⟨i, hi, heq⟩ := hall e he
        exact ⟨i, Nat.lt_succ_of_lt hi, heq⟩
      · exact ⟨n, Nat.lt_succ_self n, List.mem_singleton.mp he⟩

/-- 50002 addresses, and as many keys. -/
theorem rate_map_unbounded : ∃ trace s, RateRun defaultRate trace s ∧
    ¬ s.map.length ≤ defaultRate.mapMax + 1 := by
  obtain ⟨trace, s, hrun, -, hlen, -⟩ := flood_run 50002
  refine ⟨trace, s, hrun, ?_⟩
  rw [hlen]
  decide

/-- A map of one key and one more. -/
def tightRate : RateConfig where
  window := 60
  mapMax := 1
  exempt := []

/-- One address is over its limit, and its log makes room for a third one when it has aged. -/
theorem rate_kept_tight : ∃ trace s, RateRun tightRate trace s ∧
    (trace.map fun t => (t.2.1.1.key, t.2.1.2)) =
      [(floodKey 0, true), (floodKey 0, false), (floodKey 1, true), (floodKey 2, true)] ∧
    s.map = [(floodKey 1, [2]), (floodKey 2, [61])] ∧ RateKept tightRate trace := by
  have hstart : RateRun tightRate [] ⟨[], 0⟩ := .nil rfl
  have hfirst := hstart.snoc (show RateStep tightRate _ (⟨0, floodKey 0, 1⟩, true)
    ⟨[(floodKey 0, [0])], 0⟩ from ⟨le_rfl, by decide +kernel, rfl⟩)
  have hrefused := hfirst.snoc (show RateStep tightRate _ (⟨1, floodKey 0, 1⟩, false)
    ⟨[(floodKey 0, [0])], 1⟩ from ⟨by decide, by decide +kernel, rfl⟩)
  have hsecond := hrefused.snoc (show RateStep tightRate _ (⟨2, floodKey 1, 1⟩, true)
    ⟨[(floodKey 0, [0]), (floodKey 1, [2])], 2⟩ from ⟨by decide, by decide +kernel, rfl⟩)
  have hevicts := hsecond.snoc (show RateStep tightRate _ (⟨61, floodKey 2, 1⟩, true)
    ⟨[(floodKey 1, [2]), (floodKey 2, [61])], 61⟩ from ⟨by decide, by decide +kernel, rfl⟩)
  refine ⟨_, _, hevicts, rfl, rfl, (rate_kept_iff hevicts).mpr ?_⟩
  decide +kernel

end Coordinator
end Hazync
