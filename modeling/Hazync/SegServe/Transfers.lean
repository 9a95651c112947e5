import Hazync.SegServe.NoLoss

/-!
# Work between two structures

Where the shared structures alone do not show a published segment: while a thread moves it, and when
the main thread has taken the last receipt. And what becomes of the tags when there are more
segments than the low bits of a tag can name, or more receipts than there are positions for the
joins of the first level: then two joins share a tag, and with it their place in `jout`.

## What is not so

One would like to read the state of a run off the shared structures: every published segment is in
`out`, in `queue` or on some list. It is not always. A writer that has taken a segment from the
queue has not put it on its list yet, and for this moment the segment is in its hand only
(`loneTook`). The main thread takes the last receipt out of `last_out` and holds it while it
publishes the lift (`loneCollected`). Nothing is lost in either case, but a reader of the structures
would miss it.

The other two limits are in the tags. The index of a segment shares its word with the bits that say
what kind a frame is, and from `2 ^ 29` on an index has the bit of `NOLIFT_TAG` itself. The tag of a
join has sixteen bits for the position, so the first level may have 65536 joins, and with `2 ^ 17 +
2` receipts there is one more. They are stated because the code checks neither number.
-/

namespace Hazync.SegServe

open ByteStrings

/-- A segment is in `out` or `last_out`, in `queue`, or in the list of a connection that has not
torn down. -/
def SegmentListed {R S : Type*} (s : State R S) (i : ℕ) : Prop :=
  (s.shared.out.getD i none).isSome ∨ s.shared.lastOut.isSome ∨ i ∈ s.shared.queue ∨
    ∃ c ∈ s.conns, c.writer ≠ .gone ∧ i ∈ c.inflight

/-- For a run in which nothing is refused. -/
def trusting (depth : ℕ) : Setup ℕ ℕ where
  depth := depth
  succinct _ := some 0
  segment _ := some 0
  merged _ := []
  pair _ _ := []
  join _ _ := 0
  joinLocalMax := 0
  nres := 0
  resolveLocal := true
  resolveBody _ _ := []
  resolve r _ := r

/-- The structures before anything has been produced. -/
def idleShared : Shared ℕ ℕ where
  wire := []
  out := []
  lastOut := none
  queue := []
  jobs := []
  jout _ := none
  totalKnown := none
  unnamed := 0
  alldone := false
  crashed := false
  published := 0
  lastAccepted := false
  sent := []
  posted := []
  accepted := []
  whose _ := none
  taken _ := false

/-! ## One segment -/

/-- The shared structures of a run of one segment, once it has been executed. -/
def lone (queue : List ℕ) (lastOut : Option ℕ) (sent : List (ℕ × UInt32)) : Shared ℕ ℕ :=
  { idleShared with
    wire := [[]], out := [none], totalKnown := some 1, published := 1, unnamed := 1
    queue := queue, lastOut := lastOut, lastAccepted := lastOut.isSome, sent := sent }

/-- A writer has taken the only segment, and not listed it yet. -/
def loneTook : State ℕ ℕ := ⟨lone [] none [], .waiting, [{ Conn.opened with writer := .took 0 }]⟩

/-- The main thread has taken the last receipt, and published the lift. -/
def loneCollected : State ℕ ℕ :=
  ⟨{ lone [] none [(0, NOLIFT_TAG)] with
      lastAccepted := true, jobs := [⟨0, LIFT_TAG, []⟩], posted := [⟨0, LIFT_TAG, []⟩] },
    .lifting [], [.opened]⟩

/-- A run to `s` in which the workers answer in order. -/
def Reached (cfg : Setup ℕ ℕ) (segments : List Bytes) (s : State ℕ ℕ) : Prop :=
  ∃ trace, ServeRun cfg segments trace s ∧ ∀ t ∈ trace, t.2.1.InOrder t.1

variable {cfg : Setup ℕ ℕ} {segments : List Bytes} {s s' : State ℕ ℕ}

/-- Nothing has happened. -/
theorem reached_start (h : State.Start segments s) : Reached cfg segments s :=
  ⟨[], .nil h, by simp⟩

/-- One step more. -/
theorem Reached.snoc (h : Reached cfg segments s) {e : Event} (he : e.InOrder s)
    (hs : Step cfg s e s') : Reached cfg segments s' := by
  obtain ⟨trace, hrun, hin⟩ := h
  refine ⟨_, hrun.snoc hs, fun t ht => ?_⟩
  obtain ht | ht := List.mem_append.mp ht
  · exact hin t ht
  · rw [List.mem_singleton.mp ht]
    exact he

/-- A run that gets there. -/
theorem reached_loneTook : Reached (trusting 1) [[]] loneTook := by
  have h₁ : Reached (trusting 1) [[]]
      ⟨{ idleShared with wire := [[]], out := [none] }, .executing [] (some 0) none, []⟩ :=
    (reached_start rfl).snoc (e := .main) trivial (.main rfl (.produce _ _ _ _))
  have h₂ : Reached (trusting 1) [[]]
      ⟨{ idleShared with wire := [[]], out := [none], totalKnown := some 1 }, .executed, []⟩ :=
    h₁.snoc (e := .main) trivial (.main rfl (.execute _ _))
  have h₃ : Reached (trusting 1) [[]] ⟨{ lone [0] none [] with unnamed := 0 }, .waiting, []⟩ :=
    h₂.snoc (e := .main) trivial (.main rfl (.publishLast _ (by decide)))
  have h₄ : Reached (trusting 1) [[]] ⟨lone [0] none [], .waiting, [.opened]⟩ :=
    h₃.snoc (e := .accept) trivial (.accept rfl rfl)
  exact h₄.snoc (e := .write 0) trivial (.write rfl rfl (.take _ _ 0 [] rfl (by decide) rfl))

/-- So does one here. -/
theorem reached_loneCollected : Reached (trusting 1) [[]] loneCollected := by
  have h₆ : Reached (trusting 1) [[]] ⟨lone [] none [], .waiting,
      [{ Conn.opened with inflight := [0], writer := .sending 0 NOLIFT_TAG }]⟩ :=
    reached_loneTook.snoc (e := .write 0) trivial
      (.write rfl rfl (.record _ _ 0 rfl (by decide)))
  have h₇ : Reached (trusting 1) [[]] ⟨lone [] none [(0, NOLIFT_TAG)], .waiting,
      [{ Conn.opened with inflight := [0], unanswered := [NOLIFT_TAG] }]⟩ :=
    h₆.snoc (e := .write 0) trivial (.write rfl rfl (.sent _ _ 0 NOLIFT_TAG rfl))
  have h₈ : Reached (trusting 1) [[]] ⟨lone [] none [(0, NOLIFT_TAG)], .waiting,
      [{ Conn.opened with reader := .segment NOLIFT_TAG [] }]⟩ := by
    refine h₇.snoc (e := .receive 0 NOLIFT_TAG []) ?_
      (.receive rfl rfl (.segment _ _ rfl (by decide) (by decide)))
    rintro - c hc
    obtain rfl := Option.some.inj hc
    rfl
  have h₉ : Reached (trusting 1) [[]]
      ⟨lone [] (some 0) [(0, NOLIFT_TAG)], .waiting, [.opened]⟩ :=
    h₈.snoc (e := .judge 0) trivial
      (.judge rfl rfl (.acceptLast _ _ NOLIFT_TAG [] 0 rfl (by decide) rfl))
  exact h₉.snoc (e := .main) trivial (.main rfl (.collect _ 0 [] (by decide) rfl (by decide) rfl))

/-! ## Many segments -/

variable {N k : ℕ}

/-- After `m + 1` of `N + 1` segments have been produced, with no one connected. -/
def producedState (N m : ℕ) : State ℕ ℕ where
  shared :=
    { idleShared with
      wire := List.replicate (m + 1) [], out := List.replicate (m + 1) none
      queue := List.range m, published := m }
  main := .executing (List.replicate (N - m) []) (some m) none
  conns := []

/-- After `k` segments have gone to the only connection, which has answered none. -/
def streamedState (N k : ℕ) : State ℕ ℕ where
  shared :=
    { idleShared with
      wire := List.replicate (N + 1) [], out := List.replicate (N + 1) none
      queue := List.range' k (N - k), published := N, unnamed := 1
      sent := (List.range k).map fun i => (i, UInt32.ofNat i) }
  main := .executing [] (some N) none
  conns := [{ Conn.opened with
    inflight := List.range k, unanswered := (List.range k).map UInt32.ofNat }]

/-- The executor goes on alone. -/
theorem reached_producedState {m : ℕ} (hm : m ≤ N) :
    Reached (trusting N) (List.replicate (N + 1) []) (producedState N m) := by
  induction m with
  | zero =>
    exact (reached_start rfl).snoc (e := .main) trivial (.main rfl (.produce _ [] (List.replicate N []) _))
  | succ m ih =>
    have hrest : List.replicate (N - m) ([] : Bytes) = [] :: List.replicate (N - (m + 1)) [] := by
      rw [show N - m = N - (m + 1) + 1 by omega, List.replicate_succ]
    have h := ih (Nat.le_of_succ_le hm)
    rw [producedState, hrest] at h
    have hnext := (h.snoc (e := .main) trivial (.main rfl (.produce _ _ _ _))).snoc (e := .main) trivial
      (.main rfl (.publish _ _ _ _))
    simpa [producedState, List.replicate_succ', List.range_succ] using hnext

/-- The only connection takes one segment after the other. -/
theorem reached_streamedState (hk : k ≤ N) :
    Reached (trusting N) (List.replicate (N + 1) []) (streamedState N k) := by
  induction k with
  | zero =>
    have h := (reached_producedState (le_refl N)).snoc (e := .accept) trivial (.accept rfl rfl)
    simpa [producedState, streamedState, List.range_eq_range', idleShared, Conn.opened] using h
  | succ k ih =>
    have hqueue : List.range' k (N - k) = k :: List.range' (k + 1) (N - (k + 1)) := by
      rw [show N - k = N - (k + 1) + 1 by omega, List.range'_succ]
    have h := ih (Nat.le_of_succ_le hk)
    have h₁ := h.snoc (e := .write 0) trivial (.write rfl rfl
      (.take _ _ k (List.range' (k + 1) (N - (k + 1))) rfl (by simpa [trusting] using Nat.lt_of_succ_le hk) hqueue))
    have h₂ := h₁.snoc (e := .write 0) trivial (.write rfl rfl (.record _ _ k rfl (by
      simpa [streamedState] using Nat.lt_succ_of_lt (Nat.lt_of_succ_le hk))))
    have h₃ := h₂.snoc (e := .write 0) trivial (.write rfl rfl (.sent _ _ k _ rfl))
    simpa [streamedState, List.range_succ, segTag, idleShared, Conn.opened] using h₃

/-- A segment goes out before the last one is known, under the tag its index makes. -/
theorem exists_reached_sent (k : ℕ) :
    ∃ s, Reached (trusting (k + 1)) (List.replicate (k + 1 + 1) []) s ∧
      ∃ x ∈ s.shared.sent, x.1 + 1 < s.shared.wire.length ∧ x.2 = UInt32.ofNat k := by
  refine ⟨_, reached_streamedState (le_refl (k + 1)), (k, UInt32.ofNat k), ?_, ?_, rfl⟩
  · exact List.mem_map_of_mem (List.mem_range.mpr (Nat.lt_succ_self k))
  · simp [streamedState]

/-! ## What the structures do not show -/

/-- With `2 ^ 17 + 2` receipts the last join of the first level has the tag of the first join of the
next one. -/
theorem joins_share_tag : (0, 65536) ∈ Driver.places (joinTreeWidths 131074) ∧
    (1, 0) ∈ Driver.places (joinTreeWidths 131074) ∧ joinTag 0 65536 = joinTag 1 0 := by
  have hwidths : joinTreeWidths 131074 =
      131074 :: 65537 :: joinTreeWidths (CarryLevels.width 65537 1) := by
    have hhalf : CarryLevels.width 131074 1 = 65537 := by
      rw [CarryLevels.width_succ, CarryLevels.width_zero]
    rw [joinTreeWidths_of_one_lt (n := 131074) (by decide), hhalf,
      joinTreeWidths_of_one_lt (n := 65537) (by decide)]
  have hlen := length_joinTreeWidths_pos (n := CarryLevels.width 65537 1)
  rw [hwidths]
  refine ⟨Driver.mem_places.mpr ⟨?_, ?_⟩, Driver.mem_places.mpr ⟨?_, ?_⟩, by decide⟩
  · simp
  · simp [Driver.npairs]
  · simp only [List.length_cons]
    omega
  · simp [Driver.npairs]

/-- A published segment is in no structure while a writer holds it, and the last one is in none once
the main thread has taken its receipt; of more than `2 ^ 29` segments, one that is not the last goes
out under a tag with the bit of `NOLIFT_TAG`; and the results of two joins of a tree of `2 ^ 17 + 2`
receipts have one place in `jout`. -/
theorem transfers_unlisted :
    (∃ s, Reached (trusting 1) [[]] s ∧ s.main = .waiting ∧ 0 < s.shared.published ∧
      ¬SegmentListed s 0) ∧
    (∃ s, Reached (trusting 1) [[]] s ∧ s.main = .lifting [] ∧ 0 < s.shared.published ∧
      ¬SegmentListed s 0) ∧
    (∃ n s, Reached (trusting n) (List.replicate (n + 1) []) s ∧
      ∃ x ∈ s.shared.sent, x.1 + 1 < s.shared.wire.length ∧ x.2 &&& NOLIFT_TAG ≠ 0) ∧
    (0, 65536) ∈ Driver.places (joinTreeWidths 131074) ∧
      (1, 0) ∈ Driver.places (joinTreeWidths 131074) ∧ joinTag 0 65536 = joinTag 1 0 := by
  refine ⟨⟨_, reached_loneTook, rfl, Nat.one_pos, ?_⟩, ⟨_, reached_loneCollected, rfl, Nat.one_pos, ?_⟩,
    ?_, joins_share_tag⟩
  · simp [SegmentListed, loneTook, lone, Conn.opened]
  · simp [SegmentListed, loneCollected, lone, Conn.opened]
  · obtain ⟨s, hs, x, hx, hlt, htag⟩ := exists_reached_sent (2 ^ 29)
    refine ⟨_, s, hs, x, hx, hlt, ?_⟩
    rw [htag]
    decide

/-- The last segment is kept by the main thread, and the lift it has published is queued. -/
theorem no_work_lost_collected :
    SegmentKept loneCollected 0 ∧ JobKept loneCollected ⟨0, LIFT_TAG, []⟩ := by
  obtain ⟨trace, hrun, hin⟩ := reached_loneCollected
  obtain ⟨hsegments, hjobs, -⟩ := no_work_lost (by decide) hrun hin
  exact ⟨hsegments 0 Nat.one_pos, hjobs (by decide) _ (by simp [loneCollected])⟩

end Hazync.SegServe
