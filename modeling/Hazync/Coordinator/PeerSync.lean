import Hazync.Coordinator.Steps

/-!
# What peers can put on the board

A pass over the peers writes a proof under the id that the peer gives it, after the verifier has
accepted it for the range that the peer gives it. The two are not compared. And what the pass has
already it read once, before its first download.

Where the id is the one of the range, and nothing went on record under it since, the pass adds a
true row and takes none away.

## Where the id and the range part

A peer lists entries of an id, two ends and a receipt. The pass has the receipt verified for the
ends, so what the row says of the blocks is true. The id is another matter: for a single block it is
derived, for a wider range it is taken as it came. All later lookups go by the id: a proof of
`[5..6]` under the id `7` is the row that says block 7 is verified (`sync_mislabels`).

## Why the pass must remember

What is on record the pass reads once, at its start. An id that a local submit has put on record
since is in neither its list nor the row that it writes over. `Known` says what can be relied on: an
id that the pass knows nothing of was on record nowhere when it began, and the log has every id
since. So the condition is on the adoption and on the log, and not on who was first.
-/

namespace Hazync
namespace Coordinator

open ByteStrings KeyedTable

variable {cfg : Config} {out : Outside} {s s' : State} {e : Event}

/-- The id of an adopted entry is the one of its range, which is not `[0..hi]` of several blocks,
    and nothing went on record under it since the pass read what there is. -/
def Faithful (s : State) : Event → Prop
  | .adopt p v _ lo hi _ =>
    v.rid = canonicalRangeId lo hi ∧ (lo = 0 → hi = 0) ∧ v.rid ∉ s.log.drop p.begun
  | _ => True

/-- The write of an adopted entry: one row is added, under the canonical id of what the receipt
    proves, and its row of `ranges` is of that interval. There was no verified row of that id, and
    all other rows stay. -/
structure Clean (out : Outside) (s s' : State) (v : PeerEntry) (receipt : Bytes) (m : VRange) :
    Prop where
  proves : out.proves receipt m
  rid : v.rid = canonicalRangeId m.lo m.hi
  /-- Nothing on record is replaced. -/
  fresh : ∀ x ∈ s.db.vranges, x.id ≠ v.rid
  /-- Nor was there a verified row of `ranges` under the id. -/
  freshRow : ∀ r ∈ s.db.ranges, r.id = v.rid → r.status ≠ .verified
  /-- The one new row says what the receipt proves. -/
  added : ∃ x : VRow, x.id = v.rid ∧ x.toVRange = m ∧ s'.db.vranges = s.db.vranges ++ [x]
  /-- In `ranges` there is at most one new row, of the same interval. -/
  row : ∀ r ∈ s'.db.ranges, r ∈ s.db.ranges ∨ (r.id = v.rid ∧ r.lo = m.lo ∧ r.hi = m.hi)
  /-- And none but that one has gone. -/
  kept : ∀ r ∈ s.db.ranges, r.id = v.rid ∨ r ∈ s'.db.ranges

/-! ## What a pass knows -/

/-- A pass knows of every row but those that went on record since it began, and every verified row
    of `ranges` is on record. -/
structure Known (s : State) : Prop where
  /-- A pass began in the past. -/
  begun : ∀ p ∈ s.passes, p.begun ≤ s.log.length
  /-- So an id that is in neither `have` nor the log since is on record nowhere. -/
  known : ∀ p ∈ s.passes, ∀ x ∈ s.db.vranges, x.id ∈ p.known ∨ x.id ∈ s.log.drop p.begun
  /-- The two tables agree on what is verified. -/
  recorded : ∀ r ∈ s.db.ranges, r.status = .verified → ∃ x ∈ s.db.vranges, x.id = r.id

theorem known_empty (h : s.Empty) : Known s := by
  obtain ⟨seed, rangeSize, rfl⟩ := h
  refine ⟨fun p hp => absurd hp List.not_mem_nil, fun p hp => absurd hp List.not_mem_nil, ?_⟩
  intro r hr hstatus
  obtain ⟨i, -, rfl⟩ := List.mem_map.mp hr
  cases hstatus

/-- A pass after a step is new, or was there before and knows no less. -/
theorem Step.passes_cases (h : Step cfg out s e s') {p' : Pass} (hp' : p' ∈ s'.passes) :
    (p'.known = s.db.vranges.map VRow.id ∧ p'.begun = s.log.length ∧ e = .quiet) ∨
      ∃ p ∈ s.passes, p.begun = p'.begun ∧ ∀ x ∈ p.known, x ∈ p'.known := by
  cases h with
  | fetch todo =>
    obtain rfl | hp := List.mem_cons.mp hp'
    · exact .inl ⟨rfl, rfl, rfl⟩
    · exact .inr ⟨p', hp, rfl, fun _ hx => hx⟩
  | @skip p v todo chainTip receipt host hp htodo hlimit hvisit =>
    obtain rfl | hp' := List.mem_cons.mp hp'
    · exact .inr ⟨p, hp, rfl, fun _ hx => hx⟩
    · exact .inr ⟨p', List.mem_of_mem_erase hp', rfl, fun _ hx => hx⟩
  | @reject p v todo chainTip receipt host hp htodo hlimit hvisit =>
    obtain rfl | hp' := List.mem_cons.mp hp'
    · exact .inr ⟨p, hp, rfl, fun _ hx => hx⟩
    · exact .inr ⟨p', List.mem_of_mem_erase hp', rfl, fun _ hx => hx⟩
  | @adopt p v todo chainTip lo hi receipt host m hp htodo hlimit hhost hvisit now =>
    obtain rfl | hp' := List.mem_cons.mp hp'
    · exact .inr ⟨p, hp, rfl, fun _ hx => List.mem_cons_of_mem _ hx⟩
    · exact .inr ⟨p', List.mem_of_mem_erase hp', rfl, fun _ hx => hx⟩
  | finish hp => exact .inr ⟨p', List.mem_of_mem_erase hp', rfl, fun _ hx => hx⟩
  | _ => exact .inr ⟨p', hp', rfl, fun _ hx => hx⟩

/-- **A step keeps what passes know.** Each step that puts an id on record writes it to the log. -/
theorem Known.step (hs : Known s) (h : Step cfg out s e s') : Known s' := by
  -- the log only grows, and has every id that goes on record
  have hlog : ∃ ids, s'.log = s.log ++ ids := by
    obtain ⟨-, -, hlog⟩ | ⟨v, -, -, hlog⟩ := h.vranges_cases
    · exact ⟨[], by rw [hlog, List.append_nil]⟩
    · exact ⟨[v.id], hlog⟩
  obtain ⟨ids, hids⟩ := hlog
  refine ⟨?_, ?_, ?_⟩
  · intro p' hp'
    rw [hids, List.length_append]
    obtain ⟨-, hbegun, -⟩ | ⟨p, hp, hbegun, -⟩ := h.passes_cases hp'
    · exact hbegun ▸ Nat.le_add_right _ _
    · exact hbegun ▸ (hs.begun p hp).trans (Nat.le_add_right _ _)
  · intro p' hp' x hx
    obtain ⟨hknown, -, rfl⟩ | ⟨p, hp, hbegun, hsub⟩ := h.passes_cases hp'
    · obtain ⟨-, hv, -⟩ | ⟨v, hrec, -, -⟩ := h.vranges_cases
      · rw [hknown]
        exact .inl (List.mem_map_of_mem (hv ▸ hx))
      · cases hrec
    · have hdrop : s'.log.drop p'.begun = s.log.drop p'.begun ++ ids := by
        rw [hids, List.drop_append_of_le_length (hbegun ▸ hs.begun p hp)]
      have hold : ∀ y ∈ s.db.vranges, y.id ∈ p'.known ∨ y.id ∈ s'.log.drop p'.begun := by
        intro y hy
        rw [hdrop]
        obtain hy | hy := hs.known p hp y hy
        · exact .inl (hsub _ hy)
        · exact .inr (List.mem_append_left _ (hbegun ▸ hy))
      obtain ⟨-, hv, -⟩ | ⟨v, -, hv, hlog⟩ := h.vranges_cases
      · exact hold x (hv ▸ hx)
      · rw [hv] at hx
        obtain rfl | ⟨hx, -⟩ := mem_replace.mp hx
        · obtain rfl := List.append_cancel_left (hids.symm.trans hlog)
          rw [hdrop]
          exact .inr (List.mem_append_right _ (List.mem_singleton_self _))
        · exact hold x hx
  · intro r' hr' hstatus
    obtain ⟨r, hr, hid, -, -, hverified⟩ | ⟨-, -, hclaimed⟩ | ⟨sub, -, tip, -, -, hopened⟩ |
      ⟨sub, r₀, m, rfl, r, -, hsub, hid, -⟩ | ⟨p, v, receipt, m, he, hid⟩ := h.ranges_cases hr'
    · obtain ⟨x, hx, hxid⟩ := hs.recorded r hr (hverified hstatus)
      obtain ⟨x', hx', hxid'⟩ := h.id_kept hx
      exact ⟨x', hx', hxid'.trans (hxid.trans hid)⟩
    · rw [hclaimed] at hstatus
      cases hstatus
    · rw [hopened] at hstatus
      cases hstatus
    · obtain ⟨x, hx, hxid, -⟩ := h.recorded_mem rfl
      exact ⟨x, hx, hxid.trans (hsub.symm.trans hid.symm)⟩
    · obtain ⟨x, hx, hxid, -⟩ := h.recorded_mem (congrArg Event.recorded he)
      exact ⟨x, hx, hxid.trans hid.symm⟩

/-! ## A faithful entry adds a true row -/

/-- The receipt is accepted where the host has read a range from it and its ends are those that were
    asked for. -/
theorem verifyReceipt_eq_some {host : Option VRange} {lo hi : ℤ} {m : VRange} :
    verifyReceipt host lo hi = some m ↔
      host = some m ∧ ((lo = 0 ∧ m.lo = 1 ∧ hi = m.hi) ∨ (lo = m.lo ∧ hi = m.hi)) := by
  rw [verifyReceipt, Option.filter_eq_some_iff, decide_eq_true_iff]

/-- What the pass adopts, the verifier has accepted for the entry's range, under an id that it does
    not know. -/
theorem visitEntry_adopt {p : Pass} {v : PeerEntry} {chainTip lo hi : ℕ} {receipt : Bool}
    {host : Option VRange} {m : VRange}
    (h : visitEntry p v chainTip receipt host = .adopt lo hi m) :
    v.rid ∉ p.known ∧ host = some m ∧
      ((lo = 0 ∧ m.lo = 1 ∧ hi = m.hi) ∨ (lo = m.lo ∧ hi = m.hi)) := by
  rw [visitEntry] at h
  split at h
  · cases h
  · split at h
    · cases h
    · rename_i hknown
      split at h
      · cases h
      · split at h
        · split at h
          · cases h
          · rename_i hverify
            cases h
            obtain ⟨hhost, hfits⟩ := verifyReceipt_eq_some.mp hverify
            refine ⟨hknown, hhost, ?_⟩
            omega
        · cases h

/-- What an adoption needs of the state before it: a pass that is under way, at this entry, and the
    verifier's yes. -/
theorem Step.adopt_spec {p : Pass} {v : PeerEntry} {receipt : Bytes} {lo hi : ℕ} {m : VRange}
    (h : Step cfg out s (.adopt p v receipt lo hi m) s') : p ∈ s.passes ∧ v.rid ∉ p.known ∧
      out.proves receipt m ∧ ((lo = 0 → hi = 0) → lo = m.lo ∧ hi = m.hi) ∧
      ∃ now, s'.db = Coordinator.adopt s.db v lo hi m now := by
  cases h with
  | adopt hp htodo hlimit hhost hvisit now =>
    obtain ⟨hknown, rfl, hfits⟩ := visitEntry_adopt hvisit
    have hle := out.proves_le (hhost m rfl)
    exact ⟨hp, hknown, hhost m rfl, by omega, now, rfl⟩

/-- A faithful adoption is a clean write: with the canonical id and nothing on record under it, the
    row is new, and it says what the receipt proves. -/
theorem Known.clean {p : Pass} {v : PeerEntry} {receipt : Bytes} {lo hi : ℕ} {m : VRange}
    (hs : Known s) (h : Step cfg out s (.adopt p v receipt lo hi m) s')
    (hfaithful : Faithful s (.adopt p v receipt lo hi m)) : Clean out s s' v receipt m := by
  obtain ⟨hrid, hzero, hsince⟩ := hfaithful
  obtain ⟨hp, hknown, hproves, hfits, now, hdb⟩ := h.adopt_spec
  obtain ⟨rfl, rfl⟩ := hfits hzero
  have hfresh : ∀ x ∈ s.db.vranges, x.id ≠ v.rid := by
    intro x hx hid
    obtain hmem | hmem := hs.known p hp x hx
    · exact hknown (hid ▸ hmem)
    · exact hsince (hid ▸ hmem)
  refine ⟨hproves, hrid, hfresh, ?_, ⟨v.row m now, rfl, rfl, ?_⟩, ?_, ?_⟩
  · intro r hr hid hstatus
    obtain ⟨x, hx, hxid⟩ := hs.recorded r hr hstatus
    exact hfresh x hx (hxid.trans hid)
  · have hfilter : s.db.vranges.filter (fun x => x.id ≠ v.rid) = s.db.vranges :=
      List.filter_eq_self.mpr fun x hx => decide_eq_true (hfresh x hx)
    rw [hdb]
    exact congrArg (· ++ [v.row m now]) hfilter
  · intro r hr
    rw [hdb] at hr
    obtain rfl | ⟨hr, -⟩ := mem_replace.mp hr
    · exact .inr ⟨rfl, rfl, rfl⟩
    · exact .inl hr
  · intro r hr
    rw [hdb]
    obtain hr' | hid := mem_replace_of_mem RangeRow.id
      { id := v.rid, lo := m.lo, hi := m.hi, status := .verified } hr
    · exact .inr hr'
    · exact .inl hid

/-- **Peer sync adds only true rows**, in every run whose adoptions are faithful. Whatever the peers
    list, and in whatever order the passes and the submits interleave. -/
theorem sync_adds_true_rows {trace : List (State × Event × State)}
    (h : BoardRun cfg out Faithful trace s) :
    ∀ s₁ s₂ p v receipt lo hi m, (s₁, Event.adopt p v receipt lo hi m, s₂) ∈ trace →
      Clean out s₁ s₂ v receipt m := by
  intro s₁ s₂ p v receipt lo hi m ht
  obtain ⟨hknown, hstep, hfaithful⟩ := h.forall_steps (fun s hs => known_empty hs)
    (fun s e s' hs hstep => hs.step hstep.1) _ ht
  exact hknown.clean hstep hfaithful

/-! ## One entry of a peer -/

/-- A server with the settings of its defaults. -/
def sampleConfig : Config where
  claimTtl := 3600
  claimMax := 86400
  claimGrace := 600
  claimOpenMax := 4
  claimRetakeWait := 3600
  claimRequireSig := false
  beatSkew := 120
  frontierSettle := 30
  maxAttempts := 3
  peerLimit := 200

/-- Receipts of two bytes, each for the blocks from the one to the other. -/
def sampleOutside : Outside where
  verifySig _ _ _ := false
  handleRefused _ _ _ := false
  proves receipt m := ∃ a b : UInt8, receipt = [a, b] ∧ m.lo = a.toNat ∧ m.hi = b.toNat ∧ a ≤ b
  proves_le := by
    rintro receipt m ⟨a, b, -, hlo, hhi, hle⟩
    rw [hlo, hhi]
    exact hle

def sampleRange (lo hi : ℕ) : VRange where
  lo := lo
  hi := hi
  inTip := sampleDigest 0
  outTip := sampleDigest 1
  inBhash := some (sampleDigest 0)
  outBhash := some (sampleDigest 1)
  rangeWork := 0
  outLeaves := none

/-- An entry for `[5..6]` under the id of block 7, and one under its own. -/
def mislabelled : PeerEntry := ⟨some "7", ⟨"5", some 5⟩, ⟨"6", some 6⟩, true, "peer"⟩
def labelled : PeerEntry := ⟨some "5-6", ⟨"5", some 5⟩, ⟨"6", some 6⟩, true, "peer"⟩

def emptyBoard : State := ⟨initDb 0 1, [], [], []⟩

/-- The pass over a peer that lists one entry. -/
def samplePass (v : PeerEntry) : Pass := ⟨[], [v], 0, 0, 0⟩

/-- The proof of `[a..b]` in the sample. -/
def sampleReceipt (a b : UInt8) : Bytes := [a, b]

theorem sampleOutside_proves {a b : UInt8} (hle : a ≤ b) :
    ∀ m ∈ some (sampleRange a.toNat b.toNat), sampleOutside.proves (sampleReceipt a b) m := by
  intro m hm
  cases hm
  exact ⟨a, b, rfl, rfl, rfl, hle⟩

/-- A pass that adopts an entry for `[a..b]` on the empty board. -/
theorem adopt_run (ok : State → Event → Prop) (v : PeerEntry) (a b : UInt8) (hle : a ≤ b)
    (hvisit : visitEntry (samplePass v) v 100 true (some (sampleRange a.toNat b.toNat)) =
      .adopt a.toNat b.toNat (sampleRange a.toNat b.toNat))
    (hfetch : ok emptyBoard .quiet)
    (hadopt : ok { emptyBoard with passes := [samplePass v] }
      (.adopt (samplePass v) v (sampleReceipt a b) a.toNat b.toNat (sampleRange a.toNat b.toNat))) :
    ∃ trace s s', BoardRun sampleConfig sampleOutside ok trace s' ∧
      (s, Event.adopt (samplePass v) v (sampleReceipt a b) a.toNat b.toNat
        (sampleRange a.toNat b.toNat), s') ∈ trace ∧
      s'.db.vranges = [v.row (sampleRange a.toNat b.toNat) 0] := by
  have hstart : BoardRun sampleConfig sampleOutside ok [] emptyBoard := .nil ⟨0, 1, rfl⟩
  have hfetched := hstart.snoc ⟨.fetch [v], hfetch⟩
  have hadopted := hfetched.snoc
    ⟨.adopt (List.mem_singleton_self _) rfl (show 0 + 0 < 200 by decide)
      (sampleOutside_proves hle) hvisit 0, hadopt⟩
  exact ⟨_, _, _, hadopted, List.mem_append_right _ (List.mem_singleton_self _), rfl⟩

/-- Under its own id it is a true row. -/
theorem sync_adds_true_row_labelled : ∃ s s' : State,
    Clean sampleOutside s s' labelled (sampleReceipt 5 6) (sampleRange 5 6) := by
  obtain ⟨trace, s, s', hrun, hmem, -⟩ := adopt_run Faithful labelled 5 6 (by decide) (by decide)
    trivial ⟨by decide, by decide, by decide⟩
  exact ⟨s, s', sync_adds_true_rows hrun s s' _ _ _ _ _ _ hmem⟩

/-- A proof of `[5..6]` goes on record as block 7. -/
theorem sync_mislabels : ∃ trace s s', ∃ p : Pass,
    BoardRun sampleConfig sampleOutside (fun _ _ => True) trace s' ∧
      (s, Event.adopt p mislabelled (sampleReceipt 5 6) 5 6 (sampleRange 5 6), s') ∈ trace ∧
      ¬ Clean sampleOutside s s' mislabelled (sampleReceipt 5 6) (sampleRange 5 6) := by
  obtain ⟨trace, s, s', hrun, hmem, -⟩ := adopt_run (fun _ _ => True) mislabelled 5 6 (by decide)
    (by decide) trivial trivial
  refine ⟨trace, s, s', _, hrun, hmem, fun hclean => ?_⟩
  exact absurd hclean.rid (by decide)

end Coordinator
end Hazync
