import Hazync.Guest.Range
import Hazync.Guest.Validated

/-!
# What a chunk's journal is of

Every position of a chunk's vectors is of one owned input of one entry of its payload, the same
in all four (`Row`). Chunks can be concatenated, and so can their rows (`Traced.append`); what an
entry without owned inputs says of its wtxid stands under a key that the next entry takes over, or
behind the last row. So the totals of the aggregate are rows too, and a row whose digest is that
of the block's own bytes is of these bytes.

## Rows behind vectors

A journal has five vectors, and the claim about it is about what stands in the same place of four of
them and under one key of the fifth. `Traced` says that there is a list of rows from which all are
computed. It goes through each of the loops: the entries of a chunk, and the chunks of an aggregate
(`Traced.append`).

The keys are the delicate part. A chunk numbers its inputs from 0, and the aggregate adds the number
of inputs there were before, in `u32`. So that a key means one row, the rows must be fewer than 2³²,
which the capacity of the vectors sees to (`room`). An entry that owns nothing lists its wtxid under
the number of the row that comes next; the lookup takes the last entry of a key, and that is of the
transaction that owns the row.
-/

namespace Hazync
namespace Guest

open ByteStrings

variable {H : Type}

/-- One owned input, as a chunk saw it, and the leaf it wrote. -/
structure Row (H : Type) where
  rawTx : Blob
  prevouts : Blob
  flags : UInt32
  ref : InputRef
  leaf : H

namespace Row

/-- The digest of the row. -/
def bind (hs : Hashing H) (row : Row H) : H :=
  inputBindFrom hs (txBind hs row.rawTx.1 row.prevouts.1 row.flags) row.ref

/-- The sequence of the input, as `tx_seqs_batch` reports it. -/
def seq (core : Core) (row : Row H) : UInt32 :=
  (core.unserializeTx row.rawTx.1).elim 0 fun tx =>
    (tx.vin[row.ref.inputIdx.toNat]?).elim 0xFFFFFFFF TxIn.nSequence

/-- The version of the transaction, as the batch reports it. -/
def ver (core : Core) (row : Row H) : Int32 :=
  (core.unserializeTx row.rawTx.1).elim 0 fun tx => tx.version.toInt32

/-- The row's script was verified, with the row's leaf. -/
def ScriptOk (hs : Hashing H) (core : Core) (row : Row H) : Prop :=
  Guest.ScriptOk hs core row.flags row.rawTx.1 row.prevouts.1 row.ref row.leaf

end Row

/-- The rows behind the vectors of some chunks. -/
structure Traced (hs : Hashing H) (core : Core) (rows : List (Row H)) (t : ChunkTotals H) :
    Prop where
  /-- One bind, leaf, sequence number and version for each row, in order. -/
  binds : t.binds = rows.map (Row.bind hs)
  leaves : t.leaves = rows.map Row.leaf
  seqs : t.seqs = rows.map (Row.seq core)
  vers : t.vers = rows.map (Row.ver core)
  /-- If every chunk reports success, every row's script has passed. -/
  valid : t.chunksOk = true → ∀ row ∈ rows, row.ScriptOk hs core
  /-- The rows are counted in a word. -/
  room : rows.length < 2 ^ 32
  /-- A transaction's wtxid is listed under the number of rows there were before it. -/
  keys : ∀ p ∈ t.wtxids, ∃ k ≤ rows.length, p.1 = UInt32.ofNat k
  /-- That of the first one under 0. -/
  head : rows ≠ [] → ∃ p ∈ t.wtxids, p.1 = 0
  /-- What is listed under a row's number is of the row's own bytes. -/
  wtxid : ∀ (i : ℕ) (row : Row H) p, rows[i]? = some row →
    t.wtxids.reverse.lookup (UInt32.ofNat i) = some p → txWtxidInfo core row.rawTx.1 = some p

/-- The local indices of the second part move up by `n`. -/
def shiftKeys (n : ℕ) (wtxids : List (UInt32 × Bytes32 × UInt32)) :
    List (UInt32 × Bytes32 × UInt32) :=
  wtxids.map fun (first, wt, hw) => (UInt32.ofNat n + first, wt, hw)

/-- The totals of two parts, as the aggregate adds them. -/
def ChunkTotals.append (t u : ChunkTotals H) : ChunkTotals H where
  binds := t.binds ++ u.binds
  chunksOk := t.chunksOk && u.chunksOk
  wtxids := t.wtxids ++ shiftKeys t.binds.length u.wtxids
  leaves := t.leaves ++ u.leaves
  seqs := t.seqs ++ u.seqs
  vers := t.vers ++ u.vers

/-- The journal of a chunk as totals of one part. -/
def ChunkOut.totals (out : ChunkOut H) : ChunkTotals H where
  binds := out.binds
  chunksOk := out.allValid
  wtxids := out.txWtxids
  leaves := out.leavesOut
  seqs := out.seqsOut
  vers := out.versOut

variable {hs : Hashing H} {core : Core}

theorem ofNat_inj_of_lt {a b : ℕ} (ha : a < 2 ^ 32) (hb : b < 2 ^ 32)
    (h : UInt32.ofNat a = UInt32.ofNat b) : a = b := by
  have hnat := congrArg UInt32.toNat h
  rwa [UInt32.toNat_ofNat', UInt32.toNat_ofNat', Nat.mod_eq_of_lt ha, Nat.mod_eq_of_lt hb] at hnat

/-- What a lookup finds is an entry of the key. -/
theorem mem_of_lookup_reverse {ps : List (UInt32 × Bytes32 × UInt32)} {k : UInt32}
    {p : Bytes32 × UInt32} (h : ps.reverse.lookup k = some p) : (k, p) ∈ ps := by
  obtain ⟨l₁, l₂, heq, -⟩ := List.lookup_eq_some_iff.mp h
  rw [← List.mem_reverse, heq]
  simp

/-- A key in the shifted part is a key of that part. -/
theorem lookup_shiftKeys (n k : ℕ) (ps : List (UInt32 × Bytes32 × UInt32)) :
    (shiftKeys n ps).reverse.lookup (UInt32.ofNat (n + k)) =
      ps.reverse.lookup (UInt32.ofNat k) := by
  rw [shiftKeys, ← List.map_reverse]
  induction ps.reverse with
  | nil => rfl
  | cons p ps ih =>
    obtain ⟨first, wt, hw⟩ := p
    rw [List.map_cons, List.lookup_cons, List.lookup_cons, ih, UInt32.ofNat_add]
    have : (UInt32.ofNat n + UInt32.ofNat k == UInt32.ofNat n + first) =
        (UInt32.ofNat k == first) := by
      rw [Bool.eq_iff_iff, beq_iff_eq, beq_iff_eq]
      exact UInt32.add_right_inj _
    rw [this]

/-- Concatenating chunks concatenates their rows. -/
theorem Traced.append {rows₁ rows₂ : List (Row H)} {t₁ t₂ : ChunkTotals H}
    (h₁ : Traced hs core rows₁ t₁) (h₂ : Traced hs core rows₂ t₂)
    (hroom : rows₁.length + rows₂.length < 2 ^ 32) :
    Traced hs core (rows₁ ++ rows₂) (t₁.append t₂) := by
  have hlen : t₁.binds.length = rows₁.length := by rw [h₁.binds, List.length_map]
  refine
    { binds := ?_, leaves := ?_, seqs := ?_, vers := ?_, valid := ?_, room := ?_, keys := ?_
      head := ?_, wtxid := ?_ }
  · rw [ChunkTotals.append, h₁.binds, h₂.binds, List.map_append]
  · rw [ChunkTotals.append, h₁.leaves, h₂.leaves, List.map_append]
  · rw [ChunkTotals.append, h₁.seqs, h₂.seqs, List.map_append]
  · rw [ChunkTotals.append, h₁.vers, h₂.vers, List.map_append]
  · intro hvalid row hrow
    obtain ⟨hv₁, hv₂⟩ := Bool.and_eq_true_iff.mp hvalid
    rcases List.mem_append.mp hrow with hrow | hrow
    · exact h₁.valid hv₁ row hrow
    · exact h₂.valid hv₂ row hrow
  · rwa [List.length_append]
  -- the keys of the second part are shifted by the length of the first
  · intro p hp
    rw [List.length_append]
    rcases List.mem_append.mp hp with hp | hp
    · obtain ⟨k, hk, heq⟩ := h₁.keys p hp
      exact ⟨k, hk.trans (Nat.le_add_right _ _), heq⟩
    · obtain ⟨⟨first, wt, hw⟩, hq, rfl⟩ := List.mem_map.mp hp
      obtain ⟨k, hk, rfl⟩ := h₂.keys _ hq
      refine ⟨rows₁.length + k, Nat.add_le_add_left hk _, ?_⟩
      rw [hlen, UInt32.ofNat_add]
  -- the first key is that of the first part that has one
  · intro hne
    cases hrows : rows₁ with
    | cons row rest =>
      obtain ⟨p, hp, hzero⟩ := h₁.head (by simp [hrows])
      exact ⟨p, List.mem_append_left _ hp, hzero⟩
    | nil =>
      obtain ⟨⟨first, wt, hw⟩, hp, rfl⟩ := h₂.head (by simpa [hrows] using hne)
      refine ⟨(UInt32.ofNat t₁.binds.length + 0, wt, hw),
        List.mem_append_right _ (List.mem_map.mpr ⟨_, hp, rfl⟩), ?_⟩
      rw [hlen, hrows]
      rfl
  · intro i row p hi hlookup
    obtain ⟨hilt, -⟩ := List.getElem?_eq_some_iff.mp hi
    rw [List.length_append] at hilt
    rw [ChunkTotals.append, List.reverse_append, List.lookup_append, hlen] at hlookup
    rcases Nat.lt_or_ge i rows₁.length with hlt | hge
    · -- an earlier key: the second part has none below its start
      rw [List.getElem?_append_left hlt] at hi
      cases hshift : (shiftKeys rows₁.length t₂.wtxids).reverse.lookup (UInt32.ofNat i) with
      | none =>
        rw [hshift] at hlookup
        exact h₁.wtxid i row p hi (by simpa using hlookup)
      | some q =>
        exfalso
        obtain ⟨⟨first, wt, hw⟩, hq, heq⟩ := List.mem_map.mp (mem_of_lookup_reverse hshift)
        obtain ⟨k, hk, hfirst⟩ := h₂.keys _ hq
        dsimp only at hfirst
        subst hfirst
        have hkey := (Prod.mk.inj heq).1
        rw [← UInt32.ofNat_add] at hkey
        have := ofNat_inj_of_lt (by lia) (by lia) hkey
        lia
    · -- the second part has this key, or the row would have none before it
      obtain ⟨k, rfl⟩ := Nat.exists_eq_add_of_le hge
      rw [List.getElem?_append_right hge, Nat.add_sub_cancel_left] at hi
      rw [lookup_shiftKeys] at hlookup
      cases hown : t₂.wtxids.reverse.lookup (UInt32.ofNat k) with
      | some q =>
        rw [hown] at hlookup
        obtain rfl : q = p := by simpa using hlookup
        exact h₂.wtxid k row q hi hown
      | none =>
        exfalso
        rw [hown] at hlookup
        have hmem := mem_of_lookup_reverse (show t₁.wtxids.reverse.lookup _ = some p by
          simpa using hlookup)
        obtain ⟨k', hk', heq⟩ := h₁.keys _ hmem
        have hk : rows₁.length + k = k' :=
          ofNat_inj_of_lt (by lia) (by lia) ((UInt32.ofNat_add _ _).trans heq)
        obtain rfl : k = 0 := by lia
        obtain ⟨⟨first, q⟩, hq, rfl⟩ := h₂.head (List.ne_nil_of_mem (List.mem_of_getElem? hi))
        have hnone := List.lookup_eq_none_iff.mp hown _ (List.mem_reverse.mpr hq)
        simp at hnone

/-! ## Where rows come from -/

/-- There are no rows before the first chunk. -/
theorem Traced.start : Traced hs core [] (ChunkTotals.start : ChunkTotals H) where
  binds := rfl
  leaves := rfl
  seqs := rfl
  vers := rfl
  valid _ row hrow := by cases hrow
  room := by norm_num
  keys p hp := by cases hp
  head hne := absurd rfl hne
  wtxid i row p hi := by simp at hi

/-- The results of a transaction's batch, against those of each input by itself. -/
theorem verifyInputsBatch_eq_some {raw prevouts : Bytes} {flags : UInt32} {refs : List InputRef}
    {structural : Int} {results : List (Int × H)}
    (h : verifyInputsBatch hs core raw prevouts flags refs = some (structural, results)) :
    ∃ f : InputRef → Int × H, results = refs.map f ∧
      ∀ ref, ∃ r, verifyInput hs core raw ref prevouts flags = some (r, (f ref).2) ∧
        (r = 1 ↔ structural = 1 ∧ (f ref).1 = 1) := by
  obtain ⟨tx, htx, h⟩ := Option.bind_eq_some_iff.mp h
  obtain ⟨spent, hspent, h⟩ := Option.bind_eq_some_iff.mp h
  split at h
  · rename_i hlen
    obtain ⟨rfl, rfl⟩ := Prod.mk.inj (Option.some.inj h)
    refine ⟨_, rfl, fun ref => ⟨-60, ?_, by simp⟩⟩
    rw [verifyInput, htx, Option.bind_eq_bind, Option.bind_some, hspent, Option.bind_eq_bind,
      Option.bind_some, if_pos (.inr hlen)]
  · rename_i hlen
    obtain ⟨rfl, rfl⟩ := Prod.mk.inj (Option.some.inj h)
    refine ⟨_, rfl, fun ref => ⟨_, ?_, (and_iff_right rfl).symm⟩⟩
    rw [verifyInput, htx, Option.bind_eq_bind, Option.bind_some, hspent, Option.bind_eq_bind,
      Option.bind_some]
    by_cases hidx : spent.length ≤ ref.inputIdx.toNat
    · rw [if_pos (.inl hidx), if_pos hidx]
    · rw [if_neg (not_or.mpr ⟨hidx, hlen⟩), if_neg hidx]

/-- What `verify_input` returns on a row's bytes, whose leaf is the row's. -/
def Row.Verified (hs : Hashing H) (core : Core) (row : Row H) (r : Int) : Prop :=
  verifyInput hs core row.rawTx.1 row.ref row.prevouts.1 row.flags = some (r, row.leaf)

/-- The bytes and the entry a row is of. -/
def Row.source (row : Row H) : Blob × Blob × UInt32 × InputRef :=
  (row.rawTx, row.prevouts, row.flags, row.ref)

/-- The rows of an entry, whose transaction they all share. -/
theorem chunkTx_traced {flags : UInt32} {out out' : ChunkOut H} {e : ChunkTx}
    (h : chunkTx hs core flags out e = some out') :
    ∃ (rows : List (Row H)) (t : ChunkTotals H), Traced hs core rows t ∧
      out'.totals = out.totals.append t ∧ out'.kind = out.kind ∧
      out.binds.length + rows.length ≤ vecCapacity32 ∧
      rows.map Row.source = e.owned.map (fun ref => (e.rawTx, e.prevouts, flags, ref)) ∧
      (∀ row ∈ rows, ∃ r, row.Verified hs core r) ∧
      (rows ≠ [] → t.chunksOk = false → ∃ row ∈ rows, ¬ row.Verified hs core 1) := by
  obtain ⟨⟨structural, results⟩, hverify, h⟩ := Option.bind_eq_some_iff.mp h
  obtain ⟨⟨ver, seqs⟩, hseqs, h⟩ := Option.bind_eq_some_iff.mp h
  obtain ⟨⟨wt, hw⟩, hwtxid, h⟩ := Option.bind_eq_some_iff.mp h
  dsimp only at h
  split at h
  · rename_i hroom
    obtain rfl := Option.some.inj h
    obtain ⟨f, rfl, hvalid⟩ := verifyInputsBatch_eq_some hverify
    -- an input is verified when both the transaction and the input pass
    have hone (ref : InputRef) :
        verifyInput hs core e.rawTx.1 ref e.prevouts.1 flags = some (1, (f ref).2) ↔
          structural = 1 ∧ (f ref).1 = 1 := by
      obtain ⟨r, hr, hiff⟩ := hvalid ref
      rw [hr, ← hiff, Option.some_inj, Prod.mk.injEq, and_iff_left rfl]
    obtain ⟨tx, htx, hseqs⟩ := Option.bind_eq_some_iff.mp hseqs
    obtain ⟨rfl, rfl⟩ := Prod.mk.inj (Option.some.inj hseqs)
    -- one row for each input that is owned
    let row (ref : InputRef) : Row H :=
      { rawTx := e.rawTx, prevouts := e.prevouts, flags := flags, ref := ref, leaf := (f ref).2 }
    refine ⟨e.owned.map row,
      { binds := e.owned.map (inputBindFrom hs (txBind hs e.rawTx.1 e.prevouts.1 flags))
        chunksOk := decide (structural = 1) && (e.owned.map f).all fun r => r.1 = 1
        wtxids := [(0, wt, hw)]
        leaves := e.owned.map fun ref => (f ref).2
        seqs := e.owned.map fun ref =>
          (tx.vin[ref.inputIdx.toNat]?).elim 0xFFFFFFFF TxIn.nSequence
        vers := e.owned.map fun _ => tx.version.toInt32 }, ?_, ?_, rfl, ?_, ?_, ?_, ?_⟩
    · refine
        { binds := ?_, leaves := ?_, seqs := ?_, vers := ?_, valid := ?_, room := ?_, keys := ?_
          head := ?_, wtxid := ?_ }
      · rw [List.map_map]
        rfl
      · rw [List.map_map]
        rfl
      · rw [List.map_map]
        refine List.map_congr_left fun ref _ => ?_
        rw [Function.comp_apply, Row.seq, htx]
        rfl
      · rw [List.map_map]
        refine List.map_congr_left fun ref _ => ?_
        rw [Function.comp_apply, Row.ver, htx]
        rfl
      · intro hok r hr
        obtain ⟨ref, href, rfl⟩ := List.mem_map.mp hr
        obtain ⟨hstructural, hall⟩ := Bool.and_eq_true_iff.mp hok
        have hresult := List.all_eq_true.mp hall (f ref) (List.mem_map.mpr ⟨ref, href, rfl⟩)
        exact verifyInput_ok ((hone ref).mpr
          ⟨of_decide_eq_true hstructural, of_decide_eq_true hresult⟩)
      · rw [List.length_map]
        have : vecCapacity32 < 2 ^ 32 := by decide
        lia
      · intro p hp
        obtain rfl := List.mem_singleton.mp hp
        exact ⟨0, Nat.zero_le _, rfl⟩
      · exact fun _ => ⟨_, List.mem_singleton_self _, rfl⟩
      · intro i r p hi hlookup
        have hp := List.mem_singleton.mp (mem_of_lookup_reverse hlookup)
        obtain ⟨ref, -, rfl⟩ := List.mem_map.mp (List.mem_of_getElem? hi)
        rw [(Prod.mk.inj hp).2]
        exact hwtxid
    · simp [ChunkOut.totals, ChunkTotals.append, shiftKeys, Bool.and_assoc, Function.comp_def]
    · rwa [List.length_map]
    · rw [List.map_map]
      rfl
    · intro r hr
      obtain ⟨ref, -, rfl⟩ := List.mem_map.mp hr
      obtain ⟨code, hcode, -⟩ := hvalid ref
      exact ⟨code, hcode⟩
    -- a chunk that fails has an input that does
    · intro hne hbad
      by_contra hall
      push Not at hall
      obtain ⟨head, hhead⟩ := List.exists_mem_of_ne_nil _ hne
      obtain ⟨ref, -, rfl⟩ := List.mem_map.mp hhead
      have hstructural := ((hone ref).mp (hall _ hhead)).1
      refine Bool.eq_false_iff.mp hbad (Bool.and_eq_true_iff.mpr
        ⟨decide_eq_true hstructural, List.all_eq_true.mpr fun p hp => ?_⟩)
      obtain ⟨ref', href', rfl⟩ := List.mem_map.mp hp
      exact decide_eq_true ((hone ref').mp (hall _ (List.mem_map.mpr ⟨ref', href', rfl⟩))).2
  · cases h

/-- A chunk's journal is rows, whatever its payload. -/
theorem chunkProve_traced {p : ChunkPayload} {out : ChunkOut H}
    (h : chunkProve hs core p = some out) :
    out.kind = KIND_CHUNK ∧ ∃ rows : List (Row H), Traced hs core rows out.totals := by
  have hinv := Runs.foldlM_invariant
    (p := fun out : ChunkOut H => out.kind = KIND_CHUNK ∧
      ∃ rows : List (Row H), Traced hs core rows out.totals)
    (fun e _ out out' ⟨hkind, rows, hrows⟩ hstep => by
      obtain ⟨rows', t, ht, htotals, hkind', hroom, -⟩ := chunkTx_traced hstep
      refine ⟨hkind'.trans hkind, rows ++ rows', ?_⟩
      rw [htotals]
      refine hrows.append ht ?_
      have hlen : out.binds.length = rows.length := by
        have := congrArg List.length hrows.binds
        rwa [List.length_map] at this
      have : vecCapacity32 < 2 ^ 32 := by decide
      lia)
    ⟨rfl, [], Traced.start⟩ h
  exact hinv

/-- A chunk's journal adds its rows to the totals. -/
theorem addChunk_traced {p : ChunkPayload} {out : ChunkOut H} {t t' : ChunkTotals H}
    {rows : List (Row H)} (hrows : Traced hs core rows t) (hp : chunkProve hs core p = some out)
    (h : addChunk t out = some t') :
    ∃ rows' : List (Row H), Traced hs core rows' out.totals ∧
      Traced hs core (rows ++ rows') t' := by
  obtain ⟨-, rows', hrows'⟩ := chunkProve_traced hp
  rw [addChunk] at h
  split at h
  · rename_i hroom
    obtain rfl := Option.some.inj h
    refine ⟨rows', hrows', hrows.append hrows' ?_⟩
    have hlen : t.binds.length = rows.length := by rw [hrows.binds, List.length_map]
    have hlen' : out.binds.length = rows'.length := by
      have := congrArg List.length hrows'.binds
      rwa [List.length_map] at this
    have : vecCapacity32 < 2 ^ 32 := by decide
    lia
  · cases h

/-- So are the totals of the aggregate, when the journals it verifies are of chunks. -/
theorem addJournals_traced {zkvm : Zkvm H} {selfId : ImageId} {journals : List Bytes}
    {t : ChunkTotals H}
    (hchunks : ∀ j ∈ journals, ∀ out, zkvm.verify selfId j = true → zkvm.decodeChunk j = some out →
      out.kind = KIND_CHUNK → ∃ p, chunkProve hs core p = some out)
    (h : addJournals zkvm selfId journals = some t) :
    ∃ rows : List (Row H), Traced hs core rows t := by
  refine Runs.foldlM_invariant
    (p := fun t : ChunkTotals H => ∃ rows : List (Row H), Traced hs core rows t)
    (fun j hj t t' ⟨rows, hrows⟩ hstep => ?_) ⟨[], Traced.start⟩ h
  obtain ⟨_, hverify, hstep⟩ := Option.bind_eq_some_iff.mp hstep
  obtain ⟨out, hout, hstep⟩ := Option.bind_eq_some_iff.mp hstep
  have hkind : out.kind = KIND_CHUNK := by
    by_contra hne
    rw [addChunk, if_neg fun h => hne h.1] at hstep
    cases hstep
  obtain ⟨p, hp⟩ := hchunks j hj out ((Option.guard_eq_some' _).mp hverify) hout hkind
  obtain ⟨rows', -, hrows'⟩ := addChunk_traced hrows hp hstep
  exact ⟨_, hrows'⟩

end Guest
end Hazync
