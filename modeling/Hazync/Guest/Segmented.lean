import Hazync.Guest.ChunkSound

/-!
# The chunks of a block's own inputs

A split of the inputs into consecutive parts, and for each part what `chunk_prove` commits for
exactly those inputs, under the block's height and hash (`SegmentedBy`). The totals of such chunks
have one row for each input of the block, in order, and each row is of that input's own bytes
(`SegmentedBy.exact`).

## From some chunks to the right ones

That chunks cannot lie is a statement about any journals. For the converse, that a block which
passes by itself passes on chunks, one has to say which chunks: the host has cut the inputs into
parts and made a payload of each. `SegmentedBy` is that, from the guest's side, without saying how
the host cuts: an entry may own any run of consecutive inputs of one transaction, a transaction may
be spread over entries and chunks, a part may be empty.

`Exact` is `Traced` with the rows known: they are the inputs of the block, one after the other. And
where the totals say that a chunk found a bad script, one of the rows is bad.
-/

namespace Hazync
namespace Guest

open ByteStrings
open Accumulator (Stump)

variable {H : Type}

/-- An entry for consecutive inputs that resolve to one transaction. -/
structure EntryFor (w : BlockWitness H) (e : ChunkTx) (run : List (BlockInput H)) : Prop where
  nonempty : run ≠ []
  owned : e.owned = run.map BlockInput.ref
  /-- The blobs of the entry are those of the transaction that the inputs are in. -/
  bytes : ∀ inp ∈ run, ∃ ti, w.resolve inp = some (ti, e.rawTx, e.prevouts)

/-- A payload for a part of the block's inputs. -/
structure PayloadFor (hs : Hashing H) (w : BlockWitness H) (p : ChunkPayload)
    (part : List (BlockInput H)) : Prop where
  height : p.height = w.height
  /-- A chunk is told which block it is a part of. -/
  blockHash : p.blockHash = w.blockHash hs
  /-- Its inputs, transaction by transaction. -/
  entries : ∃ runs, part = runs.flatten ∧ List.Forall₂ (EntryFor w) p.txs runs

/-- `outs` are what `chunk_prove` commits for a split of the inputs into consecutive parts. -/
def SegmentedBy (hs : Hashing H) (core : Core) (w : BlockWitness H) (outs : List (ChunkOut H)) :
    Prop :=
  ∃ payloads parts, w.inputs = parts.flatten ∧ List.Forall₂ (PayloadFor hs w) payloads parts ∧
    List.Forall₂ (fun p out => chunkProve hs core p = some out) payloads outs

/-- The row is of this input of the block. -/
structure RowFor (hs : Hashing H) (core : Core) (w : BlockWitness H) (inp : BlockInput H)
    (row : Row H) : Prop where
  /-- The blobs are those of the input's transaction. -/
  bytes : ∃ ti, w.resolve inp = some (ti, row.rawTx, row.prevouts)
  flags : row.flags = w.flags hs
  ref : row.ref = inp.ref
  /-- And the script has been run on them. -/
  verified : ∃ r, row.Verified hs core r

/-- The totals are those of exactly these inputs. -/
structure Exact (hs : Hashing H) (core : Core) (w : BlockWitness H) (inputs : List (BlockInput H))
    (rows : List (Row H)) (t : ChunkTotals H) : Prop extends Traced hs core rows t where
  source : List.Forall₂ (RowFor hs core w) inputs rows
  invalid : t.chunksOk = false → ∃ row ∈ rows, ¬ row.Verified hs core 1

variable {hs : Hashing H} {core : Core} {w : BlockWitness H}

/-- No chunks have the rows of no inputs. -/
theorem Exact.start : Exact hs core w [] [] (ChunkTotals.start : ChunkTotals H) where
  toTraced := Traced.start
  source := .nil
  invalid h := by cases h

theorem Traced.length_binds {rows : List (Row H)} {t : ChunkTotals H}
    (h : Traced hs core rows t) : t.binds.length = rows.length := by rw [h.binds, List.length_map]

/-- Two parts, one after the other. -/
theorem Exact.append {xs ys : List (BlockInput H)} {rows₁ rows₂ : List (Row H)}
    {t₁ t₂ : ChunkTotals H} (h₁ : Exact hs core w xs rows₁ t₁) (h₂ : Exact hs core w ys rows₂ t₂)
    (hroom : t₁.binds.length + t₂.binds.length ≤ vecCapacity32) :
    Exact hs core w (xs ++ ys) (rows₁ ++ rows₂) (t₁.append t₂) where
  toTraced := by
    refine h₁.toTraced.append h₂.toTraced ?_
    rw [h₁.length_binds, h₂.length_binds] at hroom
    exact lt_of_le_of_lt hroom (by decide)
  source := List.rel_append h₁.source h₂.source
  invalid := by
    intro h
    rcases Bool.and_eq_false_iff.mp h with h | h
    · obtain ⟨row, hrow, hbad⟩ := h₁.invalid h
      exact ⟨row, List.mem_append_left _ hrow, hbad⟩
    · obtain ⟨row, hrow, hbad⟩ := h₂.invalid h
      exact ⟨row, List.mem_append_right _ hrow, hbad⟩

/-- An entry adds the rows of its run. -/
theorem chunkTx_exact {out out' : ChunkOut H} {e : ChunkTx} {run : List (BlockInput H)}
    (he : EntryFor w e run) (h : chunkTx hs core (w.flags hs) out e = some out') :
    ∃ rows t, Exact hs core w run rows t ∧ out'.totals = out.totals.append t ∧
      out'.kind = out.kind ∧ out.binds.length + rows.length ≤ vecCapacity32 := by
  obtain ⟨rows, t, hrows, htotals, hkind, hroom, hsource, hverified, hinvalid⟩ := chunkTx_traced h
  rw [he.owned, List.map_map] at hsource
  have hlen : rows.length = run.length := by
    have := congrArg List.length hsource
    rwa [List.length_map, List.length_map] at this
  refine ⟨rows, t, ⟨hrows, ?_, hinvalid ?_⟩, htotals, hkind, hroom⟩
  · refine List.forall₂_iff_get.mpr ⟨hlen.symm, fun i hi hj => ?_⟩
    have hi' : run[i]? = some (run.get ⟨i, hi⟩) := List.getElem?_eq_getElem hi
    have hj' : rows[i]? = some (rows.get ⟨i, hj⟩) := List.getElem?_eq_getElem hj
    have hat := congrArg (fun l => l[i]?) hsource
    simp only [List.getElem?_map, hi', hj', Option.map_some, Option.some.injEq] at hat
    obtain ⟨hraw, hprevouts, hflags, href⟩ : (rows.get ⟨i, hj⟩).rawTx = e.rawTx ∧
        (rows.get ⟨i, hj⟩).prevouts = e.prevouts ∧ (rows.get ⟨i, hj⟩).flags = w.flags hs ∧
          (rows.get ⟨i, hj⟩).ref = (run.get ⟨i, hi⟩).ref := by
      simpa only [Row.source, Function.comp_apply, Prod.mk.injEq] using hat
    obtain ⟨ti, hti⟩ := he.bytes _ (List.get_mem run ⟨i, hi⟩)
    exact ⟨⟨ti, by rw [hraw, hprevouts, hti]⟩, hflags, href, hverified _ (List.get_mem rows _)⟩
  · rintro rfl
    exact he.nonempty (List.length_eq_zero_iff.mp hlen.symm)

/-- The entries of a payload add the rows of their runs. -/
theorem chunkTxs_exact {entries : List ChunkTx} {runs : List (List (BlockInput H))}
    (hruns : List.Forall₂ (EntryFor w) entries runs) {start out : ChunkOut H}
    {done : List (BlockInput H)} {rows : List (Row H)} (hdone : Exact hs core w done rows start.totals)
    (h : entries.foldlM (chunkTx hs core (w.flags hs)) start = some out) :
    ∃ rows, Exact hs core w (done ++ runs.flatten) rows out.totals := by
  induction hruns generalizing start done rows with
  | nil =>
    obtain rfl := Option.some.inj h
    exact ⟨rows, by rwa [List.flatten_nil, List.append_nil]⟩
  | cons he _ ih =>
    rw [List.foldlM_cons] at h
    obtain ⟨next, hstep, h⟩ := Option.bind_eq_some_iff.mp h
    obtain ⟨rows', t, ht, htotals, -, hroom⟩ := chunkTx_exact he hstep
    have happend := hdone.append ht (by rw [ht.length_binds]; exact hroom)
    rw [← htotals] at happend
    rw [List.flatten_cons, ← List.append_assoc]
    exact ih happend h

/-- A chunk's journal has the rows of its part. -/
theorem chunkProve_exact {p : ChunkPayload} {part : List (BlockInput H)} {out : ChunkOut H}
    (hp : PayloadFor hs w p part) (h : chunkProve hs core p = some out) :
    ∃ rows, Exact hs core w part rows out.totals := by
  obtain ⟨runs, rfl, hruns⟩ := hp.entries
  have hflags : p.flags = w.flags hs := by
    rw [ChunkPayload.flags, hp.height, hp.blockHash]
    rfl
  rw [chunkProve, hflags] at h
  exact chunkTxs_exact hruns Exact.start h

/-- The chunks add the rows of their parts. -/
theorem addChunks_exact {payloads : List ChunkPayload} {parts : List (List (BlockInput H))}
    {outs : List (ChunkOut H)} (hparts : List.Forall₂ (PayloadFor hs w) payloads parts)
    (houts : List.Forall₂ (fun p out => chunkProve hs core p = some out) payloads outs)
    {start t : ChunkTotals H} {done : List (BlockInput H)} {rows : List (Row H)}
    (hdone : Exact hs core w done rows start) (h : outs.foldlM addChunk start = some t) :
    ∃ rows, Exact hs core w (done ++ parts.flatten) rows t := by
  induction houts generalizing parts start done rows with
  | nil =>
    cases hparts
    obtain rfl := Option.some.inj h
    exact ⟨rows, by rwa [List.flatten_nil, List.append_nil]⟩
  | cons hout _ ih =>
    cases hparts with
    | cons hp hparts =>
      rw [List.foldlM_cons] at h
      obtain ⟨next, hstep, h⟩ := Option.bind_eq_some_iff.mp h
      obtain ⟨rows', hrows'⟩ := chunkProve_exact hp hout
      rw [addChunk] at hstep
      split at hstep
      · rename_i hroom
        obtain rfl := Option.some.inj hstep
        rw [List.flatten_cons, ← List.append_assoc]
        exact ih hparts (hdone.append hrows' hroom.2) h
      · cases hstep

/-- The totals of a segmented block have the rows of all its inputs. -/
theorem SegmentedBy.exact {outs : List (ChunkOut H)} {t : ChunkTotals H}
    (hsplit : SegmentedBy hs core w outs) (h : addChunks outs = some t) :
    ∃ rows, Exact hs core w w.inputs rows t := by
  obtain ⟨payloads, parts, hinputs, hparts, houts⟩ := hsplit
  rw [hinputs]
  exact addChunks_exact hparts houts Exact.start h

end Guest
end Hazync
