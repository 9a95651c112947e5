import Hazync.Guest.ChunkTrace
import Hazync.Guest.OpTrue

/-!
# No chunk can lie to the aggregate

The aggregate checks one thing about a chunk's work: that the digest at an input's position is
that of the block's own bytes. The digest is one-to-one, so the row at that position is of these
bytes, and with it the leaf, the sequence and the version beside it, and the script the chunk
verified. What it says of a wtxid is of the row that starts there.

## From the digest to the script

A chunk may be proved on anything: on other bytes, on another height with weaker flags, on inputs of
other blocks. All of that shows in the digest of the input. So the proof goes backwards. The
aggregate has found at position `gi` the digest of the block's own bytes; the totals have a row at
that position (`Traced`), whose digest it is; the digest is one-to-one, so the row is of these bytes
and of this entry (`Traced.row_of`); and the row's script was verified, if the chunk says that all
of its scripts were.

The wtxids need an argument of their own. They are in a map under the index of a transaction's first
input, and an entry that owns no input can put its own there. It is overwritten, or it stands where
no input is.
-/

namespace Hazync
namespace Guest

open ByteStrings

variable {H : Type} [DecidableEq H] {hs : Hashing H} {core : Core} {w : BlockWitness H}
  {mtp : UInt32} {rows : List (Row H)} {t : ChunkTotals H}

/-- The row at `idx` is of the block's own bytes and of the entry there. -/
structure Row.Of (hs : Hashing H) (core : Core) (w : BlockWitness H) (row : Row H)
    (raw prevouts : Blob) (ref : InputRef) : Prop where
  /-- The bytes that the chunk has checked are the block's. -/
  rawTx : row.rawTx = raw
  prevouts : row.prevouts = prevouts
  flags : row.flags = w.flags hs
  /-- And so is what it was told of the coin. -/
  ref : row.ref = ref
  /-- So the script that it has run is the one to run. -/
  script : row.ScriptOk hs core

omit [DecidableEq H] in
/-- A digest of the block's own bytes pins the row behind it. -/
theorem Traced.row_of (hinj : Function.Injective hs.dsha256) (ht : Traced hs core rows t)
    {raw prevouts : Blob} {ref : InputRef} {idx : ℕ} (hvalid : t.chunksOk = true)
    (h : t.binds[idx]? =
      some (inputBindFrom hs (txBind hs raw.1 prevouts.1 (w.flags hs)) ref)) :
    ∃ row, rows[idx]? = some row ∧ row.Of hs core w raw prevouts ref := by
  rw [ht.binds, List.getElem?_map] at h
  obtain ⟨row, hrow, hbind⟩ := Option.map_eq_some_iff.mp h
  obtain ⟨htx, href⟩ := inputBindFrom_inj hinj hbind
  obtain ⟨hraw, hprevouts, hflags⟩ := txBind_inj hinj htx
  exact ⟨row, hrow, hraw, hprevouts, hflags, href, ht.valid hvalid row (List.mem_of_getElem? hrow)⟩

/-- What the check of a chunk's digest has compared. -/
theorem checkScript_chunk {pre : PrePass H} {s s' : LoopState H} {inp : BlockInput H}
    {idx ti : ℕ} {raw prevouts : Blob} {leaf : H}
    (hresolve : w.resolve inp = some (ti, raw, prevouts)) (hcache : CacheOk hs w s.bindCache)
    (h : checkScript hs core w t.chunks pre s inp idx ti raw.1 prevouts.1 = some (s', 1, leaf)) :
    t.binds[idx]? = some (inputBindFrom hs (txBind hs raw.1 prevouts.1 (w.flags hs)) inp.ref) ∧
      t.chunksOk = true ∧ pre.leaves[idx]? = some leaf := by
  obtain ⟨hcache', -⟩ := checkScript_frame hresolve hcache h
  obtain ⟨-, hraw, hprevouts⟩ := resolve_eq_some hresolve
  obtain ⟨leaf', hleaf, h⟩ := Option.bind_eq_some_iff.mp h
  obtain ⟨hs', hrest⟩ := Prod.mk.inj (Option.some.inj h)
  obtain ⟨hr, rfl⟩ := Prod.mk.inj hrest
  have htxb := hcache' ti _ (by rw [← hs']) raw prevouts hraw hprevouts
  rw [htxb] at hr
  split at hr
  · rename_i hbind
    exact ⟨hbind.1, hbind.2, hleaf⟩
  · cases hr

/-! ## The leaves -/

omit [DecidableEq H] in
/-- The leaves of a batch are each of its own entry. -/
theorem coinLeavesBatch_map {raw prevouts : Bytes} {refs : List InputRef} {leaves : List H}
    (h : coinLeavesBatch hs core raw prevouts refs = some leaves) :
    ∃ f : InputRef → H, leaves = refs.map f ∧
      ∀ ref, coinLeavesBatch hs core raw prevouts [ref] = some [f ref] := by
  obtain ⟨tx, htx, h⟩ := Option.bind_eq_some_iff.mp h
  obtain ⟨spent, hspent, h⟩ := Option.bind_eq_some_iff.mp h
  simp only [coinLeavesBatch, htx, hspent, Option.bind_eq_bind, Option.bind_some]
  split at h
  all_goals
    rename_i hlen
    cases h
    refine ⟨_, rfl, fun ref => ?_⟩
  · rw [if_pos hlen]
    rfl
  · rw [if_neg hlen]
    rfl

omit [DecidableEq H] in
/-- Entries with one index resolve to one transaction. -/
theorem resolve_congr {inp inp' : BlockInput H} (h : w.clampIdx inp = w.clampIdx inp') :
    w.resolve inp = w.resolve inp' := by
  rw [BlockWitness.resolve, BlockWitness.resolve, h]

omit [DecidableEq H] in
/-- A leaf of the pre-pass is recomputed from the block's own bytes. -/
theorem prePassRuns_leaf {fuel : ℕ} {inputs : List (BlockInput H)} {pre : PrePass H}
    (h : prePassRuns hs core w mtp fuel inputs = some pre) {idx : ℕ} {inp : BlockInput H} {leaf : H}
    (hinp : inputs[idx]? = some inp) (hleaf : pre.leaves[idx]? = some leaf)
    {ti : ℕ} {raw prevouts : Blob} (hresolve : w.resolve inp = some (ti, raw, prevouts)) :
    coinLeavesBatch hs core raw.1 prevouts.1 [inp.ref] = some [leaf] := by
  induction fuel generalizing inputs pre idx with
  | zero =>
    cases inputs <;> cases h <;> simp at hleaf
  | succ fuel ih =>
    cases inputs with
    | nil => simp at hinp
    | cons head tail =>
      obtain ⟨⟨ti', raw', prevouts'⟩, hhead, h⟩ := Option.bind_eq_some_iff.mp h
      obtain ⟨leaves, hleaves, h⟩ := Option.bind_eq_some_iff.mp h
      obtain ⟨locks, -, h⟩ := Option.bind_eq_some_iff.mp h
      obtain ⟨rest, hrest, h⟩ := Option.bind_eq_some_iff.mp h
      cases h
      set run := (head :: tail).takeWhile fun i => w.clampIdx i = w.clampIdx head with hrun
      obtain ⟨f, rfl, hsingle⟩ := coinLeavesBatch_map hleaves
      have hprefix : run <+: head :: tail := List.takeWhile_prefix _
      rcases Nat.lt_or_ge idx run.length with hlt | hge
      · -- the entry is in this run, so it resolves as its head does
        have hget : run[idx]? = some inp := by
          obtain ⟨rest', hsplit⟩ := hprefix
          rw [← hinp, ← hsplit, List.getElem?_append_left hlt]
        have hclamp : w.clampIdx inp = w.clampIdx head := by
          have := List.mem_takeWhile_imp (List.mem_of_getElem? hget)
          simpa using this
        rw [resolve_congr hclamp, hhead] at hresolve
        cases hresolve
        rw [hsingle]
        rw [List.getElem?_append_left (by simpa using hlt), List.map_map, List.getElem?_map, hget]
          at hleaf
        cases hleaf
        rfl
      · have hget : ((head :: tail).drop run.length)[idx - run.length]? = some inp := by
          rw [List.getElem?_drop, Nat.add_sub_cancel' hge, hinp]
        rw [List.getElem?_append_right (by simpa using hge), List.length_map, List.length_map]
          at hleaf
        exact ih hrest hget hleaf

/-- **The chunks' results are of the block's own bytes**, whichever leaves the walk takes. -/
theorem Traced.scriptsSound (hinj : Function.Injective hs.dsha256) (ht : Traced hs core rows t)
    {pre : PrePass H} (hpre : prePass hs core w mtp t.chunks = some pre) :
    ScriptsSound hs core w t.chunks pre := by
  intro s s' inp idx ti raw prevouts leaf hinp hresolve hcache h
  obtain ⟨hbind, hvalid, hleaf⟩ := checkScript_chunk hresolve hcache h
  obtain ⟨row, hrow, hof⟩ := ht.row_of hinj hvalid hbind
  obtain ⟨tx, spent, txin, out, htx, hspent, hlen, htxin, hout, hverified, hrowLeaf⟩ := hof.script
  rw [hof.rawTx] at htx
  rw [hof.prevouts] at hspent
  rw [hof.flags] at hverified
  rw [hof.ref] at htxin hout hverified hrowLeaf
  refine ⟨tx, spent, txin, out, htx, hspent, hlen, htxin, hout, hverified, ?_⟩
  rw [prePass] at hpre
  split at hpre
  · cases hpre
    have hown : t.leaves[idx]? = some row.leaf := by
      rw [ht.leaves, List.getElem?_map, hrow]
      rfl
    rw [← hrowLeaf]
    exact Option.some.inj (hleaf.symm.trans hown)
  · have hbatch := prePassRuns_leaf hpre hinp hleaf hresolve
    obtain ⟨hlt, -⟩ := List.getElem?_eq_some_iff.mp hout
    rw [coinLeavesBatch, htx, hspent] at hbatch
    simp only [Option.bind_eq_bind, Option.bind_some, hlen, ne_eq, not_true_eq_false, if_false,
      List.map_cons, List.map_nil, Option.some.injEq, List.cons.injEq, and_true] at hbatch
    rw [← hlen, if_neg (Nat.not_le.mpr hlt), coinLeaf, hout, htxin] at hbatch
    exact hbatch.symm

/-! ## The whole walk -/

/-- A round that leaves `allOk` set has found the digest of the block's own bytes. -/
theorem stepInput_bind {pre : PrePass H} {createdAt : List (H × UInt32)} {s s' : LoopState H}
    {inp : BlockInput H} {idx : ℕ} (hcache : CacheOk hs w s.bindCache)
    (h : stepInput hs core w mtp t.chunks pre createdAt s (inp, idx) = some s')
    (hok : s'.allOk = true) :
    CacheOk hs w s'.bindCache ∧ t.chunksOk = true ∧
      ∃ raw prevouts, w.txs[inp.txIdx.toNat]? = some raw ∧
        w.txPrevouts[inp.txIdx.toNat]? = some prevouts ∧
        t.binds[idx]? =
          some (inputBindFrom hs (txBind hs raw.1 prevouts.1 (w.flags hs)) inp.ref) := by
  obtain ⟨⟨ti, raw, prevouts⟩, hresolve, h⟩ := Option.bind_eq_some_iff.mp h
  obtain ⟨⟨s₁, r, leaf⟩, hscript, h⟩ := Option.bind_eq_some_iff.mp h
  obtain ⟨s₂, hfirst, h⟩ := Option.bind_eq_some_iff.mp h
  obtain ⟨s₃, hlocks, h⟩ := Option.bind_eq_some_iff.mp h
  have hall₄ := spendCoin_allOk h hok
  simp only [LoopState.require, Bool.and_eq_true, decide_eq_true_eq] at hall₄
  obtain ⟨hall₃, rfl⟩ := hall₄
  have hall₁ := (checkFirst_ok hfirst (checkLocks_ok hlocks hall₃).1).1
  have hcache₀ : CacheOk hs w
      ((s.enter inp).require (decide (ti = inp.txIdx.toNat))).bindCache := hcache
  obtain ⟨hcache₁, hs₁⟩ := checkScript_frame hresolve hcache₀ hscript
  obtain ⟨hbind, hvalid, -⟩ := checkScript_chunk hresolve hcache₀ hscript
  obtain ⟨-, hraw, hprevouts⟩ := resolve_eq_some hresolve
  have hti : ti = inp.txIdx.toNat := by
    rw [hs₁] at hall₁
    simp only [LoopState.record, LoopState.require, Bool.and_eq_true, decide_eq_true_eq] at hall₁
    exact hall₁.2
  have hcache₂ := (checkLocks_bindCache hlocks).trans (checkFirst_bindCache hfirst)
  have hcacheEq : s'.bindCache = s₁.bindCache := (spendCoin_bindCache h).trans hcache₂
  subst hti
  exact ⟨hcacheEq ▸ hcache₁, hvalid, raw, prevouts, hraw, hprevouts, hbind⟩

/-- So has every round of a walk that ends with it set. -/
theorem walk_binds {pre : PrePass H} {createdAt : List (H × UInt32)} {s s' : LoopState H}
    {ps : List (BlockInput H × ℕ)} (hcache : CacheOk hs w s.bindCache)
    (h : ps.foldlM (stepInput hs core w mtp t.chunks pre createdAt) s = some s')
    (hok : s'.allOk = true) :
    ∀ p ∈ ps, t.chunksOk = true ∧
      ∃ raw prevouts, w.txs[p.1.txIdx.toNat]? = some raw ∧
        w.txPrevouts[p.1.txIdx.toNat]? = some prevouts ∧
        t.binds[p.2]? =
          some (inputBindFrom hs (txBind hs raw.1 prevouts.1 (w.flags hs)) p.1.ref) := by
  induction ps generalizing s with
  | nil =>
    intro p hp
    cases hp
  | cons q ps ih =>
    rw [List.foldlM_cons] at h
    obtain ⟨s₁, hstep, h⟩ := Option.bind_eq_some_iff.mp h
    obtain ⟨hcache₁, hq⟩ := stepInput_bind hcache hstep (walk_allOk h hok)
    intro p hp
    rcases List.mem_cons.mp hp with rfl | hp
    · exact hq
    · exact ih hcache₁ h p hp

/-- What the totals of the chunks hold at input `gi` of the block: the script of the block's own
    bytes verified under its own flags, and the three values are those of these bytes. -/
structure ChunkInputOk (hs : Hashing H) (core : Core) (w : BlockWitness H) (t : ChunkTotals H)
    (gi : ℕ) (inp : BlockInput H) (raw prevouts : Blob) (tx : Transaction) (spent : List TxOut)
    (txin : TxIn) (out : TxOut) : Prop where
  rawAt : w.txs[inp.txIdx.toNat]? = some raw
  prevoutsAt : w.txPrevouts[inp.txIdx.toNat]? = some prevouts
  decoded : core.unserializeTx raw.1 = some tx
  outs : core.unserializeOuts prevouts.1 = some spent
  input : tx.vin[inp.inputIdx.toNat]? = some txin
  coin : spent[inp.inputIdx.toNat]? = some out
  script : core.verifyScript tx inp.inputIdx.toNat spent
    (blockScriptFlags w.height (hs.digest (hs.dsha256 w.header))) = none
  leaf : t.leaves[gi]? = some ((inp.ref.coin txin out).leaf hs)
  seq : t.seqs[gi]? = some txin.nSequence
  ver : t.vers[gi]? = some tx.version.toInt32
  /-- An entry of the map at this index is of this transaction. -/
  wtxid : ∀ entry, t.wtxids.reverse.lookup (UInt32.ofNat gi) = some entry →
    entry = (core.getWitnessHash tx, if core.hasWitness tx then 1 else 0)

/-- **No chunk can lie to the aggregate.** Whatever the payloads its chunks were proved on, an
aggregate that accepts a block has from them, at every input of the block, what the block's own
bytes give. -/
theorem chunks_cannot_lie (hinj : Function.Injective hs.dsha256) {zkvm : Zkvm H}
    {selfId : ImageId} {journals : List Bytes} {prevJournal : Bytes} {isBase : UInt32}
    {st : ChainState H}
    (hchunks : ∀ j ∈ journals, ∀ out, zkvm.decodeChunk j = some out →
      ∃ p, chunkProve hs core p = some out)
    (h : aggregate hs core zkvm selfId journals prevJournal w isBase = some st) :
    ∃ t, addJournals zkvm selfId journals = some t ∧
      ∀ (gi : ℕ) (inp : BlockInput H), w.inputs[gi]? = some inp →
        ∃ raw prevouts tx spent txin out,
          ChunkInputOk hs core w t gi inp raw prevouts tx spent txin out := by
  obtain ⟨t, ht, h⟩ := Option.bind_eq_some_iff.mp h
  -- the rows behind the journals that were added up
  obtain ⟨rows, hrows⟩ := addJournals_traced (fun j hj out _ hout _ => hchunks j hj out hout) ht
  obtain ⟨prev, r, -, -, hr, htip, -⟩ := extendChain_ok h
  have hvalid := (advance_ok htip).1
  simp only [BlockResult.blockValid, Bool.and_eq_true] at hvalid
  obtain ⟨⟨⟨⟨⟨⟨⟨⟨⟨hok, -⟩, -⟩, -⟩, -⟩, -⟩, -⟩, -⟩, -⟩, -⟩ := hvalid
  obtain ⟨cb, views, s, stump, hval⟩ :=
    validateBlock_ok (fun pre hpre => hrows.scriptsSound hinj hpre) hr hok
  obtain ⟨pre, hpre, hwalk⟩ := hval.walk
  refine ⟨t, ht, fun gi inp hinp => ?_⟩
  have hcache : CacheOk hs w (LoopState.start w.rootPrev true).bindCache :=
    fun _ _ hnone => by cases hnone
  -- the loop binds input gi to the gi-th entry of the totals
  obtain ⟨hchunksOk, raw, prevouts, hraw, hprevouts, hbind⟩ :=
    walk_binds hcache hwalk hval.allOk (inp, gi) (List.mk_mem_zipIdx_iff_getElem?.mpr hinp)
  -- by the digest's injectivity the row has the raw bytes, prevouts, flags and place of the block's
  obtain ⟨row, hrow, hof⟩ := hrows.row_of hinj hchunksOk hbind
  obtain ⟨tx, spent, txin, out, htx, hspent, hlen, htxin, hout, hverified, hleaf⟩ := hof.script
  rw [hof.rawTx] at htx
  rw [hof.prevouts] at hspent
  rw [hof.flags] at hverified
  rw [hof.ref] at htxin hout hverified hleaf
  refine ⟨raw, prevouts, tx, spent, txin, out, ?_⟩
  exact
    { rawAt := hraw
      prevoutsAt := hprevouts
      decoded := htx
      outs := hspent
      input := htxin
      coin := hout
      script := hverified
      leaf := by
        rw [hrows.leaves, List.getElem?_map, hrow, ← hleaf]
        rfl
      seq := by
        rw [hrows.seqs, List.getElem?_map, hrow, Option.map_some, Row.seq, hof.rawTx, htx, hof.ref]
        simp only [Option.elim_some]
        rw [htxin]
        rfl
      ver := by
        rw [hrows.vers, List.getElem?_map, hrow, Option.map_some, Row.ver, hof.rawTx, htx]
        rfl
      wtxid := by
        intro entry hentry
        have hinfo := hrows.wtxid gi row entry hrow hentry
        rw [hof.rawTx, txWtxidInfo, htx] at hinfo
        exact (Option.some.inj hinfo).symm }

/-! ## The spending block on one chunk -/

section

open OpTrue

/-- The payload of the block's own bytes. -/
def spendPayload (height cb : UInt32) : ChunkPayload where
  height := height
  blockHash := nullHash
  txs := [⟨spendRaw, spendPrevouts, [⟨0, 1, cb, genesisTime⟩]⟩,
    ⟨chainedRaw, chainedPrevouts, [⟨0, height, 0, spendMtp⟩]⟩]

/-- The journal of the chunk. -/
def spendChunk (height cb : UInt32) : ChunkOut Bytes :=
  (chunkProve idealHashing OpTrue.core (spendPayload height cb)).getD ChunkOut.start

theorem chunkProve_spendPayload :
    chunkProve idealHashing OpTrue.core (spendPayload 200 1) = some (spendChunk 200 1) :=
  (Option.getD_of_ne_none (Option.isSome_iff_ne_none.mp (by decide +kernel)) _).symm

/-- The chain state the block extends. -/
def spendPrev : ChainState Bytes where
  kind := KIND_CHAIN
  tip := spendBefore
  cumWork := 0
  height := 199
  anchorId := []
  selfId := .replicate 8 0

/-- A zkVM that has proved the journal `[0]` of the chunk and `[1]` of the chain. -/
def spendZkvm : Zkvm Bytes where
  verify id j := id = .replicate 8 0 ∧ (j = [0] ∨ j = [1])
  decodeRange _ := none
  decodeChain j := if j = [1] then some spendPrev else none
  decodeChunk j := if j = [0] then some (spendChunk 200 1) else none

/-- The totals of the one chunk. -/
def spendTotals : ChunkTotals Bytes :=
  (addJournals spendZkvm (.replicate 8 0) [[0]]).getD ChunkTotals.start

/-- The aggregate comes to these totals. -/
theorem addJournals_spend :
    addJournals spendZkvm (.replicate 8 0) [[0]] = some spendTotals :=
  (Option.getD_of_ne_none (Option.isSome_iff_ne_none.mp (by decide +kernel)) _).symm

theorem spendBlock_sampled_chunks : Sampled idealHashing OpTrue.core (spendBlock 200 1) spendMtp
    spendTotals.chunks laterTxid [firstTxid] := by
  constructor <;> decide +kernel

/-- The aggregate accepts the spending block with its one chunk. -/
theorem chunks_cannot_lie_spendBlock : ∃ w st t,
    aggregate idealHashing OpTrue.core spendZkvm (.replicate 8 0) [[0]] [1] w 0 = some st ∧
      w.txids = [laterTxid, spendTxid, chainedTxid] ∧
      addJournals spendZkvm (.replicate 8 0) [[0]] = some t ∧
      ∀ (gi : ℕ) (inp : BlockInput Bytes), w.inputs[gi]? = some inp →
        ∃ raw prevouts tx spent txin out,
          ChunkInputOk idealHashing OpTrue.core w t gi inp raw prevouts tx spent txin out := by
  obtain ⟨wit, r, hr, hvalid, -, hnbits, htime⟩ := spendBlock_accepted spendBlock_sampled_chunks
  obtain ⟨st, hst⟩ : ∃ st, extendChain idealHashing OpTrue.core spendZkvm (.replicate 8 0) [1]
      ((spendBlock 200 1).withSmt (spendSmt idealHashing).root wit) 0 spendTotals.chunks =
        some st :=
    ⟨_, extendChain_eq_some.mpr ⟨spendPrev, r, fun _ => by decide +kernel, rfl, rfl, fun _ => rfl,
      (rfl : (200 : UInt32) = spendPrev.height + 1), hr, spendBlock_extends hvalid hnbits htime, rfl⟩⟩
  have hagg : aggregate idealHashing OpTrue.core spendZkvm (.replicate 8 0) [[0]] [1]
      ((spendBlock 200 1).withSmt (spendSmt idealHashing).root wit) 0 = some st := by
    rw [aggregate, addJournals_spend, Option.bind_eq_bind, Option.bind_some]
    exact hst
  obtain ⟨t, ht, hall⟩ := chunks_cannot_lie idealHashing_dsha256_injective (fun j hj out hout => by
    obtain rfl := List.mem_singleton.mp hj
    exact ⟨spendPayload 200 1, chunkProve_spendPayload.trans hout⟩) hagg
  exact ⟨_, st, t, hagg, rfl, ht, hall⟩

end

end Guest
end Hazync
