import Hazync.Guest.BlockRun
import Hazync.Guest.Segmented
import Mathlib.Data.UInt

/-!
# The segmented path and the monolithic one

Over the chunks of the block's own inputs each round of the two walks does the same, but for what
it asks of the input's script and locks (`stepInput_agree`); so the walks, and the block checks,
differ only there. The scripts are the same, all or none. The locks differ in two cases: a
coinbase flag of 2 or more, and a version of 2^31 or more (`locks_agree_iff`).

## Two walks in step

The segmented path is the same function with chunks in place of Core. Its walk does the same to the
accumulator, the fees and the sets, round by round, and asks something else of the input: that the
row's digest is right and its locks, as recomputed from what the chunk said, are met. So the
comparison is a simulation. `Agree` says that the two states are the same but for the verdicts,
which have a common part and each side's own; it goes through a round (`stepInput_agree`) and the
walk (`walk_agree`). At the end the two block checks differ by a conjunction over the inputs on each
side, and the question is whether these are equal.

For the scripts they are, since the rows are of the inputs' own bytes. For the locks one has to
compare two pieces of code, one in C++ on the transaction and one in Rust on its sequence and
version. They read the coinbase flag differently, and the version, which is signed in the one and
unsigned in the other. `LockDiverges` is what comes of that, after the cases in which the other lock
refuses the input anyway have been taken out. `locks_cases` is the propositional part.
-/

namespace Hazync
namespace Guest

open ByteStrings
open Accumulator (Stump)

variable {H : Type} {hs : Hashing H} {core : Core} {w : BlockWitness H}

/-! ## Two walks that differ in what they ask of an input -/

/-- The states agree but for what was asked of the inputs: `x` on one side, `x'` on the other. -/
structure Agree (x x' : Bool) (s s' : LoopState H) : Prop where
  stump : s.stump = s'.stump
  txChecks : s.txChecks = s'.txChecks
  coinLeaves : s.coinLeaves = s'.coinLeaves
  totalFee : s.totalFee = s'.totalFee
  curTx : s.curTx = s'.curTx
  spentInBlock : s.spentInBlock = s'.spentInBlock
  /-- The verdicts are those of the common part, each with its own side's. -/
  allOk : ∃ b, s.allOk = (b && x) ∧ s'.allOk = (b && x')

variable {x x' : Bool} {s s' : LoopState H}

/-- A check that is made on both sides. -/
theorem Agree.require (h : Agree x x' s s') (ok : Bool) :
    Agree x x' (s.require ok) (s'.require ok) :=
  { h with
    allOk := by
      obtain ⟨b, hb, hb'⟩ := h.allOk
      refine ⟨b && ok, ?_, ?_⟩
      · rw [LoopState.require, hb, Bool.and_right_comm]
      · rw [LoopState.require, hb', Bool.and_right_comm] }

/-- A question that each side asks for itself. -/
theorem Agree.ask (h : Agree x x' s s') (o o' : Bool) :
    Agree (x && o) (x' && o') (s.require o) (s'.require o') :=
  { h with
    allOk := by
      obtain ⟨b, hb, hb'⟩ := h.allOk
      refine ⟨b, ?_, ?_⟩
      · rw [LoopState.require, hb, Bool.and_assoc]
      · rw [LoopState.require, hb', Bool.and_assoc] }

theorem Agree.enter (h : Agree x x' s s') (inp : BlockInput H) :
    Agree x x' (s.enter inp) (s'.enter inp) :=
  { h with curTx := by rw [LoopState.enter, LoopState.enter, h.curTx] }

theorem Agree.record (h : Agree x x' s s') (r r' : Int) (leaf : H) :
    Agree x x' (s.record r leaf) (s'.record r' leaf) :=
  { h with coinLeaves := by rw [LoopState.record, LoopState.record, h.coinLeaves] }

/-- The parts of a state that no check reads. -/
theorem Agree.frame (h : Agree x x' s s') (calls calls' : List Call) (cache cache' : Option (ℕ × H)) :
    Agree x x' { s with calls := calls, bindCache := cache }
      { s' with calls := calls', bindCache := cache' } := { h with }

/-- The checks of a transaction are the same on both sides. -/
theorem checkFirst_agree {mtp : UInt32} (h : Agree x x' s s') (inp : BlockInput H)
    (raw prevouts : Bytes) :
    Option.Rel (fun a b => Agree x x' a b ∧ b.bindCache = s'.bindCache)
      (checkFirst core w mtp s inp raw prevouts) (checkFirst core w mtp s' inp raw prevouts) := by
  rw [checkFirst, checkFirst]
  split
  · cases checkTx core raw prevouts with
    | none => exact .none
    | some p =>
      cases isFinalTx core raw w.height (w.lockTime mtp) with
      | none => exact .none
      | some final =>
        refine .some ?_
        have h' := (h.frame (s.log [.checkTx raw prevouts p.1,
          .isFinalTx raw w.height (w.lockTime mtp) final]).calls (s'.log [.checkTx raw prevouts p.1,
          .isFinalTx raw w.height (w.lockTime mtp) final]).calls s.bindCache s'.bindCache).require
            (p.1 = 1 && final = 1)
        refine ⟨{ h' with txChecks := ?_, totalFee := ?_ }, rfl⟩
        · rw [h.txChecks]
        · rw [LoopState.log, LoopState.log, h.totalFee]
  · exact .some ⟨h, rfl⟩

/-- So is the spend. -/
theorem spendCoin_agree [DecidableEq H] (h : Agree x x' s s') (createdAt : List (H × UInt32))
    (inp : BlockInput H) (leaf : H) :
    Option.Rel (fun a b => Agree x x' a b ∧ b.bindCache = s'.bindCache)
      (spendCoin hs createdAt s inp leaf) (spendCoin hs createdAt s' inp leaf) := by
  obtain ⟨b, hb, hb'⟩ := h.allOk
  rw [spendCoin, spendCoin, ← h.stump, ← h.curTx, ← h.spentInBlock, hb, hb']
  cases createdAt.lookup leaf with
  | some creator =>
    refine .some ⟨⟨rfl, h.txChecks, h.coinLeaves, h.totalFee, rfl, rfl,
      b && creator < s.curTx && leaf ∉ s.spentInBlock, ?_, ?_⟩, rfl⟩
    · simp only [Bool.and_right_comm]
    · simp only [Bool.and_right_comm]
  | none =>
    cases Stump.delete hs.parent s.stump inp.globalPos { inp.proofI with leaf := leaf }
        inp.proofLast with
    | none => exact .none
    | some p =>
      refine .some ⟨⟨rfl, h.txChecks, h.coinLeaves, h.totalFee, rfl, rfl,
        b && inp.proofI.leaf = leaf && p.1, ?_, ?_⟩, rfl⟩
      · simp only [Bool.and_right_comm]
      · simp only [Bool.and_right_comm]

/-- What the monolithic path asks of an input, and what the aggregate asks of its row. -/
def asksBytes [DecidableEq H] (hs : Hashing H) (core : Core) (w : BlockWitness H) (mtp : UInt32)
    (p : BlockInput H × Row H) : Bool :=
  checkInputLocks core p.2.rawTx.1 p.1.ref w.height mtp = some 1 &&
    verifyInput hs core p.2.rawTx.1 p.2.ref p.2.prevouts.1 p.2.flags = some (1, p.2.leaf)

/-- What the aggregate asks of an input, through its row. -/
def asksRow (core : Core) (w : BlockWitness H) (mtp : UInt32) (chunksOk : Bool)
    (p : BlockInput H × Row H) : Bool :=
  chunkLocks w mtp p.1 (p.2.seq core) (p.2.ver core) = 1 && chunksOk

variable {mtp : UInt32} {rows : List (Row H)} {t : ChunkTotals H}

/-- The aggregate's pre-pass over exact totals. -/
def rowPass (core : Core) (w : BlockWitness H) (mtp : UInt32) (rows : List (Row H)) : PrePass H where
  leaves := rows.map Row.leaf
  locks := (w.inputs.zip rows).map fun p => chunkLocks w mtp p.1 (p.2.seq core) (p.2.ver core)

/-- The pre-pass has what the rows say. -/
theorem Exact.prePass_eq (h : Exact hs core w w.inputs rows t) :
    prePass hs core w mtp t.chunks = some (rowPass core w mtp rows) := by
  have hlen : rows.length = w.inputs.length := h.source.length_eq.symm
  rw [prePass, if_pos]
  · have hzip : t.seqs.zip t.vers = rows.map fun row => (row.seq core, row.ver core) := by
      rw [h.seqs, h.vers, List.zip_map']
    congr 1
    rw [rowPass, PrePass.mk.injEq]
    refine ⟨h.leaves, ?_⟩
    change (w.inputs.zip (t.seqs.zip t.vers)).map _ = _
    rw [hzip, List.zip_map_right, List.map_map]
    rfl
  · refine decide_eq_true ⟨?_, ?_, ?_⟩
    · change t.leaves.length = _
      rw [h.leaves, List.length_map, hlen]
    · change t.seqs.length = _
      rw [h.seqs, List.length_map, hlen]
    · change t.vers.length = _
      rw [h.vers, List.length_map, hlen]

variable [DecidableEq H]

/-- What a chunk's verdict on an input is, whatever is cached. -/
theorem checkScript_exact (mtp : UInt32) (ht : Exact hs core w w.inputs rows t) {inp : BlockInput H} {idx ti : ℕ}
    {row : Row H} (hrow : rows[idx]? = some row) (hrowFor : RowFor hs core w inp row)
    (hresolve : w.resolve inp = some (ti, row.rawTx, row.prevouts))
    (hcache : CacheOk hs w s.bindCache) :
    ∃ cache, CacheOk hs w cache ∧
      checkScript hs core w t.chunks (rowPass core w mtp rows) s inp idx ti row.rawTx.1
        row.prevouts.1 =
          some ({ s with bindCache := cache }, if t.chunksOk then 1 else -1, row.leaf) := by
  have hleaf : (rowPass core w mtp rows).leaves[idx]? = some row.leaf := by
    rw [rowPass, List.getElem?_map, hrow, Option.map_some]
  obtain ⟨txb, heq⟩ : ∃ txb, checkScript hs core w t.chunks (rowPass core w mtp rows) s inp idx ti
      row.rawTx.1 row.prevouts.1 = some ({ s with bindCache := some (ti, txb) },
        if t.binds[idx]? = some (inputBindFrom hs txb inp.ref) ∧ t.chunksOk = true then 1 else -1,
          row.leaf) := by
    rw [checkScript]
    simp only [ChunkTotals.chunks, hleaf, Option.bind_eq_bind, Option.bind_some]
    exact ⟨_, rfl⟩
  obtain ⟨hcache', -⟩ := checkScript_frame hresolve hcache heq
  obtain ⟨-, hraw, hprevouts⟩ := resolve_eq_some hresolve
  have htxb := hcache' ti txb rfl row.rawTx row.prevouts hraw hprevouts
  have hbind : t.binds[idx]? = some (inputBindFrom hs txb inp.ref) := by
    rw [ht.binds, List.getElem?_map, hrow, Option.map_some, Row.bind, hrowFor.flags, hrowFor.ref,
      htxb]
  refine ⟨_, hcache', heq.trans ?_⟩
  simp only [hbind, true_and]

/-- One round of the two walks, at an input and its row. -/
theorem stepInput_agree (ht : Exact hs core w w.inputs rows t) (pre : PrePass H)
    (createdAt : List (H × UInt32)) (h : Agree x x' s s') (hcache : CacheOk hs w s'.bindCache)
    {inp : BlockInput H} {idx : ℕ} {row : Row H} (hinp : w.inputs[idx]? = some inp)
    (hrow : rows[idx]? = some row) (hrowFor : RowFor hs core w inp row) :
    Option.Rel (fun a b => Agree (x && asksBytes hs core w mtp (inp, row))
        (x' && asksRow core w mtp t.chunksOk (inp, row)) a b ∧ CacheOk hs w b.bindCache)
      (stepInput hs core w mtp Chunks.none pre createdAt s (inp, idx))
      (stepInput hs core w mtp t.chunks (rowPass core w mtp rows) createdAt s' (inp, idx)) := by
  obtain ⟨ti, hresolve⟩ := hrowFor.bytes
  obtain ⟨r, hr⟩ := hrowFor.verified
  have hasksScript : decide (verifyInput hs core row.rawTx.1 row.ref row.prevouts.1 row.flags =
      some (1, row.leaf)) = decide (r = 1) := by
    rw [hr, decide_eq_decide, Option.some_inj, Prod.mk.injEq, and_iff_left rfl]
  have h₁ := (h.enter inp).require (ti = inp.txIdx.toNat)
  set s₁ := (s.enter inp).require (ti = inp.txIdx.toNat) with hs₁
  set s₁' := (s'.enter inp).require (ti = inp.txIdx.toNat) with hs₁'
  -- the monolithic step asks the verifier; the segmented one reads the row
  have hbytes : checkScript hs core w Chunks.none pre s₁ inp idx ti row.rawTx.1 row.prevouts.1 =
      some (s₁.log [.verifyInput row.rawTx.1 inp.ref row.prevouts.1 (w.flags hs) r], r, row.leaf) := by
    rw [Row.Verified, hrowFor.flags, hrowFor.ref] at hr
    rw [checkScript]
    simp only [Chunks.none, hr, Option.bind_eq_bind, Option.bind_some]
  have hcache₁ : CacheOk hs w s₁'.bindCache := hcache
  obtain ⟨cache, hcache₂, hchunk⟩ :=
    checkScript_exact mtp ht hrow hrowFor hresolve hcache₁
  have hlocks : (rowPass core w mtp rows).locks[idx]? =
      some (chunkLocks w mtp inp (row.seq core) (row.ver core)) := by
    have hzip : (w.inputs.zip rows)[idx]? = some (inp, row) :=
      List.getElem?_zip_eq_some.mpr ⟨hinp, hrow⟩
    rw [rowPass, List.getElem?_map, hzip, Option.map_some]
  obtain ⟨tx, htx, -⟩ := Option.bind_eq_some_iff.mp hr
  rw [stepInput, stepInput, hresolve]
  simp only [Option.bind_eq_bind, Option.bind_some]
  rw [← hs₁, ← hs₁', hbytes, hchunk]
  simp only [Option.bind_some]
  refine Runs.rel_bind (checkFirst_agree ((h₁.frame _ s₁'.calls s₁.bindCache cache).record r _ row.leaf)
    inp row.rawTx.1 row.prevouts.1) fun a b hab => ?_
  obtain ⟨hab, hb⟩ := hab
  -- the locks: computed from the bytes on one side, from the row on the other
  have hbytesLocks : checkLocks core w mtp Chunks.none pre a inp idx row.rawTx.1 =
      some ((a.log [.checkInputLocks row.rawTx.1 inp.ref w.height mtp
        (inputLocks tx inp.ref w.height mtp)]).require (inputLocks tx inp.ref w.height mtp = 1)) := by
    rw [checkLocks]
    simp only [Chunks.none, checkInputLocks, htx, Option.bind_eq_bind, Option.bind_some]
  have hrowLocks : checkLocks core w mtp t.chunks (rowPass core w mtp rows) b inp idx row.rawTx.1 =
      some (b.require (chunkLocks w mtp inp (row.seq core) (row.ver core) = 1)) := by
    rw [checkLocks]
    simp only [ChunkTotals.chunks, hlocks, Option.bind_eq_bind, Option.bind_some]
  rw [hbytesLocks, hrowLocks, Option.bind_some, Option.bind_some]
  -- the two flags may differ by now, and nothing else
  have hasked := ((hab.frame (a.log [.checkInputLocks row.rawTx.1 inp.ref w.height mtp
    (inputLocks tx inp.ref w.height mtp)]).calls b.calls a.bindCache b.bindCache).ask
      (inputLocks tx inp.ref w.height mtp = 1)
      (chunkLocks w mtp inp (row.seq core) (row.ver core) = 1)).ask (r = 1) t.chunksOk
  have hcode : decide ((if t.chunksOk = true then (1 : Int) else -1) = 1) = t.chunksOk := by
    cases t.chunksOk <;> rfl
  have hcall : checkInputLocks core row.rawTx.1 inp.ref w.height mtp =
      some (inputLocks tx inp.ref w.height mtp) := by
    rw [checkInputLocks, htx, Option.bind_eq_bind, Option.bind_some]
  rw [Bool.and_assoc, Bool.and_assoc] at hasked
  rw [hcode, asksBytes, asksRow, hasksScript, hcall]
  simp only [Option.some_inj]
  refine Runs.rel_imp (spendCoin_agree hasked createdAt inp row.leaf) fun c d hcd => ?_
  rw [hcd.2]
  exact ⟨hcd.1, hb ▸ hcache₂⟩

/-- The two walks from an input on. -/
theorem walk_agree (ht : Exact hs core w w.inputs rows t) (pre : PrePass H)
    (createdAt : List (H × UInt32)) {inputs : List (BlockInput H)} {rest : List (Row H)} {n : ℕ}
    (hrest : List.Forall₂ (RowFor hs core w) inputs rest) (hinputs : w.inputs.drop n = inputs)
    (hrows : rows.drop n = rest) (h : Agree x x' s s') (hcache : CacheOk hs w s'.bindCache) :
    Option.Rel (Agree (x && (inputs.zip rest).all (asksBytes hs core w mtp))
        (x' && (inputs.zip rest).all (asksRow core w mtp t.chunksOk)))
      ((inputs.zipIdx n).foldlM (stepInput hs core w mtp Chunks.none pre createdAt) s)
      ((inputs.zipIdx n).foldlM
        (stepInput hs core w mtp t.chunks (rowPass core w mtp rows) createdAt) s') := by
  induction hrest generalizing n s s' x x' with
  | nil =>
    refine .some ?_
    rwa [List.zip_nil_left, List.all_nil, List.all_nil, Bool.and_true, Bool.and_true]
  | @cons inp row inputs rest hrow hrest ih =>
    have hinp : w.inputs[n]? = some inp := by
      rw [← List.head?_drop, hinputs, List.head?_cons]
    have hrowAt : rows[n]? = some row := by
      rw [← List.head?_drop, hrows, List.head?_cons]
    have hinputs' : w.inputs.drop (n + 1) = inputs := by
      rw [← List.drop_drop, hinputs, List.drop_one, List.tail_cons]
    have hrows' : rows.drop (n + 1) = rest := by
      rw [← List.drop_drop, hrows, List.drop_one, List.tail_cons]
    rw [List.zipIdx_cons, List.foldlM_cons, List.foldlM_cons]
    refine Runs.rel_bind (stepInput_agree ht pre createdAt h hcache hinp hrowAt hrow) fun a b hab => ?_
    have htail := ih hinputs' hrows' hab.1 hab.2
    rwa [Bool.and_assoc, Bool.and_assoc] at htail
/-! ## The wtxids -/

omit [DecidableEq H] in
/-- The wtxid of a transaction is the same, whether a chunk brings it or not. -/
theorem addWtxid_exact (ht : Exact hs core w w.inputs rows t) (acc : List Bytes32 × Bool)
    {p : BlockInput H × ℕ} (hp : p ∈ w.inputs.zipIdx) :
    addWtxid core w t.wtxids acc p = addWtxid core w [] acc p := by
  obtain ⟨inp, idx⟩ := p
  have hinp : w.inputs[idx]? = some inp := List.mk_mem_zipIdx_iff_getElem?.mp hp
  obtain ⟨hlt, heq⟩ := List.getElem?_eq_some_iff.mp hinp
  have hltRow : idx < rows.length := ht.source.length_eq ▸ hlt
  have hrow : rows[idx]? = some (rows.get ⟨idx, hltRow⟩) := List.getElem?_eq_getElem hltRow
  have hrowFor : RowFor hs core w inp (rows.get ⟨idx, hltRow⟩) := by
    have hat := (List.forall₂_iff_get.mp ht.source).2 idx hlt hltRow
    rwa [List.get_eq_getElem, heq] at hat
  obtain ⟨ti, hresolve⟩ := hrowFor.bytes
  obtain ⟨hti, hraw, -⟩ := resolve_eq_some hresolve
  rw [addWtxid, addWtxid]
  by_cases hfirst : inp.txFirst = 1
  · rw [if_pos hfirst, if_pos hfirst]
    cases hlookup : t.wtxids.reverse.lookup (UInt32.ofNat idx) with
    | none => rfl
    | some entry =>
      have hinfo := ht.wtxid idx _ entry hrow hlookup
      simp only [List.reverse_nil, List.lookup_nil, ← hti, hraw, Option.bind_eq_bind,
        Option.bind_some, hinfo]
  · rw [if_neg hfirst, if_neg hfirst]

omit [DecidableEq H] in
theorem recWtxids_exact (ht : Exact hs core w w.inputs rows t) :
    recWtxids core w t.wtxids = recWtxids core w [] := by
  rw [recWtxids, recWtxids]
  exact Option.bind_congr fun _ _ =>
    Runs.foldlM_congr (fun p hp acc => addWtxid_exact ht acc hp) _

/-! ## The outcome -/

/-- What a block check decides: the conjunction of its flags, and the roots after the block. -/
def BlockResult.outcome (r : BlockResult H) : Bool × List (Option H) × UInt64 × H :=
  (r.blockValid, r.rootNextRoots, r.rootNextLeaves, r.outSmtRoot)

/-- A run with another walk, which ends in a state that agrees. -/
theorem BlockRun.transfer {c c' : Chunks H} (run : BlockRun hs core w mtp c) {pre' : PrePass H}
    {s' : LoopState H} (hpre : prePass hs core w mtp c' = some pre')
    (hwalk : walkInputs hs core w mtp c' pre' run.g.createdAt
      (.start w.rootPrev (w.versionOk && run.g.allOk && run.grouped)) = some s')
    (hwtxids : recWtxids core w c'.wtxids = recWtxids core w c.wtxids)
    (hstump : run.s.stump = s'.stump) (hspent : run.s.spentInBlock = s'.spentInBlock)
    (hfee : run.s.totalFee = s'.totalFee) (hallOk : run.s.allOk = s'.allOk) :
    ∃ r', validateBlock hs core w mtp c' = some r' ∧ r'.outcome = run.result.outcome := by
  let run' : BlockRun hs core w mtp c' :=
    { run with
      pre := pre'
      s := s'
      pre_eq := hpre
      walk_eq := hwalk
      overwrite_eq := hstump ▸ run.overwrite_eq
      wtxids_eq := hwtxids.trans run.wtxids_eq }
  refine ⟨run'.result, validateBlock_eq_some.mpr ⟨run', rfl⟩, ?_⟩
  have hafter : run'.after = run.after := by
    rw [BlockRun.after, BlockRun.after]
    exact congrArg (fun spent => addAll hs run.stump (survivors run.g.outputLeaves spent)) hspent.symm
  have hs' : run'.s = s' := rfl
  simp only [BlockResult.outcome, BlockResult.blockValid, BlockRun.result, hafter, hs', hallOk, hfee]
  rfl
/-! ## The locks -/

/-- BIP68 as the aggregate applies it, to a version it reads as signed, refuses the input. -/
def RowLocked (w : BlockWitness H) (mtp : UInt32) (inp : BlockInput H) (tx : Transaction)
    (txin : TxIn) : Prop :=
  CSV_HEIGHT ≤ w.height ∧ 2 ≤ tx.version.toInt32 ∧ txin.nSequence &&& SEQUENCE_DISABLE = 0 ∧
    relativeLock txin.nSequence inp.coinHeight inp.coinMtp w.height mtp ≠ 1

/-- A coinbase's coin may not be spent yet. -/
def Immature (w : BlockWitness H) (inp : BlockInput H) : Prop := w.height < inp.coinHeight + 100

/-- Where the two lock checks part: a flag of 2 or more on an immature coin, which the aggregate
    does not take for a coinbase's, or a version whose sign bit is set, to which the aggregate
    does not apply BIP68. -/
def LockDiverges (w : BlockWitness H) (mtp : UInt32) (inp : BlockInput H) (tx : Transaction)
    (txin : TxIn) : Prop :=
  (1 < inp.coinIsCoinbase ∧ Immature w inp ∧ ¬ RowLocked w mtp inp tx txin) ∨
  (2 ^ 31 ≤ tx.version ∧ CSV_HEIGHT ≤ w.height ∧ txin.nSequence &&& SEQUENCE_DISABLE = 0 ∧
    relativeLock txin.nSequence inp.coinHeight inp.coinMtp w.height mtp ≠ 1 ∧
    ¬ (inp.coinIsCoinbase ≠ 0 ∧ Immature w inp))

/-- `tx` and `txin` are the transaction and the input that `inp` is of. -/
def InputOf (core : Core) (w : BlockWitness H) (inp : BlockInput H) (tx : Transaction)
    (txin : TxIn) : Prop :=
  ∃ ti raw prevouts, w.resolve inp = some (ti, raw, prevouts) ∧
    core.unserializeTx raw.1 = some tx ∧ tx.vin[inp.inputIdx.toNat]? = some txin

/-- The two readings of the version. -/
theorem version_signed (v : UInt32) : 2 ≤ v.toInt32 ↔ 2 ≤ v ∧ ¬ 2 ^ 31 ≤ v := by
  have hlt := v.toNat_lt
  have hint : v.toInt32.toInt = (v.toNat : Int).bmod (2 ^ 32) :=
    BitVec.toInt_eq_toNat_bmod v.toBitVec
  have h2 : (2 : UInt32).toNat = 2 := rfl
  have h31 : ((2 : UInt32) ^ 31).toNat = 2 ^ 31 := by decide
  have htwo : (2 : Int32).toInt = 2 := by decide
  rw [Int32.le_iff_toInt_le, UInt32.le_iff_toNat_le, UInt32.le_iff_toNat_le, h2, h31, htwo, hint,
    Int.bmod_def]
  split <;> omega

/-- The case analysis, on its own: `a` and `b` are the two readings of the flag, `v` and `n` what
    the version says unsigned and by its sign. -/
theorem locks_cases {a b m c v n e l : Prop} (hba : b → a) (hnv : n → v) :
    ((¬ (a ∧ m) ∧ ¬ (c ∧ v ∧ e ∧ l)) ↔ (¬ (b ∧ m) ∧ ¬ (c ∧ (v ∧ ¬ n) ∧ e ∧ l))) ↔
      ¬ (((a ∧ ¬ b) ∧ m ∧ ¬ (c ∧ (v ∧ ¬ n) ∧ e ∧ l)) ∨ (n ∧ c ∧ e ∧ l ∧ ¬ (a ∧ m))) := by
  grind

omit [DecidableEq H] in
/-- **The two lock checks agree exactly where they do not diverge.** -/
theorem locks_agree_iff {mtp : UInt32} {inp : BlockInput H} {tx : Transaction} {txin : TxIn}
    (htxin : tx.vin[inp.inputIdx.toNat]? = some txin) :
    (inputLocks tx inp.ref w.height mtp = 1 ↔
      chunkLocks w mtp inp txin.nSequence tx.version.toInt32 = 1) ↔
        ¬ LockDiverges w mtp inp tx txin := by
  have hbytes : inputLocks tx inp.ref w.height mtp = 1 ↔
      ¬ (inp.coinIsCoinbase ≠ 0 ∧ Immature w inp) ∧
        ¬ (CSV_HEIGHT ≤ w.height ∧ 2 ≤ tx.version ∧ txin.nSequence &&& SEQUENCE_DISABLE = 0 ∧
          relativeLock txin.nSequence inp.coinHeight inp.coinMtp w.height mtp ≠ 1) := by
    rw [inputLocks, BlockInput.ref, htxin]
    dsimp only [Immature]
    split_ifs <;> simp_all
  have hrow : chunkLocks w mtp inp txin.nSequence tx.version.toInt32 = 1 ↔
      ¬ (inp.coinIsCoinbase = 1 ∧ Immature w inp) ∧ ¬ RowLocked w mtp inp tx txin := by
    rw [chunkLocks, RowLocked, Immature]
    split_ifs <;> simp_all
  have hflag : 1 < inp.coinIsCoinbase ↔ inp.coinIsCoinbase ≠ 0 ∧ inp.coinIsCoinbase ≠ 1 := by
    grind
  have hone : inp.coinIsCoinbase = 1 → inp.coinIsCoinbase ≠ 0 := by grind
  have hsign : (2 : UInt32) ^ 31 ≤ tx.version → 2 ≤ tx.version := by grind
  rw [hbytes, hrow, LockDiverges, RowLocked, version_signed, hflag]
  exact locks_cases hone hsign

/-! ## The two paths -/

omit [DecidableEq H] in
/-- A row's result is 1 just where its script was verified. -/
theorem Row.verified_one_iff {row : Row H} : row.Verified hs core 1 ↔ row.ScriptOk hs core := by
  constructor
  · exact verifyInput_ok
  · rintro ⟨tx, spent, txin, out, htx, hspent, hlen, htxin, hout, hverified, hleaf⟩
    have hlt : ¬ spent.length ≤ row.ref.inputIdx.toNat :=
      Nat.not_le.mpr (List.getElem?_eq_some_iff.mp hout).1
    rw [Row.Verified, verifyInput, htx, Option.bind_eq_bind, Option.bind_some, hspent,
      Option.bind_eq_bind, Option.bind_some, if_neg (not_or.mpr ⟨hlt, not_not.mpr hlen⟩),
      scriptResult_eq_one.mpr hverified, coinLeaf, hout, Option.bind_eq_bind, Option.bind_some,
      htxin, Option.bind_eq_bind, Option.bind_some, Option.getD_some, hleaf]

omit [DecidableEq H] in
/-- On an input whose script verified, the locks are those of its transaction. -/
theorem RowFor.locks (mtp : UInt32) {inp : BlockInput H} {row : Row H} (h : RowFor hs core w inp row)
    (hok : row.ScriptOk hs core) :
    ∃ tx txin, InputOf core w inp tx txin ∧
      (checkInputLocks core row.rawTx.1 inp.ref w.height mtp = some 1 ↔
        inputLocks tx inp.ref w.height mtp = 1) ∧
      row.seq core = txin.nSequence ∧ row.ver core = tx.version.toInt32 := by
  obtain ⟨ti, hresolve⟩ := h.bytes
  obtain ⟨tx, spent, txin, out, htx, -, -, htxin, -⟩ := hok
  rw [h.ref] at htxin
  refine ⟨tx, txin, ⟨ti, _, _, hresolve, htx, htxin⟩, ?_, ?_, ?_⟩
  · rw [checkInputLocks, htx, Option.bind_eq_bind, Option.bind_some, Option.some_inj]
  · rw [Row.seq, htx, h.ref, Option.elim_some, htxin, Option.elim_some]
  · rw [Row.ver, htx, Option.elim_some]

/-- What the two paths ask of the inputs is the same where the locks do not diverge. -/
theorem Exact.asks_eq (ht : Exact hs core w w.inputs rows t)
    (hlocks : ∀ inp ∈ w.inputs, ∀ tx txin, InputOf core w inp tx txin →
      ¬ LockDiverges w mtp inp tx txin) :
    (w.inputs.zip rows).all (asksBytes hs core w mtp) =
      (w.inputs.zip rows).all (asksRow core w mtp t.chunksOk) := by
  have hpair : ∀ p ∈ w.inputs.zip rows, p.1 ∈ w.inputs ∧ p.2 ∈ rows ∧ RowFor hs core w p.1 p.2 :=
    fun p hp => ⟨(List.of_mem_zip hp).1, (List.of_mem_zip hp).2,
      (List.forall₂_iff_zip.mp ht.source).2 hp⟩
  -- where the script verified, the locks agree
  have hagree : ∀ p ∈ w.inputs.zip rows, p.2.ScriptOk hs core →
      (checkInputLocks core p.2.rawTx.1 p.1.ref w.height mtp = some 1 ↔
        chunkLocks w mtp p.1 (p.2.seq core) (p.2.ver core) = 1) := by
    intro p hp hok
    obtain ⟨hin, -, hrow⟩ := hpair p hp
    obtain ⟨tx, txin, hof, hbytes, hseq, hver⟩ := hrow.locks mtp hok
    have hnone := hlocks p.1 hin tx txin hof
    obtain ⟨-, -, -, -, -, htxin⟩ := hof
    rw [hbytes, hseq, hver]
    exact (locks_agree_iff htxin).mpr hnone
  rw [Bool.eq_iff_iff, List.all_eq_true, List.all_eq_true]
  constructor
  · intro hall
    have hverified : ∀ p ∈ w.inputs.zip rows, p.2.Verified hs core 1 := by
      intro p hp
      have hscript := (Bool.and_eq_true_iff.mp (hall p hp)).2
      rw [Row.Verified]
      exact of_decide_eq_true hscript
    have hchunks : t.chunksOk = true := by
      by_contra hbad
      obtain ⟨row, hrow, hnot⟩ := ht.invalid (Bool.eq_false_iff.mpr hbad)
      obtain ⟨i, hi⟩ := List.mem_iff_getElem?.mp hrow
      have hlt : i < w.inputs.length := by
        rw [ht.source.length_eq]
        exact (List.getElem?_eq_some_iff.mp hi).1
      have hzip : (w.inputs.zip rows)[i]? = some (w.inputs.get ⟨i, hlt⟩, row) :=
        List.getElem?_zip_eq_some.mpr ⟨List.getElem?_eq_getElem hlt, hi⟩
      exact hnot (hverified _ (List.mem_of_getElem? hzip))
    intro p hp
    have hlock := of_decide_eq_true (Bool.and_eq_true_iff.mp (hall p hp)).1
    rw [asksRow, hchunks, Bool.and_true, decide_eq_true_iff]
    exact (hagree p hp (Row.verified_one_iff.mp (hverified p hp))).mp hlock
  · intro hall p hp
    obtain ⟨hlock, hchunks⟩ := Bool.and_eq_true_iff.mp (hall p hp)
    have hok := ht.valid hchunks p.2 (hpair p hp).2.1
    have hscript := Row.verified_one_iff.mpr hok
    rw [Row.Verified] at hscript
    exact Bool.and_eq_true_iff.mpr
      ⟨decide_eq_true ((hagree p hp hok).mpr (of_decide_eq_true hlock)), decide_eq_true hscript⟩

/-- The two block checks decide the same where the locks do not diverge. -/
theorem Exact.outcome_eq (ht : Exact hs core w w.inputs rows t)
    (hlocks : ∀ inp ∈ w.inputs, ∀ tx txin, InputOf core w inp tx txin →
      ¬ LockDiverges w mtp inp tx txin) :
    (validateBlock hs core w mtp t.chunks).map BlockResult.outcome =
      (validateBlock hs core w mtp Chunks.none).map BlockResult.outcome := by
  have hnonePre : ∃ pre, prePass hs core w mtp Chunks.none = some pre := by
    rw [prePass]
    split
    · exact ⟨_, rfl⟩
    · exact ⟨_, rfl⟩
  -- the walks, from the state they both start in
  have hwalk (pre : PrePass H) (createdAt : List (H × UInt32)) (b : Bool) :
      Option.Rel (fun s s' => s.allOk = s'.allOk ∧ s.stump = s'.stump ∧
          s.spentInBlock = s'.spentInBlock ∧ s.totalFee = s'.totalFee)
        (walkInputs hs core w mtp Chunks.none pre createdAt (.start w.rootPrev b))
        (walkInputs hs core w mtp t.chunks (rowPass core w mtp rows) createdAt
          (.start w.rootPrev b)) := by
    have hstart : Agree true true (LoopState.start w.rootPrev b) (LoopState.start w.rootPrev b) :=
      ⟨rfl, rfl, rfl, rfl, rfl, rfl, b, (Bool.and_true b).symm, (Bool.and_true b).symm⟩
    have hcache : CacheOk hs w (LoopState.start w.rootPrev b).bindCache :=
      fun _ _ hnone => by cases hnone
    refine Runs.rel_imp (walk_agree ht pre createdAt ht.source List.drop_zero List.drop_zero hstart
      hcache) fun s s' hss' => ?_
    obtain ⟨c, hc, hc'⟩ := hss'.allOk
    rw [ht.asks_eq hlocks] at hc
    exact ⟨hc.trans hc'.symm, hss'.stump, hss'.spentInBlock, hss'.totalFee⟩
  obtain ⟨pre, hpre⟩ := hnonePre
  have hwtxids := recWtxids_exact ht
  cases hbytes : validateBlock hs core w mtp Chunks.none with
  | some r =>
    obtain ⟨run, rfl⟩ := validateBlock_eq_some.mp hbytes
    have hrel := hwalk run.pre run.g.createdAt (w.versionOk && run.g.allOk && run.grouped)
    rw [run.walk_eq] at hrel
    cases hrows : walkInputs hs core w mtp t.chunks (rowPass core w mtp rows) run.g.createdAt
        (.start w.rootPrev (w.versionOk && run.g.allOk && run.grouped)) with
    | none =>
      rw [hrows] at hrel
      cases hrel
    | some s' =>
      rw [hrows] at hrel
      obtain ⟨hall, hstump, hspent, hfee⟩ := Option.rel_some_some.mp hrel
      obtain ⟨r', hr', hout⟩ :=
        run.transfer ht.prePass_eq hrows hwtxids hstump hspent hfee hall
      rw [hr', Option.map_some, Option.map_some, hout]
  | none =>
    cases hrows : validateBlock hs core w mtp t.chunks with
    | none => rfl
    | some r =>
      exfalso
      obtain ⟨run, rfl⟩ := validateBlock_eq_some.mp hrows
      have hrel := hwalk pre run.g.createdAt (w.versionOk && run.g.allOk && run.grouped)
      have hpreRow := Option.some.inj (ht.prePass_eq.symm.trans run.pre_eq)
      rw [hpreRow, run.walk_eq] at hrel
      cases hbytesWalk : walkInputs hs core w mtp Chunks.none pre run.g.createdAt
          (.start w.rootPrev (w.versionOk && run.g.allOk && run.grouped)) with
      | none =>
        rw [hbytesWalk] at hrel
        cases hrel
      | some s =>
        rw [hbytesWalk] at hrel
        obtain ⟨hall, hstump, hspent, hfee⟩ := Option.rel_some_some.mp hrel
        obtain ⟨r', hr', -⟩ := run.transfer hpre hbytesWalk hwtxids.symm hstump.symm hspent.symm
          hfee.symm hall.symm
        exact Option.some_ne_none _ (hr'.symm.trans hbytes)

/-- **The segmented path decides as the monolithic one exactly where the locks do not diverge.** The
    witness is one, split into chunks in any way. The left says that the block comes out the same,
    and each input's lock with it; the right looks only at what the inputs say of themselves. -/
theorem segmented_iff {outs : List (ChunkOut H)} (hsplit : SegmentedBy hs core w outs)
    (h : addChunks outs = some t) :
    ((validateBlock hs core w mtp t.chunks).map BlockResult.outcome =
        (validateBlock hs core w mtp Chunks.none).map BlockResult.outcome ∧
      ∀ inp ∈ w.inputs, ∀ tx txin, InputOf core w inp tx txin →
        (inputLocks tx inp.ref w.height mtp = 1 ↔
          chunkLocks w mtp inp txin.nSequence tx.version.toInt32 = 1)) ↔
      ∀ inp ∈ w.inputs, ∀ tx txin, InputOf core w inp tx txin →
        ¬ LockDiverges w mtp inp tx txin := by
  constructor
  · rintro ⟨-, hall⟩ inp hinp tx txin hof
    have hagree := hall inp hinp tx txin hof
    obtain ⟨-, -, -, -, -, htxin⟩ := hof
    exact (locks_agree_iff htxin).mp hagree
  · intro hnone
    obtain ⟨rows, ht⟩ := hsplit.exact h
    refine ⟨ht.outcome_eq hnone, fun inp hinp tx txin hof => ?_⟩
    have hdiverges := hnone inp hinp tx txin hof
    obtain ⟨-, -, -, -, -, htxin⟩ := hof
    exact (locks_agree_iff htxin).mpr hdiverges

/-! ## The spending block on both paths -/

section

open OpTrue

/-- The sample block's inputs in one chunk. -/
theorem segmentedBy_spendBlock {height cb : UInt32} {root : Bytes} {wit : SmtWitness Bytes}
    (h : chunkProve idealHashing OpTrue.core (spendPayload height cb) =
      some (spendChunk height cb)) :
    SegmentedBy idealHashing OpTrue.core ((spendBlock height cb).withSmt root wit)
      [spendChunk height cb] := by
  refine ⟨[spendPayload height cb], [(spendBlock height cb).inputs], rfl, .cons ?_ .nil,
    .cons h .nil⟩
  refine ⟨rfl, rfl, (spendBlock height cb).inputs.map ([·]), rfl,
    .cons ⟨List.cons_ne_nil _ _, rfl, ?_⟩ (.cons ⟨List.cons_ne_nil _ _, rfl, ?_⟩ .nil)⟩
  · intro inp hinp
    obtain rfl := List.mem_singleton.mp hinp
    exact ⟨0, rfl⟩
  · intro inp hinp
    obtain rfl := List.mem_singleton.mp hinp
    exact ⟨1, rfl⟩

/-- The totals of the one chunk. -/
def segmentedTotals (height cb : UInt32) : ChunkTotals Bytes :=
  (addChunks [spendChunk height cb]).getD ChunkTotals.start

theorem addChunks_spendBlock :
    addChunks [spendChunk 200 1] = some (segmentedTotals 200 1) :=
  (Option.getD_of_ne_none (Option.isSome_iff_ne_none.mp (by decide)) _).symm

theorem segmented_iff_spendBlock :
    ((validateBlock idealHashing OpTrue.core ((spendBlock 200 1).withSmt [] noSmt) spendMtp
          (segmentedTotals 200 1).chunks).map BlockResult.outcome =
        (validateBlock idealHashing OpTrue.core ((spendBlock 200 1).withSmt [] noSmt) spendMtp
          Chunks.none).map BlockResult.outcome ∧
      ∀ inp ∈ (spendBlock 200 1).inputs, ∀ tx txin,
        InputOf OpTrue.core ((spendBlock 200 1).withSmt [] noSmt) inp tx txin →
        (inputLocks tx inp.ref 200 spendMtp = 1 ↔
          chunkLocks ((spendBlock 200 1).withSmt [] noSmt) spendMtp inp txin.nSequence
            tx.version.toInt32 = 1)) ↔
      ∀ inp ∈ (spendBlock 200 1).inputs, ∀ tx txin,
        InputOf OpTrue.core ((spendBlock 200 1).withSmt [] noSmt) inp tx txin →
        ¬ LockDiverges ((spendBlock 200 1).withSmt [] noSmt) spendMtp inp tx txin :=
  segmented_iff (segmentedBy_spendBlock chunkProve_spendPayload) addChunks_spendBlock

/-- The chunk does not mind the flag. -/
theorem chunkProve_flagTwo :
    chunkProve idealHashing OpTrue.core (spendPayload 50 2) = some (spendChunk 50 2) :=
  (Option.getD_of_ne_none (Option.isSome_iff_ne_none.mp (by decide)) _).symm

theorem addChunks_flagTwo :
    addChunks [spendChunk 50 2] = some (segmentedTotals 50 2) :=
  (Option.getD_of_ne_none (Option.isSome_iff_ne_none.mp (by decide)) _).symm

theorem immature_sampled_chunks : Sampled idealHashing OpTrue.core (spendBlock 50 2) spendMtp
    (segmentedTotals 50 2).chunks laterTxid [] := by
  constructor <;> decide +kernel

theorem immature_refused : (validateBlock idealHashing OpTrue.core (spendBlock 50 2) spendMtp
    Chunks.none).any (fun r => !r.allOk) = true := by decide

/-- At height 50 the coin of height 1 is immature. With the flag 2 the segmented path accepts the
    block that the monolithic path refuses. -/
theorem immature_accepted : ∃ w outs t, SegmentedBy idealHashing OpTrue.core w outs ∧
    addChunks outs = some t ∧
    (∃ r, validateBlock idealHashing OpTrue.core w spendMtp t.chunks = some r ∧
      r.blockValid = true) ∧
    ∃ r, validateBlock idealHashing OpTrue.core w spendMtp Chunks.none = some r ∧
      r.blockValid = false := by
  obtain ⟨wit, r, hr, hvalid, -⟩ :=
    immature_sampled_chunks.advance cached_spendSmt spendSmt_laterTxid trivial
  refine ⟨_, [spendChunk 50 2], segmentedTotals 50 2, segmentedBy_spendBlock chunkProve_flagTwo,
    addChunks_flagTwo, ⟨r, hr, hvalid⟩, ?_⟩
  obtain ⟨r', hr', hrefused⟩ := (Option.any_eq_true _ _).mp immature_refused
  obtain ⟨g, coinbase, outputs, hgather, hall⟩ := validateBlock_withSmt (spendBlock 50 2)
    (spendSmt idealHashing).root wit hr'
  obtain ⟨run, rfl⟩ := validateBlock_eq_some.mp hr
  have hsame := run.gather_eq
  rw [gatherOutputs_withSmt, hgather] at hsame
  obtain ⟨-, hcb⟩ := Prod.mk.inj (Option.some.inj hsame)
  obtain ⟨rfl, rfl⟩ := Prod.mk.inj hcb
  refine ⟨_, hall _ _ run.bip30_eq, ?_⟩
  have hrefused : r'.allOk = false := by simpa using hrefused
  simp only [BlockResult.blockValid, hrefused, Bool.false_and]

end

end Guest
end Hazync
