import Hazync.Guest.OpTrue
import Hazync.Guest.Validated

/-!
# Nothing in an accepted block goes unchecked

The walks that count weight and collect wtxids pass over the same list of inputs, under a guard
on `tx_first`. On a block whose inputs are grouped each of them is a walk over the transactions
(`Viewed.foldlM_firsts`). With the calls the main walk makes, this gives the coverage of an
accepted block: every transaction the header commits, each checked once, each counted once.

## What a call is, and why it is recorded

That a check was made is not a statement about a result. The flags of an accepted block say that no
check failed, and a walk that skips a transaction makes no check that could fail. So the model keeps
a record of the calls into Core, with their arguments and their answers, and the theorem is about
the record: it is, call for call, what the block is due (`TxView.calls`), each answered with 1, and
no two of them about the same thing.

## What binds the witness to the block

The witness brings the transactions and the txids, and the header commits the txids by their Merkle
root. The guest recomputes the root and asks that the tree is not mutated. That this leaves one list
of txids is not a fact about trees: a hash that collides gives two. It is the hypothesis `hbind`,
about this header and no other.
-/

namespace Hazync
namespace Guest

open ByteStrings

variable {H : Type}

/-- `ids` are the txids of transactions that the header's Merkle root commits, unmutated. -/
def HeaderCommits (core : Core) (header : Bytes) (ids : List Bytes32) : Prop :=
  (∃ txs : List Transaction, ids = txs.map core.getHash) ∧
    (core.computeMerkleRoot ids).1.toList = slice header 36 68 ∧
    (core.computeMerkleRoot ids).2 = false

/-- What a call is about: the function, the transaction, and the input when there is one. -/
inductive Call.Subject
  | verifyInput (tx : Bytes) (input : ℕ)
  | checkInputLocks (tx : Bytes) (input : ℕ)
  | checkTx (tx : Bytes)
  | isFinalTx (tx : Bytes)

/-- What a call is about. -/
def Call.subject : Call → Call.Subject
  | .verifyInput tx ref _ _ _ => .verifyInput tx ref.inputIdx.toNat
  | .checkInputLocks tx ref _ _ _ => .checkInputLocks tx ref.inputIdx.toNat
  | .checkTx tx _ _ => .checkTx tx
  | .isFinalTx tx _ _ _ => .isFinalTx tx

/-- The transaction that it is about. -/
def Call.Subject.tx : Call.Subject → Bytes
  | .verifyInput tx _ => tx
  | .checkInputLocks tx _ => tx
  | .checkTx tx => tx
  | .isFinalTx tx => tx

/-- The calls a transaction is due, all successful: for each input its script and its locks, and
    with the first input the checks of the whole. -/
def TxView.calls (hs : Hashing H) (w : BlockWitness H) (mtp : UInt32) (v : TxView H) :
    List Call :=
  v.inputs.zipIdx.flatMap fun (inp, j) =>
    .verifyInput v.raw.1 inp.ref v.prevouts.1 (w.flags hs) 1 ::
      ((if j = 0 then
          [.checkTx v.raw.1 v.prevouts.1 1, .isFinalTx v.raw.1 w.height (w.lockTime mtp) 1]
        else []) ++
        [.checkInputLocks v.raw.1 inp.ref w.height mtp 1])

variable {hs : Hashing H} {core : Core} {w : BlockWitness H} {mtp : UInt32}

/-! ## Walks over the first inputs -/

/-- A walk that acts on first inputs only is a walk over the transactions. -/
theorem Viewed.foldlM_firsts {β γ : Type} {p : γ → BlockInput H} {f : β → γ → Option β}
    {step : β → TxView H → Option β} {ti : ℕ} {views : List (TxView H)}
    (hviews : Viewed core w ti views)
    (hfirst : ∀ {ti : ℕ} {v : TxView H} {c : γ} (acc : β), v.Fits core w ti →
      v.inputs[0]? = some (p c) → (p c).txFirst = 1 → f acc c = step acc v)
    (hrest : ∀ {c : γ} (acc : β), (p c).txFirst ≠ 1 → f acc c = some acc) {ps : List γ}
    (hps : ps.map p = views.flatMap TxView.inputs) (acc : β) :
    ps.foldlM f acc = views.foldlM step acc := by
  -- inputs not marked as first leave the accumulator
  have hskip : ∀ (qs : List γ) (acc : β), (∀ c ∈ qs, (p c).txFirst ≠ 1) →
      qs.foldlM f acc = some acc := by
    intro qs
    induction qs with
    | nil =>
      intro acc _
      rfl
    | cons c qs ih =>
      intro acc hqs
      rw [List.foldlM_cons, hrest acc (hqs c (by simp)), Option.bind_eq_bind, Option.bind_some,
        ih acc fun c' hc' => hqs c' (List.mem_cons_of_mem c hc')]
  induction hviews generalizing ps acc with
  | nil =>
    obtain rfl : ps = [] := List.map_eq_nil_iff.mp hps
    rfl
  -- one view: its first input makes the step, and the rest are skipped
  | @cons ti v views hv _ ih =>
    obtain ⟨ps₁, ps₂, rfl, hps₁, hps₂⟩ := List.map_eq_append_iff.mp hps
    cases ps₁ with
    | nil =>
      have hpos := hv.pos
      rw [← hps₁] at hpos
      cases hpos
    | cons c qs =>
      have hget : v.inputs[0]? = some (p c) := by
        rw [← hps₁]
        rfl
      have hqs : ∀ c' ∈ qs, (p c').txFirst ≠ 1 := by
        intro c' hc' hone
        obtain ⟨j, hj⟩ := List.mem_iff_getElem?.mp hc'
        have hj' : v.inputs[j + 1]? = some (p c') := by
          rw [← hps₁, List.map_cons, List.getElem?_cons_succ, List.getElem?_map, hj]
          rfl
        exact absurd ((hv.entry (j + 1) _ hj').2.2.mp hone) (Nat.succ_ne_zero j)
      have hone : (p c).txFirst = 1 := (hv.entry 0 _ hget).2.2.mpr rfl
      rw [List.cons_append, List.foldlM_cons, List.foldlM_cons, hfirst acc hv hget hone]
      cases step acc v with
      | none => rfl
      | some acc' =>
        rw [Option.bind_eq_bind, Option.bind_some, List.foldlM_append, hskip qs acc' hqs,
          Option.bind_eq_bind, Option.bind_some, Option.bind_some, ih hps₂ acc']

/-- The entry of a transaction's first input resolves to its blobs. -/
theorem TxView.Fits.txs_clampIdx {ti : ℕ} {v : TxView H} (hv : v.Fits core w ti)
    {inp : BlockInput H} (hget : v.inputs[0]? = some inp) :
    w.txs[w.clampIdx inp]? = some v.raw := by
  have h := hv.resolve hget
  rw [BlockWitness.resolve] at h
  obtain ⟨raw, hraw, h⟩ := Option.bind_eq_some_iff.mp h
  obtain ⟨prevouts, -, h⟩ := Option.bind_eq_some_iff.mp h
  cases h
  exact hraw

/-- The wtxids of the whole block, recomputed. -/
theorem recWtxids_eq {views : List (TxView H)} (hviews : Viewed core w 0 views)
    (hin : w.inputs = views.flatMap TxView.inputs) {cb : Transaction}
    (hcb : core.unserializeTx w.coinbaseTx = some cb) :
    recWtxids core w [] = some
      (List.Vector.replicate 32 0 :: views.map (fun v => core.getWitnessHash v.tx),
        core.hasWitness cb || views.any fun v => core.hasWitness v.tx) := by
  let step (acc : List Bytes32 × Bool) (v : TxView H) : Option (List Bytes32 × Bool) :=
    some (acc.1 ++ [core.getWitnessHash v.tx], acc.2 || core.hasWitness v.tx)
  have hflag : ∀ tx, decide ((if core.hasWitness tx = true then (1 : UInt32) else 0) = 1) =
      core.hasWitness tx := by
    intro tx
    cases core.hasWitness tx <;> rfl
  have hfold : ∀ acc, w.inputs.zipIdx.foldlM (addWtxid core w []) acc =
      views.foldlM step acc := by
    intro acc
    refine hviews.foldlM_firsts (p := Prod.fst) ?_ ?_ (by rw [List.zipIdx_map_fst, hin]) acc
    · intro ti v c acc hv hget hone
      rw [addWtxid, if_pos hone, hv.txs_clampIdx hget]
      simp only [List.reverse_nil, List.lookup_nil, Option.bind_eq_bind, Option.bind_some,
        txWtxidInfo, hv.tx, hflag]
      rfl
    · intro c acc hne
      rw [addWtxid, if_neg hne]
  have hsteps : ∀ (vs : List (TxView H)) (acc : List Bytes32 × Bool), vs.foldlM step acc = some
      (acc.1 ++ vs.map (fun v => core.getWitnessHash v.tx),
        acc.2 || vs.any fun v => core.hasWitness v.tx) := by
    intro vs
    induction vs with
    | nil =>
      intro acc
      simp
    | cons v vs ih =>
      intro acc
      rw [List.foldlM_cons, Option.bind_eq_bind, Option.bind_some, ih]
      simp [Bool.or_assoc]
  rw [recWtxids, txWtxidInfo, hcb]
  simp only [Option.bind_eq_bind, Option.bind_some, hflag, hfold, hsteps, List.singleton_append]

/-- The costs of the whole block, each transaction's once. -/
theorem blockCosts_eq {views : List (TxView H)} (hviews : Viewed core w 0 views)
    (hin : w.inputs = views.flatMap TxView.inputs) {totals : Int64 × Int64}
    (h : blockCosts hs core w = some totals) :
    ∃ cbWeight cbLegacy cbSigops, txWuSigops core w.coinbaseTx = some (cbWeight, cbLegacy) ∧
      txFullSigops core w.coinbaseTx [] (w.flags hs) = some cbSigops ∧
      totals =
        ((views.map (TxView.weight core)).foldl (· + ·) cbWeight +
            4 * (80 + compactSize w.txids.length),
          (views.map (TxView.sigops hs core w)).foldl (· + ·) cbSigops) := by
  -- the step of the source, once a transaction
  let step (acc : Int64 × Int64) (v : TxView H) : Option (Int64 × Int64) := do
    let cost ← txWuSigops core v.raw.1
    let sigops ← txFullSigops core v.raw.1 v.prevouts.1 (w.flags hs)
    some (acc.1 + cost.1, acc.2 + sigops)
  have hfold : ∀ acc, w.inputs.foldlM (addCost hs core w) acc = views.foldlM step acc := by
    intro acc
    refine hviews.foldlM_firsts (p := id) ?_ ?_ (by rw [List.map_id, hin]) acc
    · intro ti v c acc hv hget hone
      rw [id] at hget hone
      rw [addCost, if_neg (not_not.mpr hone), hv.resolve hget]
      rfl
    · intro c acc hne
      exact if_pos hne
  -- a fold of pairs is the pair of the folds
  have hsteps : ∀ (vs : List (TxView H)) (acc acc' : Int64 × Int64),
      vs.foldlM step acc = some acc' →
      acc' = ((vs.map (TxView.weight core)).foldl (· + ·) acc.1,
        (vs.map (TxView.sigops hs core w)).foldl (· + ·) acc.2) := by
    intro vs
    induction vs with
    | nil =>
      intro acc acc' h
      cases h
      rfl
    | cons v vs ih =>
      intro acc acc' h
      rw [List.foldlM_cons] at h
      obtain ⟨acc₁, hstep, h⟩ := Option.bind_eq_some_iff.mp h
      obtain ⟨⟨weight, legacy⟩, hweight, hstep⟩ := Option.bind_eq_some_iff.mp hstep
      obtain ⟨sigops, hsigops, hstep⟩ := Option.bind_eq_some_iff.mp hstep
      cases hstep
      rw [ih _ _ h, List.map_cons, List.map_cons, List.foldl_cons, List.foldl_cons]
      rw [TxView.weight, TxView.sigops, hweight, hsigops]
      rfl
  obtain ⟨⟨cbWeight, cbLegacy⟩, hcbWeight, h⟩ := Option.bind_eq_some_iff.mp h
  obtain ⟨cbSigops, hcbSigops, h⟩ := Option.bind_eq_some_iff.mp h
  rw [hfold] at h
  obtain ⟨⟨weight, sigops⟩, hrun, h⟩ := Option.bind_eq_some_iff.mp h
  cases h
  obtain ⟨rfl, rfl⟩ := Prod.mk.inj (hsteps _ _ _ hrun)
  exact ⟨cbWeight, cbLegacy, cbSigops, hcbWeight, hcbSigops, rfl⟩

/-! ## The calls -/

/-- The calls that the walk makes for the entries of a transaction are those that it is due. -/
theorem TxView.Fits.calls_eq {ti : ℕ} {v : TxView H} (hv : v.Fits core w ti) :
    v.inputs.flatMap (v.callsFor hs w mtp Chunks.none) = v.calls hs w mtp := by
  have hfst : v.inputs.flatMap (v.callsFor hs w mtp Chunks.none) =
      v.inputs.zipIdx.flatMap fun p => v.callsFor hs w mtp Chunks.none p.1 := by
    conv_lhs => rw [← List.zipIdx_map_fst 0 v.inputs]
    rw [List.flatMap_map]
  rw [hfst, calls]
  refine List.flatMap_congr fun p hp => ?_
  obtain ⟨inp, j⟩ := p
  have hfirst := (hv.entry j inp (List.mk_mem_zipIdx_iff_getElem?.mp hp)).2.2
  rw [callsFor]
  dsimp only
  by_cases hj : j = 0
  · rw [if_pos (hfirst.mpr hj), if_pos hj]
    rfl
  · rw [if_neg (mt hfirst.mp hj), if_neg hj]
    rfl

/-- The calls of a transaction are about its bytes. -/
theorem TxView.tx_of_mem_calls {v : TxView H} {c : Call} (hc : c ∈ v.calls hs w mtp) :
    c.subject.tx = v.raw.1 := by
  obtain ⟨⟨inp, j⟩, -, hc⟩ := List.mem_flatMap.mp hc
  by_cases hj : j = 0
  · simp only [hj, if_true, List.mem_cons, List.cons_append, List.nil_append, List.not_mem_nil,
      or_false] at hc
    rcases hc with rfl | rfl | rfl | rfl <;> rfl
  · simp only [hj, if_false, List.mem_cons, List.nil_append, List.not_mem_nil, or_false] at hc
    rcases hc with rfl | rfl <;> rfl

/-- No function is called twice on a transaction or on one of its inputs. -/
theorem TxView.Fits.nodup_calls {ti : ℕ} {v : TxView H} (hv : v.Fits core w ti) :
    ((v.calls hs w mtp).map Call.subject).Nodup := by
  rw [calls, List.map_flatMap, List.nodup_flatMap]
  have hidx : ∀ {inp : BlockInput H} {j : ℕ}, (inp, j) ∈ v.inputs.zipIdx →
      inp.inputIdx.toNat = j := fun hmem =>
    (hv.entry _ _ (List.mk_mem_zipIdx_iff_getElem?.mp hmem)).2.1
  constructor
  · rintro ⟨inp, j⟩ -
    by_cases hj : j = 0 <;> simp [hj, Call.subject]
  · have hpair : v.inputs.zipIdx.Pairwise fun p q => p.2 ≠ q.2 := by
      have := @List.nodup_range' 0 v.inputs.length 1
      rw [← List.zipIdx_map_snd 0 v.inputs, List.Nodup, List.pairwise_map] at this
      exact this
    refine List.Pairwise.imp_of_mem ?_ hpair
    rintro ⟨inp, j⟩ ⟨inp', j'⟩ hmem hmem' hne c hc hc'
    have hj := hidx hmem
    have hj' := hidx hmem'
    by_cases h0 : j = 0 <;> by_cases h0' : j' = 0
    all_goals simp [h0, h0', Call.subject, BlockInput.ref] at hc hc' hne
    all_goals grind

/-- What the theorem says of the calls and the totals of an accepted block: `cb` is its coinbase
    and `views` are its other transactions. -/
structure Covered (hs : Hashing H) (core : Core) (w : BlockWitness H) (mtp : UInt32)
    (r : BlockResult H) (ids : List Bytes32) (cb : Transaction) (views : List (TxView H)) :
    Prop where
  /-- The transactions are those of the committed txids, in block order, with their blobs. -/
  coinbase : core.unserializeTx w.coinbaseTx = some cb
  txs : w.txs = views.map TxView.raw
  prevouts : w.txPrevouts = views.map TxView.prevouts
  ids : ids = core.getHash cb :: views.map fun v => core.getHash v.tx
  /-- The entries are one for each input of each transaction, in order. -/
  inputs : w.inputs = views.flatMap TxView.inputs
  entries : ∀ v ∈ views, core.unserializeTx v.raw.1 = some v.tx ∧
    v.inputs.map (fun inp => inp.inputIdx.toNat) = List.range v.tx.vin.length
  /-- Every check returned 1, and none was made twice. -/
  calls : r.calls = views.flatMap (TxView.calls hs w mtp) ++
    [.checkTx w.coinbaseTx [0] 1, .isFinalTx w.coinbaseTx w.height (w.lockTime mtp) 1]
  once : (r.calls.map Call.subject).Nodup
  /-- Each transaction counts once, in order. -/
  fees : ∀ v ∈ views, checkTx core v.raw.1 v.prevouts.1 = some (1, v.fee core)
  totalFee : r.totalFee = (views.map (TxView.fee core)).foldl (· + ·) 0
  costs : ∃ cbWeight cbLegacy cbSigops, txWuSigops core w.coinbaseTx = some (cbWeight, cbLegacy) ∧
    txFullSigops core w.coinbaseTx [] (w.flags hs) = some cbSigops ∧
    r.totalWeight = (views.map (TxView.weight core)).foldl (· + ·) cbWeight +
      4 * (80 + compactSize w.txids.length) ∧
    r.totalSigops = (views.map (TxView.sigops hs core w)).foldl (· + ·) cbSigops
  wtxids : r.wtxids =
    List.Vector.replicate 32 0 :: views.map fun v => core.getWitnessHash v.tx
  hasWitness : r.hasWitness = (core.hasWitness cb || views.any fun v => core.hasWitness v.tx)

/-- The prevouts of the views are those of the witness. -/
theorem Viewed.prevouts_eq {ti : ℕ} {views : List (TxView H)} (h : Viewed core w ti views)
    (hlen : w.txPrevouts.length = w.txs.length) :
    w.txPrevouts.drop ti = views.map TxView.prevouts := by
  induction h with
  | nil =>
    rw [← hlen, List.drop_length]
    rfl
  | cons hv _ ih => rw [drop_of_getElem? hv.prevouts, ih, List.map_cons]

variable [DecidableEq H] {r : BlockResult H}

omit [DecidableEq H] in
theorem TxView.OkFrom.first {chunks : Chunks H} {ti : ℕ} {v : TxView H} (hv : v.Fits core w ti)
    (h : v.OkFrom hs core w mtp chunks 0) :
    ∃ inp coin, v.inputs[0]? = some inp ∧ inp.txFirst = 1 ∧
      InputOk hs core w mtp chunks v inp 0 coin := by
  have hget := List.getElem?_eq_getElem hv.pos
  obtain ⟨coin, hinput⟩ := h 0 _ le_rfl hget
  exact ⟨_, coin, hget, (hv.entry 0 _ hget).2.2.mpr rfl, hinput⟩

/-- In a block with distinct txids no two of the calls are about the same thing. -/
theorem Validated.nodup_calls {cb : Transaction} {views : List (TxView H)} {s : LoopState H}
    {stump : Accumulator.Stump H} (hval : Validated hs core w mtp Chunks.none r cb views s stump)
    (hdistinct : w.txids.Nodup) : (r.calls.map Call.subject).Nodup := by
  have hfits := hval.viewed.fits
  have hcalls : (views.flatMap fun v => v.inputs.flatMap (v.callsFor hs w mtp Chunks.none)) =
      views.flatMap (TxView.calls hs w mtp) := by
    refine List.flatMap_congr fun v hv => ?_
    obtain ⟨ti, hv⟩ := hfits v hv
    exact hv.calls_eq
  rw [hval.txids, List.nodup_cons] at hdistinct
  obtain ⟨hcb, hdistinct⟩ := hdistinct
  have hraw : ∀ {u v : TxView H}, u ∈ views → v ∈ views → u.raw = v.raw →
      core.getHash u.tx = core.getHash v.tx := by
    intro u v hu hv heq
    obtain ⟨_, hu⟩ := hfits u hu
    obtain ⟨_, hv⟩ := hfits v hv
    have htx := hu.tx
    rw [heq, hv.tx] at htx
    rw [Option.some.inj htx]
  rw [hval.calls, hcalls, List.map_append, List.nodup_append, List.map_flatMap, List.nodup_flatMap]
  refine ⟨⟨fun v hv => ?_, ?_⟩, by simp [Call.subject], ?_⟩
  · obtain ⟨ti, hv⟩ := hfits v hv
    exact hv.nodup_calls
  · rw [List.Nodup, List.pairwise_map] at hdistinct
    refine List.Pairwise.imp_of_mem ?_ hdistinct
    intro u v hu hv hne c hcu hcv
    obtain ⟨a, ha, rfl⟩ := List.mem_map.mp hcu
    obtain ⟨b, hb, hab⟩ := List.mem_map.mp hcv
    refine hne (hraw hu hv (Subtype.ext ?_))
    rw [← TxView.tx_of_mem_calls ha, ← TxView.tx_of_mem_calls hb, hab]
  · intro a ha b hb hab
    obtain ⟨v, hv, hc⟩ := List.mem_flatMap.mp ha
    obtain ⟨c, hmem, rfl⟩ := List.mem_map.mp hc
    have hraw' := TxView.tx_of_mem_calls hmem
    have hcbRaw : b.tx = w.coinbaseTx := by
      simp only [List.map_cons, List.map_nil, List.mem_cons, List.not_mem_nil, or_false] at hb
      rcases hb with rfl | rfl <;> rfl
    obtain ⟨ti, hfit⟩ := hfits v hv
    have htx := hfit.tx
    rw [← hraw', hab, hcbRaw, hval.coinbase] at htx
    refine hcb (List.mem_map.mpr ⟨v, hv, ?_⟩)
    rw [Option.some.inj htx]

/-- **Nothing in an accepted block goes unchecked.** If the header's Merkle root binds a list of
txids, then whatever the witness says, a block with every flag set has exactly the transactions
of that list; every script, lock, structure and finality check was made once and passed; and the
totals are those of the whole block. -/
theorem nothing_unchecked
    (hbind : ∀ a b, HeaderCommits core w.header a → HeaderCommits core w.header b → a = b)
    (h : validateBlock hs core w mtp Chunks.none = some r) (hvalid : r.blockValid = true)
    {ids : List Bytes32} (hids : HeaderCommits core w.header ids) :
    ∃ cb views, Covered hs core w mtp r ids cb views := by
  simp only [BlockResult.blockValid, Bool.and_eq_true] at hvalid
  obtain ⟨⟨⟨⟨⟨⟨⟨⟨⟨hok, -⟩, -⟩, hmerkle⟩, -⟩, -⟩, -⟩, -⟩, -⟩, hbip30⟩ := hvalid
  obtain ⟨cb, views, s, stump, hval⟩ :=
    validateBlock_ok (fun pre _ => scriptsSound_none pre) h hok
  have hbip := hval.bip30
  rw [hbip30] at hbip
  obtain ⟨hdistinct, -⟩ := bip30Check_ok hbip
  -- the header commits to the txids of the witness, so these are the committed ones
  have hcommits : HeaderCommits core w.header w.txids := by
    rw [hval.merkle, merkleOk, Bool.and_eq_true] at hmerkle
    refine ⟨⟨cb :: views.map TxView.tx, ?_⟩, of_decide_eq_true hmerkle.1, ?_⟩
    · rw [hval.txids, List.map_cons, List.map_map]
      rfl
    · simpa [merkleRoot] using hmerkle.2
  have hfits := hval.viewed.fits
  -- the witness commitment and the costs are over the same transactions
  have hwtxids : recWtxids core w [] = some (r.wtxids, r.hasWitness) := hval.wtxids
  rw [recWtxids_eq hval.viewed hval.inputs hval.coinbase] at hwtxids
  obtain ⟨hw, hhas⟩ := Prod.mk.inj (Option.some.inj hwtxids)
  obtain ⟨cbWeight, cbLegacy, cbSigops, hcbWeight, hcbSigops, hcosts⟩ :=
    blockCosts_eq hval.viewed hval.inputs hval.costs
  obtain ⟨hweight, hsigops⟩ := Prod.mk.inj hcosts
  refine ⟨cb, views, ?_⟩
  exact
    { coinbase := hval.coinbase
      txs := hval.viewed.raws
      prevouts := hval.viewed.prevouts_eq hval.prevouts
      ids := (hbind _ _ hids hcommits).trans hval.txids
      inputs := hval.inputs
      entries := by
        intro v hv
        obtain ⟨ti, hfit⟩ := hfits v hv
        refine ⟨hfit.tx, List.ext_getElem (by simp [hfit.length]) fun j hj _ => ?_⟩
        rw [List.length_map] at hj
        rw [List.getElem_map, List.getElem_range]
        exact (hfit.entry j _ (List.getElem?_eq_getElem hj)).2.1
      calls := by
        rw [hval.calls]
        congr 1
        refine List.flatMap_congr fun v hv => ?_
        obtain ⟨ti, hfit⟩ := hfits v hv
        exact hfit.calls_eq
      once := hval.nodup_calls hdistinct
      fees := by
        intro v hv
        obtain ⟨ti, hfit⟩ := hfits v hv
        obtain ⟨inp, coin, -, hone, hinput⟩ := (hval.passed v hv).first hfit
        exact (hinput.check hone).1
      totalFee := hval.totalFee
      costs := ⟨cbWeight, cbLegacy, cbSigops, hcbWeight, hcbSigops, hweight, hsigops⟩
      wtxids := hw.symm
      hasWitness := hhas.symm }

open OpTrue in
/-- The header of the spending block commits one list of txids. -/
theorem headerCommits_spendBlock {ids : List Bytes32} :
    HeaderCommits OpTrue.core (spendBlock 200 1).header ids ↔
      ids = [laterTxid, spendTxid, chainedTxid] := by
  have hslice : slice (spendBlock 200 1).header 36 68 = spendMerkle.toList := by decide +kernel
  constructor
  · rintro ⟨⟨ts, rfl⟩, hroot, -⟩
    rw [hslice] at hroot
    exact computeMerkleRoot_spend (List.Vector.eq _ _ hroot)
  · rintro rfl
    exact ⟨⟨[laterCoinbase, spend, chained], by decide +kernel⟩, hslice.symm ▸ rfl, rfl⟩

open OpTrue in
/-- The spending block, with its coinbase and the two other transactions. -/
theorem nothing_unchecked_spendBlock :
    ∃ w r cb views, validateBlock idealHashing OpTrue.core w spendMtp Chunks.none = some r ∧
      w.txids = [laterTxid, spendTxid, chainedTxid] ∧ r.blockValid = true ∧
      Covered idealHashing OpTrue.core w spendMtp r [laterTxid, spendTxid, chainedTxid] cb views := by
  obtain ⟨wit, r, hr, hvalid, -⟩ := spendBlock_accepted spendBlock_sampled
  have hcommits (ids : List Bytes32) : HeaderCommits OpTrue.core
      ((spendBlock 200 1).withSmt (spendSmt idealHashing).root wit).header ids ↔
        ids = [laterTxid, spendTxid, chainedTxid] := headerCommits_spendBlock
  have hbind (a b : List Bytes32) (ha : HeaderCommits OpTrue.core _ a)
      (hb : HeaderCommits OpTrue.core _ b) : a = b :=
    ((hcommits a).mp ha).trans ((hcommits b).mp hb).symm
  obtain ⟨cb, views, hcovered⟩ := nothing_unchecked hbind hr hvalid ((hcommits _).mpr rfl)
  exact ⟨_, r, cb, views, hr, rfl, hvalid, hcovered⟩

end Guest
end Hazync
