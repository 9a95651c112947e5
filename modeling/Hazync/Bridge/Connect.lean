import Hazync.Bridge.Carried

/-!
# The unspent coins of a chain

What the bridge's map is to be. The rules of consensus are about the coins not yet spent: a block
is taken one transaction at a time, an input takes a coin out that is there, and no transaction
puts a coin in over another that is unspent, but for the coinbases of two blocks. So consensus says
what is unspent after a chain, and the bridge, which first takes out all that the block spends and
then puts in what is left of its outputs, comes to the same coins (`ConnectBlock.updateUtxo_eq`).

## Two orders that come to the same

Consensus goes through the block in order, and an input can take an output of an earlier
transaction. The bridge removes first and inserts after, and skips what the block itself spends.
`Net` is what both are compared by: after any number of inputs and outputs the coins are those
before, with all outputs put in and all inputs taken out. It holds of a run through the transactions
because no transaction makes a coin that is there already (`Net.create`), which is what BIP30 and
the distinct txids are for.

At the two heights of `overwrittenHeight` the coinbase is exempt, and `insertAll` then replaces
coins; the last one put in counts, in the map as in consensus.
-/

namespace Hazync
namespace Bridge

open ByteStrings
open Guest (Core Transaction TxIn TxOut)

/-! ## The rules -/

def COINBASE_MATURITY : ℕ := 100

/-- A coin of a coinbase has to be a hundred blocks old. -/
def Unspent.Mature (u : Unspent) (height : UInt32) : Prop :=
  u.isCoinbase = true → u.height.toNat + COINBASE_MATURITY ≤ height.toNat

instance (u : Unspent) (height : UInt32) : Decidable (u.Mature height) :=
  inferInstanceAs (Decidable (_ → _))

/-- An input takes out a coin that is there. -/
def spendCoin (height : UInt32) (coins : Utxo) (op : Outpoint) : Option Utxo := do
  let u ← coins.get? op
  if u.Mature height then some (coins.erase op) else none

/-- The inputs of a transaction, then its spendable outputs. -/
def connectTx (core : Core) (height : UInt32) (coins : Utxo) (t : Transaction) : Option Utxo := do
  let coins ← (t.vin.map outpointOf).foldlM (spendCoin height) coins
  some (coins.insertAll (spendableOutputs core height false t))

/-- The outputs of the coinbase, then the other transactions in order. -/
def connectTxs (core : Core) (coins : Utxo) (height : UInt32) (block : Block) : Option Utxo :=
  match block.txdata with
  | [] => none
  | coinbase :: txs =>
    txs.foldlM (connectTx core height) (coins.insertAll (spendableOutputs core height true coinbase))

/-- The transactions that BIP30 is about: all of them, but for the coinbase at a height where one
    may overwrite. -/
def Block.bip30 (block : Block) (height : UInt32) : List Transaction :=
  match overwrittenHeight height with
  | none => block.txdata
  | some _ => block.txdata.tail

/-- A block that consensus accepts at a height, as far as the coins go: what was unspent before it
    and what is after it. -/
structure ConnectBlock (core : Core) (coins : Utxo) (height : UInt32) (block : Block)
    (coins' : Utxo) : Prop where
  /-- A second transaction of one txid would spend what the first has spent. -/
  txids : (block.txdata.map core.getHash).Nodup
  bip30 : ∀ t ∈ block.bip30 height, ∀ v < t.vout.length,
    coins.get? ⟨core.getHash t, UInt32.ofNat v⟩ = none
  txs : connectTxs core coins height block = some coins'

/-- The chains that consensus accepts, from the block after genesis on, each with the coins that
    are unspent at its end. The coinbase of genesis is none of them. -/
inductive ValidChain (core : Core) : List Block → Utxo → Prop
  | genesis : ValidChain core [] .empty
  | connect {blocks : List Block} {coins coins' : Utxo} {block : Block}
      (hchain : ValidChain core blocks coins)
      (hblock : ConnectBlock core coins (UInt32.ofNat (blocks.length + 1)) block coins') :
      ValidChain core (blocks ++ [block]) coins'

/-! ## The outputs of a block -/

section

variable {core : Core} {height : UInt32} {t coinbase : Transaction} {txs : List Transaction}
  {block : Block} {coins coins' : Utxo} {k : Outpoint} {u : Unspent}

theorem mem_spendableOutputs {isCoinbase : Bool} :
    (k, u) ∈ spendableOutputs core height isCoinbase t ↔ ∃ v o, t.vout[v]? = some o ∧
      outSpendable o.scriptPubKey = true ∧ k = ⟨core.getHash t, UInt32.ofNat v⟩ ∧
      u = ⟨o.nValue, o.scriptPubKey, height, isCoinbase⟩ := by
  unfold spendableOutputs
  rw [List.mem_filterMap]
  constructor
  · intro h
    obtain ⟨⟨o, v⟩, hmem, heq⟩ := h
    dsimp only at heq
    rw [Option.ite_none_right_eq_some] at heq
    obtain ⟨hspendable, heq⟩ := heq
    obtain ⟨rfl, rfl⟩ := Prod.mk.inj (Option.some.inj heq)
    exact ⟨v, o, List.mem_zipIdx_iff_getElem?.mp hmem, hspendable, rfl, rfl⟩
  · intro h
    obtain ⟨v, o, hget, hspendable, rfl, rfl⟩ := h
    exact ⟨(o, v), List.mem_zipIdx_iff_getElem?.mpr hget, if_pos hspendable⟩

theorem txid_of_mem_spendableOutputs {isCoinbase : Bool} {e : Outpoint × Unspent}
    (h : e ∈ spendableOutputs core height isCoinbase t) : e.1.txid = core.getHash t := by
  obtain ⟨v, o, -, -, hk, -⟩ := mem_spendableOutputs.mp h
  rw [hk]

/-- What is made of the outputs of a transaction, each at its own index, is at different outpoints.
    The index is a `u32`, and a transaction has fewer outputs than that would allow to wrap. -/
theorem nodup_outpoints {β : Type} {f : TxOut × ℕ → Option β} {key : β → Outpoint}
    (hf : ∀ p b, f p = some b → key b = ⟨core.getHash t, UInt32.ofNat p.2⟩) :
    ((t.vout.zipIdx.filterMap f).map key).Nodup := by
  have hplaces : t.vout.zipIdx.Pairwise fun p q => p.2 < q.2 := by
    apply List.pairwise_map.mp
    rw [List.zipIdx_map_snd]
    exact List.pairwise_lt_range'
  rw [List.nodup_iff_pairwise_ne, List.pairwise_map, List.pairwise_filterMap]
  refine List.Pairwise.imp_of_mem ?_ hplaces
  intro p q hp hq hlt a ha b hb heq
  rw [hf p a ha, hf q b hb] at heq
  have hroom := t.vout_lt
  have hp' := List.snd_lt_of_mem_zipIdx hp
  have hq' := List.snd_lt_of_mem_zipIdx hq
  have hnat := congrArg (fun k => k.vout.toNat) heq
  dsimp only at hnat
  rw [UInt32.toNat_ofNat', UInt32.toNat_ofNat', Nat.mod_eq_of_lt (by omega),
    Nat.mod_eq_of_lt (by omega)] at hnat
  omega

/-- Transactions with different txids have no outpoint in common. -/
theorem nodup_flatMap_outpoints {β : Type} {g : Transaction → List β} {key : β → Outpoint}
    (hnodup : ∀ t, ((g t).map key).Nodup) (htxid : ∀ t, ∀ b ∈ g t, (key b).txid = core.getHash t)
    (h : (txs.map core.getHash).Nodup) : ((txs.flatMap g).map key).Nodup := by
  rw [List.map_flatMap, List.nodup_flatMap]
  refine ⟨fun t _ => hnodup t, (List.pairwise_map.mp h).imp ?_⟩
  intro a b hab
  rw [Function.onFun, List.disjoint_left]
  intro k hk hk'
  obtain ⟨e, he, rfl⟩ := List.mem_map.mp hk
  obtain ⟨e', he', heq⟩ := List.mem_map.mp hk'
  apply hab
  rw [← htxid a e he, ← htxid b e' he', heq]

theorem nodup_spendableOutputs (isCoinbase : Bool) :
    ((spendableOutputs core height isCoinbase t).map Prod.fst).Nodup := by
  refine @nodup_outpoints core t _ _ _ ?_
  intro p e he
  dsimp only at he
  rw [Option.ite_none_right_eq_some] at he
  rw [← Option.some.inj he.2]

theorem nodup_flatMap_spendableOutputs (h : (txs.map core.getHash).Nodup) :
    ((txs.flatMap (spendableOutputs core height false)).map Prod.fst).Nodup :=
  nodup_flatMap_outpoints (fun _ => nodup_spendableOutputs false)
    (fun _ _ he => txid_of_mem_spendableOutputs he) h

theorem Block.outputs_cons (h : block.txdata = coinbase :: txs) :
    block.outputs core height = spendableOutputs core height true coinbase ++
      txs.flatMap (spendableOutputs core height false) := by
  unfold Block.outputs
  rw [h, List.zipIdx_cons, List.flatMap_cons]
  congr 1
  -- None of the others is the first.
  have hrest : ∀ p ∈ txs.zipIdx 1, spendableOutputs core height (decide (p.2 = 0)) p.1 =
      spendableOutputs core height false p.1 := by
    intro p hp
    have hpos := List.le_snd_of_mem_zipIdx hp
    rw [decide_eq_false (by omega)]
  refine (List.flatMap_congr hrest).trans ?_
  rw [← List.flatMap_map Prod.fst (spendableOutputs core height false), List.zipIdx_map_fst]

theorem Block.spent_cons (h : block.txdata = coinbase :: txs) :
    block.spent = txs.flatMap fun t => t.vin.map outpointOf := by
  unfold Block.spent
  rw [h, List.tail_cons]

theorem Block.nodup_outputs (h : block.txdata = coinbase :: txs)
    (htxids : (block.txdata.map core.getHash).Nodup) :
    ((block.outputs core height).map Prod.fst).Nodup := by
  rw [h, List.map_cons, List.nodup_cons] at htxids
  rw [Block.outputs_cons h, List.map_append, List.nodup_append]
  refine ⟨nodup_spendableOutputs true, nodup_flatMap_spendableOutputs htxids.2, ?_⟩
  intro k hk l hl heq
  obtain ⟨e, he, rfl⟩ := List.mem_map.mp hk
  obtain ⟨e', he', rfl⟩ := List.mem_map.mp hl
  obtain ⟨t, ht, he'⟩ := List.mem_flatMap.mp he'
  apply htxids.1
  rw [← txid_of_mem_spendableOutputs he, heq, txid_of_mem_spendableOutputs he']
  exact List.mem_map_of_mem ht

/-! ## The coins after a block -/

theorem spendCoin_eq_some {op : Outpoint} : spendCoin height coins op = some coins' ↔
    ∃ u, coins.get? op = some u ∧ u.Mature height ∧ coins.erase op = coins' := by
  unfold spendCoin
  simp only [Option.bind_eq_bind, Option.bind_eq_some_iff, Option.ite_none_right_eq_some,
    Option.some.injEq]

/-- Inputs that are all taken out are different coins, each of them there and mature. -/
theorem foldlM_spendCoin {ops : List Outpoint}
    (h : ops.foldlM (spendCoin height) coins = some coins') :
    ops.Nodup ∧ (∀ k, coins'.get? k = if k ∈ ops then none else coins.get? k) ∧
      ∀ k ∈ ops, ∃ u, coins.get? k = some u ∧ u.Mature height := by
  induction ops generalizing coins with
  | nil =>
    obtain rfl := Option.some.inj h
    simp
  | cons op ops ih =>
    rw [List.foldlM_cons] at h
    obtain ⟨mid, hop, hops⟩ := Option.bind_eq_some_iff.mp h
    obtain ⟨u, hu, hmature, rfl⟩ := spendCoin_eq_some.mp hop
    obtain ⟨hnodup, hget, hthere⟩ := ih hops
    have hop : op ∉ ops := by
      intro hmem
      obtain ⟨w, hw, -⟩ := hthere op hmem
      rw [SortedMap.get?_erase, Function.update_self] at hw
      cases hw
    refine ⟨List.nodup_cons.mpr ⟨hop, hnodup⟩, ?_, ?_⟩
    · intro k
      rw [hget, SortedMap.get?_erase]
      by_cases hk : k = op
      · simp [hk]
      · simp [hk]
    · intro k hk
      rcases List.mem_cons.mp hk with rfl | hk
      · exact ⟨u, hu, hmature⟩
      · obtain ⟨w, hw, hwm⟩ := hthere k hk
        have hne : k ≠ op := fun heq => hop (heq ▸ hk)
        rw [SortedMap.get?_erase, Function.update_of_ne hne] at hw
        exact ⟨w, hw, hwm⟩

/-- What a run of inputs and outputs comes to: with the outputs put in first and the inputs taken
    out after, whatever order they came in. -/
structure Net (height : UInt32) (coins : Utxo) (ops : List Outpoint)
    (outs : List (Outpoint × Unspent)) (coins' : Utxo) : Prop where
  /-- No outpoint is spent twice. -/
  nodup : ops.Nodup
  /-- A spent coin is gone, also one that the block itself has made; of the others the last one put
      in counts. -/
  get : ∀ k, coins'.get? k = if k ∈ ops then none else (coins.insertAll outs).get? k
  /-- What is spent was there, before the block or out of it, and was mature. -/
  there : ∀ k ∈ ops, ∃ u, (coins.insertAll outs).get? k = some u ∧ u.Mature height

theorem Net.refl (coins : Utxo) : Net height coins [] [] coins where
  nodup := List.nodup_nil
  get k := by simp [SortedMap.insertAll]
  there k hk := absurd hk List.not_mem_nil

/-- Inputs on top of a run: a coin that one of them takes is there, so the run has not spent it, and
    no other of them takes it. -/
theorem Net.spend {ops ops' : List Outpoint} {outs : List (Outpoint × Unspent)}
    {mid : Utxo} (h : Net height coins ops outs mid)
    (hops : ops'.foldlM (spendCoin height) mid = some coins') :
    Net height coins (ops ++ ops') outs coins' := by
  obtain ⟨hnodup, hget, hthere⟩ := foldlM_spendCoin hops
  refine ⟨List.nodup_append.mpr ⟨h.nodup, hnodup, ?_⟩, ?_, ?_⟩
  · intro k hk l hl hkl
    subst hkl
    obtain ⟨u, hu, -⟩ := hthere k hl
    rw [h.get, if_pos hk] at hu
    cases hu
  · intro k
    rw [hget, h.get]
    by_cases hk : k ∈ ops'
    · simp [hk]
    · simp [hk]
  · intro k hk
    rcases List.mem_append.mp hk with hk | hk
    · exact h.there k hk
    · obtain ⟨u, hu, hmature⟩ := hthere k hk
      rw [h.get] at hu
      exact ⟨u, (Option.ite_none_left_eq_some.mp hu).2, hmature⟩

/-- Outputs on top of a run. They are new, so putting them in before the inputs were taken out would
    have made no difference. -/
theorem Net.create {ops : List Outpoint} {outs new : List (Outpoint × Unspent)}
    (h : Net height coins ops outs coins') (hkeys : (new.map Prod.fst).Nodup)
    (hnew : ∀ e ∈ new, (coins.insertAll outs).get? e.1 = none) :
    Net height coins ops (outs ++ new) (coins'.insertAll new) := by
  have hsplit : coins.insertAll (outs ++ new) = (coins.insertAll outs).insertAll new :=
    List.foldl_append
  -- What has been taken out was there, so it is none of the new ones.
  have hapart : ∀ k ∈ ops, k ∉ new.map Prod.fst := by
    intro k hk hmem
    obtain ⟨e, he, rfl⟩ := List.mem_map.mp hmem
    obtain ⟨u, hu, -⟩ := h.there e.1 hk
    rw [hnew e he] at hu
    cases hu
  refine ⟨h.nodup, ?_, ?_⟩
  · intro k
    rw [hsplit]
    by_cases hk : k ∈ new.map Prod.fst
    · obtain ⟨⟨l, u⟩, he, rfl⟩ := List.mem_map.mp hk
      rw [if_neg fun hmem => hapart _ hmem hk, SortedMap.get?_insertAll_of_mem hkeys he,
        SortedMap.get?_insertAll_of_mem hkeys he]
    · rw [SortedMap.get?_insertAll_of_notMem hk, SortedMap.get?_insertAll_of_notMem hk, h.get]
  · intro k hk
    rw [hsplit, SortedMap.get?_insertAll_of_notMem (hapart k hk)]
    exact h.there k hk

theorem connectTx_eq_some : connectTx core height coins t = some coins' ↔
    ∃ mid, (t.vin.map outpointOf).foldlM (spendCoin height) coins = some mid ∧
      mid.insertAll (spendableOutputs core height false t) = coins' := by
  unfold connectTx
  simp only [Option.bind_eq_bind, Option.bind_eq_some_iff, Option.some.injEq]

/-- The transactions of a block after its coinbase. -/
theorem net_connectTx {ts : List Transaction} (htxids : (ts.map core.getHash).Nodup)
    (hnew : ∀ e ∈ ts.flatMap (spendableOutputs core height false), coins.get? e.1 = none)
    (h : ts.foldlM (connectTx core height) coins = some coins') :
    Net height coins (ts.flatMap fun t => t.vin.map outpointOf)
      (ts.flatMap (spendableOutputs core height false)) coins' := by
  induction ts using List.reverseRecOn generalizing coins' with
  | nil =>
    obtain rfl := Option.some.inj h
    exact .refl coins
  | append_singleton ts t ih =>
    rw [List.foldlM_append] at h
    obtain ⟨mid, hts, ht⟩ := Option.bind_eq_some_iff.mp h
    rw [List.foldlM_cons] at ht
    obtain ⟨last, hlast, heq⟩ := Option.bind_eq_some_iff.mp ht
    obtain rfl := Option.some.inj heq
    obtain ⟨rest, hrest, rfl⟩ := connectTx_eq_some.mp hlast
    have hkeys : (((ts ++ [t]).flatMap (spendableOutputs core height false)).map Prod.fst).Nodup :=
      nodup_flatMap_spendableOutputs htxids
    rw [List.flatMap_append, List.flatMap_singleton] at hnew hkeys ⊢
    rw [List.map_append, List.nodup_append] at htxids hkeys
    have hmid := ih htxids.1 (fun e he => hnew e (List.mem_append_left _ he)) hts
    rw [List.flatMap_append, List.flatMap_singleton]
    refine (hmid.spend hrest).create hkeys.2.1 ?_
    intro e he
    rw [SortedMap.get?_insertAll_of_notMem, hnew e (List.mem_append_right _ he)]
    intro hmem
    exact hkeys.2.2 e.1 hmem e.1 (List.mem_map_of_mem he) rfl

/-! ## A block that consensus accepts -/

/-- What a block does that consensus accepts, as the bridge is to find it. -/
structure BlockEffect (core : Core) (coins : Utxo) (height : UInt32) (block : Block) : Prop where
  keys : ((block.outputs core height).map Prod.fst).Nodup
  nodup : block.spent.Nodup
  /-- An input takes an output of the block, which is no coinbase's, or a coin from before. -/
  source : ∀ k ∈ block.spent,
    (∃ u, (k, u) ∈ block.outputs core height ∧ u.isCoinbase = false ∧ coins.get? k = none) ∨
      (k ∉ (block.outputs core height).map Prod.fst ∧ ∃ u, coins.get? k = some u)
  /-- An output is new, or one of a coinbase that overwrites. -/
  fresh : ∀ e ∈ block.outputs core height, coins.get? e.1 = none ∨
    (overwrittenHeight height).isSome ∧ ∃ coinbase, block.txdata.head? = some coinbase ∧
      e ∈ spendableOutputs core height true coinbase

theorem Block.bip30_tail (h : block.txdata = coinbase :: txs) {t : Transaction} (ht : t ∈ txs) :
    t ∈ block.bip30 height := by
  unfold Block.bip30
  rw [h]
  split
  · exact List.mem_cons_of_mem _ ht
  · exact ht

theorem get?_eq_none_of_bip30 {isCoinbase : Bool}
    (h : ∀ v < t.vout.length, coins.get? ⟨core.getHash t, UInt32.ofNat v⟩ = none)
    {e : Outpoint × Unspent} (he : e ∈ spendableOutputs core height isCoinbase t) :
    coins.get? e.1 = none := by
  obtain ⟨v, o, hget, -, hk, -⟩ := mem_spendableOutputs.mp he
  rw [hk]
  exact h v (List.getElem?_eq_some_iff.mp hget).1

theorem height_of_mem_spendableOutputs {isCoinbase : Bool} {e : Outpoint × Unspent}
    (he : e ∈ spendableOutputs core height isCoinbase t) :
    e.2.height = height ∧ e.2.isCoinbase = isCoinbase := by
  obtain ⟨v, o, -, -, -, hu⟩ := mem_spendableOutputs.mp he
  rw [hu]
  exact ⟨rfl, rfl⟩

/-- What consensus says of a block, in the form the bridge needs it: its outpoints are different,
    each input has one source, each output is new but for the coinbase that overwrites; and the
    coins after it are those before with the outputs in and the inputs out. -/
theorem ConnectBlock.spec (h : ConnectBlock core coins height block coins') :
    BlockEffect core coins height block ∧
      ∀ k, coins'.get? k = if k ∈ block.spent then none
        else (coins.insertAll (block.outputs core height)).get? k := by
  have htxs := h.txs
  unfold connectTxs at htxs
  cases hblock : block.txdata with
  | nil =>
    rw [hblock] at htxs
    cases htxs
  | cons coinbase txs =>
    rw [hblock] at htxs
    have htxids := h.txids
    rw [hblock, List.map_cons, List.nodup_cons] at htxids
    have hkeys : ((block.outputs core height).map Prod.fst).Nodup :=
      Block.nodup_outputs hblock h.txids
    have hkeys' := hkeys
    rw [Block.outputs_cons hblock, List.map_append, List.nodup_append] at hkeys'
    obtain ⟨-, -, hapart⟩ := hkeys'
    have hfresh : ∀ e ∈ txs.flatMap (spendableOutputs core height false),
        coins.get? e.1 = none := by
      intro e he
      obtain ⟨t, ht, he⟩ := List.mem_flatMap.mp he
      exact get?_eq_none_of_bip30 (h.bip30 t (Block.bip30_tail hblock ht)) he
    -- The coinbase's outputs are in place when the others start.
    have hnet : Net height (coins.insertAll (spendableOutputs core height true coinbase))
        block.spent (txs.flatMap (spendableOutputs core height false)) coins' := by
      rw [Block.spent_cons hblock]
      refine net_connectTx htxids.2 ?_ htxs
      intro e he
      rw [SortedMap.get?_insertAll_of_notMem, hfresh e he]
      intro hmem
      exact hapart e.1 hmem e.1 (List.mem_map_of_mem he) rfl
    have hall : (coins.insertAll (spendableOutputs core height true coinbase)).insertAll
        (txs.flatMap (spendableOutputs core height false)) =
        coins.insertAll (block.outputs core height) := by
      rw [Block.outputs_cons hblock]
      exact List.foldl_append.symm
    refine ⟨⟨hkeys, hnet.nodup, ?_, ?_⟩, ?_⟩
    · intro k hk
      obtain ⟨u, hu, hmature⟩ := hnet.there k hk
      rw [hall] at hu
      by_cases hmem : k ∈ (block.outputs core height).map Prod.fst
      · obtain ⟨⟨l, w⟩, he, rfl⟩ := List.mem_map.mp hmem
        rw [SortedMap.get?_insertAll_of_mem hkeys he] at hu
        obtain rfl := Option.some.inj hu
        left
        have he' := he
        rw [Block.outputs_cons hblock] at he'
        rcases List.mem_append.mp he' with he' | he'
        · -- a coinbase's coin is not mature in its own block
          obtain ⟨hheight, hcoinbase⟩ := height_of_mem_spendableOutputs he'
          have hage := hmature hcoinbase
          rw [hheight, COINBASE_MATURITY] at hage
          omega
        · obtain ⟨t, -, ht⟩ := List.mem_flatMap.mp he'
          exact ⟨w, he, (height_of_mem_spendableOutputs ht).2, hfresh _ he'⟩
      · rw [SortedMap.get?_insertAll_of_notMem hmem] at hu
        exact .inr ⟨hmem, u, hu⟩
    · intro e he
      rw [Block.outputs_cons hblock] at he
      rcases List.mem_append.mp he with he | he
      · cases hover : overwrittenHeight height with
        | some old => exact .inr ⟨rfl, coinbase, by rw [hblock]; rfl, he⟩
        | none =>
          left
          refine get?_eq_none_of_bip30 (h.bip30 coinbase ?_) he
          unfold Block.bip30
          rw [hover, hblock]
          exact List.mem_cons_self
      · exact .inl (hfresh e he)
    · intro k
      rw [hnet.get, hall]

theorem ConnectBlock.unique {other : Utxo} (h : ConnectBlock core coins height block coins')
    (h' : ConnectBlock core coins height block other) : coins' = other :=
  Option.some.inj (h.txs.symm.trans h'.txs)

/-- The last block of a chain. -/
theorem ValidChain.last {blocks : List Block} (h : ValidChain core (blocks ++ [block]) coins') :
    ∃ coins, ValidChain core blocks coins ∧
      ConnectBlock core coins (UInt32.ofNat (blocks.length + 1)) block coins' := by
  generalize hall : blocks ++ [block] = all at h
  cases h with
  | genesis => exact absurd hall (by simp)
  | connect hchain hblock =>
    obtain ⟨rfl, heq⟩ := List.append_inj' hall rfl
    obtain ⟨rfl, -⟩ := List.cons.inj heq
    exact ⟨_, hchain, hblock⟩

theorem ValidChain.of_prefix {pre blocks : List Block} (h : ValidChain core blocks coins)
    (hpre : pre <+: blocks) : ∃ coins', ValidChain core pre coins' := by
  induction h with
  | genesis =>
    obtain rfl := List.prefix_nil.mp hpre
    exact ⟨_, .genesis⟩
  | connect hchain hblock ih =>
    rcases List.prefix_concat_iff.mp hpre with rfl | hshort
    · exact ⟨_, hchain.connect hblock⟩
    · exact ih hshort

/-- A chain says what is unspent at its end. -/
theorem ValidChain.unique {blocks : List Block} (h : ValidChain core blocks coins)
    (h' : ValidChain core blocks coins') : coins = coins' := by
  induction h generalizing coins' with
  | genesis =>
    generalize hempty : ([] : List Block) = blocks at h'
    cases h' with
    | genesis => rfl
    | connect => exact absurd hempty (by simp)
  | connect hchain hblock ih =>
    obtain ⟨mid, hmid, hblock'⟩ := h'.last
    obtain rfl := ih hmid
    exact hblock.unique hblock'

/-- **The map follows the chain**: over a block that consensus accepts it goes from the coins
    unspent before to those unspent after. -/
theorem ConnectBlock.updateUtxo_eq (h : ConnectBlock core coins height block coins') :
    (updateUtxo core coins block height).1 = coins' := by
  obtain ⟨heffect, hget⟩ := h.spec
  refine SortedMap.ext_get? fun k => ?_
  rw [hget]
  by_cases hkept : k ∈ (block.kept core height).map Prod.fst
  · obtain ⟨⟨l, u⟩, he, rfl⟩ := List.mem_map.mp hkept
    rw [get?_updateUtxo_of_mem heffect.keys he, if_neg (notMem_spent_of_kept hkept),
      SortedMap.get?_insertAll_of_mem heffect.keys (List.mem_filter.mp he).1]
  · rw [get?_updateUtxo_of_notMem hkept]
    by_cases hspent : k ∈ block.spent
    · rw [if_pos hspent, if_pos hspent]
    · rw [if_neg hspent, if_neg hspent, SortedMap.get?_insertAll_of_notMem]
      intro hmem
      obtain ⟨e, he, rfl⟩ := List.mem_map.mp hmem
      exact hkept (List.mem_map_of_mem (List.mem_filter.mpr ⟨he, decide_eq_true hspent⟩))

end

end Bridge
end Hazync
