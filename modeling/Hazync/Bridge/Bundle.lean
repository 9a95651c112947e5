import Hazync.Bridge.GuestRuns
import Hazync.Guest.BlockComplete
import Hazync.Lib.Parallel

/-!
# The bundle of a block (`build_block_carried`, `cmd_bridge`, `prover/host/src/main.rs`)

Beside the proofs of its accumulator and of its tree the bridge writes into a bundle the bytes of
the block: each transaction as it came, and the coins that its inputs spend, which it has from its
map or from the block itself. `exists_views` says what the guest finds in it: the transactions of
the block, each with one entry for each input, and for each entry the coin that the bridge spent.

## Where the coins come from

An input may spend a coin from before the block or an output of an earlier transaction of it. The
bridge looks into its map first and then into the block (`prevout`), and serialises what it finds;
the entry does not say where it came from. What the guest needs of it is that the entry and the
bytes together give the coin whose leaf is deleted (`InputFor.coin_eq`).

The walk over the inputs is one list of pairs in the bridge and one loop for each transaction in the
guest. `placesFrom` is that list with the places written out, and `exists_views` goes along it
transaction by transaction.
-/

namespace Hazync
namespace Bridge

open ByteStrings
open Accumulator (Forest Proof Stump)
open Guest (BlockInput BlockWitness Blob Boundary Chunks Coin Core InputOk InputRef SmtWitness
  SpendItem Transaction TxIn TxOut TxView checkTx inputLocks isFinalTx itemsFrom)

variable {H : Type}

/-! ## What is written -/

/-- rust-bitcoin's `serialize`, of a transaction and of a list of coins. -/
structure Serializer where
  tx : Transaction → Bytes
  outs : List TxOut → Bytes

/-- The part of a coin that goes into `tx_prevouts`. -/
def Unspent.txOut (u : Unspent) : TxOut := ⟨u.value, u.spk⟩

/-- The coins that the inputs of a transaction of the block spend. -/
def Block.prevouts (core : Core) (utxo : Utxo) (height : UInt32) (block : Block) (t : Transaction) :
    Option (List Unspent) :=
  t.vin.mapM fun txin => prevout core utxo block height (outpointOf txin)

/-- A guest of 32 bits reads no longer vector. -/
def blob (b : Bytes) : Option Blob := if h : b.length < 2 ^ 32 then some ⟨b, h⟩ else none

/-- The `BlockWitness` of `build_block_carried`, with the `in_smt_root` and the `smt` that
    `cmd_bridge` puts in. `none` is a panic, or a block that the guest cannot hold. -/
def bundleWitness (core : Core) (ser : Serializer) (utxo : Utxo) (height : UInt32) (block : Block)
    (carried : Carried H) (inSmtRoot : H) (smt : SmtWitness H) : Option (BlockWitness H) := do
  let coinbase ← block.txdata.head?
  let txs ← block.txdata.tail.mapM fun t => blob (ser.tx t)
  let txPrevouts ← block.txdata.tail.mapM fun t => do
    let us ← block.prevouts core utxo height t
    blob (ser.outs (us.map Unspent.txOut))
  if h : carried.inputs.length < 2 ^ 32 then
    some
      { header := block.header
        height := height
        coinbaseTx := ser.tx coinbase
        txids := carried.txids
        rootPrev := carried.rootPrev
        txs := txs
        txPrevouts := txPrevouts
        inputs := carried.inputs
        rootNext := carried.rootNext
        bip30 := carried.bip30
        inSmtRoot := inSmtRoot
        smt := smt
        inputs_lt := h }
  else none

/-- The bundle that the round of `Standing.advance` writes: the `in_` fields and the witness. -/
def Standing.bundle [DecidableEq H] (hs : Hashing H) (core : Core) (ser : Serializer)
    (s : Standing H) (block : Block) : Option (Boundary H × BlockWitness H) := do
  let h := s.done + 1
  let before ← s.inBoundary block.prevBlockhash
  let (_, blockMtp) ← pushMtp s.win s.blockMtp block.time
  let carried ← buildBlockCarried hs core s.utxo blockMtp h block s.forest.beginJournal
  let coinbase ← block.txdata.head?
  let nout := (coinbase.vout.filter fun o => outSpendable o.scriptPubKey).length
  let (smt, _) ← smtAdvance hs s.smt (core.getHash coinbase) (UInt32.ofNat nout)
    (block.coinbaseSpends s.utxo) (h = 91842 ∨ h = 91880)
  let w ← bundleWitness core ser s.utxo h block carried s.smt.root smt
  some (before, w)

/-! ## What the rules say of a transaction -/

/-- What Core says of a transaction of the block and of the coins it spends, each with the time its
    leaf commits to: the bytes are read back, and every check of it passes. Nothing of this is about
    the accumulator; the bridge does not check it, and the chain that it walks is one where it
    holds. -/
structure TxRules (core : Core) (ser : Serializer) (height mtp lockTime flags : UInt32)
    (blockMtp : List UInt32) (t : Transaction) (us : List Unspent) : Prop where
  /-- Core reads back the transaction from the bytes that the bridge writes. -/
  tx : core.unserializeTx (ser.tx t) = some t
  /-- And the spent outputs from theirs. -/
  outs : core.unserializeOuts (ser.outs (us.map Unspent.txOut)) = some (us.map Unspent.txOut)
  vin : t.vin ≠ []
  /-- Each input's script passes, with all the spent outputs of the transaction at hand. -/
  scripts : ∀ j < t.vin.length, core.verifyScript t j (us.map Unspent.txOut) flags = none
  /-- Maturity and relative lock times. The time a coin's leaf commits to is the median before its
      block. -/
  locks : ∀ (j : ℕ) (u : Unspent), us[j]? = some u → inputLocks t
    ⟨UInt32.ofNat j, u.height, if u.isCoinbase then 1 else 0, blockMtp.getD u.height.toNat 0⟩
    height mtp = 1
  /-- The checks of one transaction by itself, with the fee they come to. -/
  check : ∃ fee, checkTx core (ser.tx t) (ser.outs (us.map Unspent.txOut)) = some (1, fee)
  /-- `IsFinalTx`, against the lock time of the block. -/
  final : isFinalTx core (ser.tx t) height lockTime = some 1

/-! ## The entry of an input -/

/-- An entry as the bridge makes it of an input. -/
structure InputFor (s : InputSpend) (inp : BlockInput H) : Prop where
  txIdx : inp.txIdx = UInt32.ofNat s.txIdx
  inputIdx : inp.inputIdx = UInt32.ofNat s.inputIdx
  coinHeight : inp.coinHeight = s.coin.height
  coinIsCoinbase : inp.coinIsCoinbase = if s.coin.isCoinbase then 1 else 0
  /-- The time is the one the coin's leaf was hashed with. -/
  coinMtp : inp.coinMtp = s.coin.mtp
  /-- The first input of each transaction is marked, so that the guest knows where one ends. -/
  txFirst : inp.txFirst = if s.inputIdx = 0 then 1 else 0

/-- The spend that the guest makes of it. -/
def spendItem (p : InputSpend × BlockInput H) : SpendItem H :=
  ⟨UInt32.ofNat (p.1.txIdx + 1), p.2, p.1.coin⟩

section

variable {hs : Hashing H} {core : Core} {ser : Serializer} {utxo : Utxo} {height mtp : UInt32}
  {block : Block} {blockMtp : List UInt32} {w : BlockWitness H} {t : Transaction} {ti : ℕ}
  {spends : List InputSpend} {inputs : List (BlockInput H)} {us : List Unspent}

theorem blob_eq_some {b : Bytes} {x : Blob} (h : blob b = some x) : x.1 = b := by
  unfold blob at h
  split at h
  · rw [← Option.some.inj h]
  · cases h

/-- The spends of one transaction from an input on, place by place: so many as there are inputs,
    each with the coin that the map or the block has for it. -/
theorem exists_prevouts {xs : List TxIn} {k : ℕ}
    (h : ((xs.zipIdx k).map fun q => (ti, q.2, q.1)).mapM
      (spendOf core utxo blockMtp height block) = some spends) :
    ∃ us, (xs.mapM fun txin => prevout core utxo block height (outpointOf txin)) = some us ∧
      us.length = xs.length ∧ spends.length = xs.length ∧
      ∀ (j : ℕ) (txin : TxIn) (u : Unspent), xs[j]? = some txin → us[j]? = some u →
        spends[j]? =
          some ⟨ti, k + j, u.coin (outpointOf txin) (blockMtp.getD u.height.toNat 0)⟩ := by
  induction xs generalizing k spends with
  | nil =>
    obtain rfl := Option.some.inj h
    exact ⟨[], rfl, rfl, rfl, fun j txin u hj => by cases hj⟩
  | cons x xs ih =>
    rw [List.zipIdx_cons, List.map_cons, List.mapM_cons] at h
    obtain ⟨first, hfirst, h⟩ := Option.bind_eq_some_iff.mp h
    obtain ⟨rest, hrest, heq⟩ := Option.bind_eq_some_iff.mp h
    obtain rfl := Option.some.inj heq
    obtain ⟨u, hu, heq⟩ := Option.bind_eq_some_iff.mp hfirst
    obtain rfl := Option.some.inj heq
    obtain ⟨us, hus, hlength, hspends, hplaces⟩ := ih hrest
    refine ⟨u :: us, ?_, ?_, ?_, ?_⟩
    · rw [List.mapM_cons, hu, hus]
      rfl
    · rw [List.length_cons, List.length_cons, hlength]
    · rw [List.length_cons, List.length_cons, hspends]
    · intro j txin v hj hv
      cases j with
      | zero =>
        obtain rfl := Option.some.inj hj
        obtain rfl := Option.some.inj hv
        rfl
      | succ j =>
        have hnext : k + (j + 1) = k + 1 + j := by omega
        rw [hnext]
        exact hplaces j txin v hj hv

/-- The guest makes the bridge's coin of what an entry says and of the bytes. -/
theorem InputFor.coin_eq {s : InputSpend} {inp : BlockInput H} {txin : TxIn} {u : Unspent}
    (h : InputFor s inp) (hs : s.coin = u.coin (outpointOf txin) s.coin.mtp) :
    inp.ref.coin txin u.txOut = s.coin := by
  have hheight : s.coin.height = u.height := by rw [hs]; rfl
  have hcoinbase : s.coin.isCoinbase = u.isCoinbase := by rw [hs]; rfl
  rw [hs]
  unfold InputRef.coin BlockInput.ref Unspent.coin
  dsimp only
  rw [h.coinHeight, h.coinIsCoinbase, h.coinMtp, hheight, hcoinbase]
  cases u.isCoinbase <;> simp [Unspent.txOut, outpointOf]

/-- **One transaction of the bundle**: the guest finds it with one entry for each of its inputs, the
    coins of the entries are those that the bridge spends, and every check of it passes. The entries
    are a stretch of the list of all entries, whose bounds the guest finds by the marks of the first
    inputs. -/
theorem exists_view {raw prevouts : Blob} (hraw : w.txs[ti]? = some raw)
    (hprevouts : w.txPrevouts[ti]? = some prevouts) (hti : ti < 2 ^ 32) (htx : raw.1 = ser.tx t)
    (hus : block.prevouts core utxo height t = some us)
    (houts : prevouts.1 = ser.outs (us.map Unspent.txOut))
    (hspends : (t.vin.zipIdx.map fun q => (ti, q.2, q.1)).mapM
      (spendOf core utxo blockMtp height block) = some spends)
    (hinputs : List.Forall₂ InputFor spends inputs) (hheight : w.height = height)
    (hrules : TxRules core ser height mtp (w.lockTime mtp) (w.flags hs) blockMtp t us) :
    ∃ v : TxView H, v.Fits core w ti ∧ v.tx = t ∧ v.inputs = inputs ∧
      v.items core (UInt32.ofNat (ti + 1)) = (spends.zip inputs).map spendItem ∧
      v.OkFrom hs core w mtp Chunks.none 0 := by
  obtain ⟨us', hus', hlength, hcount, hplaces⟩ := exists_prevouts hspends
  obtain rfl := Option.some.inj (hus.symm.trans hus')
  have hinputsLength : inputs.length = t.vin.length := by rw [← hinputs.length_eq, hcount]
  -- the entry at a place, with the input and the coin there
  have hat : ∀ (j : ℕ) (inp : BlockInput H), inputs[j]? = some inp → ∃ txin u,
      t.vin[j]? = some txin ∧ us[j]? = some u ∧ spends[j]? =
        some ⟨ti, j, u.coin (outpointOf txin) (blockMtp.getD u.height.toNat 0)⟩ ∧
      InputFor ⟨ti, j, u.coin (outpointOf txin) (blockMtp.getD u.height.toNat 0)⟩ inp := by
    intro j inp hj
    obtain ⟨hlt, -⟩ := List.getElem?_eq_some_iff.mp hj
    rw [hinputsLength] at hlt
    have htxin := List.getElem?_eq_getElem hlt
    have hu := List.getElem?_eq_getElem (hlength ▸ hlt : j < us.length)
    have hspend := hplaces j _ _ htxin hu
    rw [Nat.zero_add] at hspend
    obtain ⟨inp', hinp', hfor⟩ := Parallel.forall₂_getElem? hinputs hspend
    obtain rfl := Option.some.inj (hj.symm.trans hinp')
    exact ⟨_, _, htxin, hu, hspend, hfor⟩
  have hspent : TxView.spent core (⟨raw, prevouts, t, inputs⟩ : TxView H) =
      us.map Unspent.txOut := by
    unfold TxView.spent
    rw [houts, hrules.outs, Option.getD_some]
  -- each entry passes, with the coin that the bridge spends
  have hok : ∀ (j : ℕ) (inp : BlockInput H), inputs[j]? = some inp → ∃ s, spends[j]? = some s ∧
      s.txIdx = ti ∧ InputOk hs core w mtp Chunks.none ⟨raw, prevouts, t, inputs⟩ inp j s.coin := by
    intro j inp hj
    obtain ⟨txin, u, htxin, hu, hspend, hfor⟩ := hat j inp hj
    obtain ⟨hlt, -⟩ := List.getElem?_eq_some_iff.mp htxin
    obtain ⟨fee, hfee⟩ := hrules.check
    refine ⟨_, hspend, rfl, ?_, ?_, ⟨txin, u.txOut, htxin, ?_, (hfor.coin_eq rfl).symm⟩, ?_, ?_,
      ?_⟩
    · rw [houts, hrules.outs, ← hspent]
    · rw [hspent, List.length_map, hlength]
    · rw [hspent, List.getElem?_map, hu]
      rfl
    · rw [hspent]
      exact hrules.scripts j hlt
    · intro _
      have href : inp.ref = ⟨UInt32.ofNat j, u.height, if u.isCoinbase then 1 else 0,
          blockMtp.getD u.height.toNat 0⟩ := by
        unfold BlockInput.ref
        rw [hfor.inputIdx, hfor.coinHeight, hfor.coinIsCoinbase, hfor.coinMtp]
        rfl
      rw [href, hheight]
      exact hrules.locks j u hu
    · intro _
      dsimp only
      rw [TxView.fee, htx, houts, hfee, hheight, hrules.final]
      exact ⟨rfl, rfl⟩
  refine ⟨⟨raw, prevouts, t, inputs⟩, ⟨hraw, hprevouts, ?_, hinputsLength, ?_, ?_⟩, rfl, rfl, ?_,
    ?_⟩
  · rw [htx, hrules.tx]
  · dsimp only
    rw [hinputsLength]
    exact List.length_pos_iff.mpr hrules.vin
  · intro j inp hj
    obtain ⟨txin, u, htxin, -, -, hfor⟩ := hat j inp hj
    have hlt := (List.getElem?_eq_some_iff.mp htxin).1
    refine ⟨?_, ?_, ?_⟩
    · rw [hfor.txIdx, UInt32.toNat_ofNat', Nat.mod_eq_of_lt hti]
    · rw [hfor.inputIdx, UInt32.toNat_ofNat', Nat.mod_eq_of_lt (hlt.trans t.vin_lt)]
    · rw [hfor.txFirst]
      by_cases hzero : j = 0 <;> simp [hzero]
  · refine List.ext_getElem? fun j => ?_
    cases hj : inputs[j]? with
    | none =>
      have hle : inputs.length ≤ j := List.getElem?_eq_none_iff.mp hj
      rw [List.getElem?_eq_none, List.getElem?_eq_none]
      · rw [List.length_map, List.length_zip]
        omega
      · exact (TxView.length_items_le core _ _).trans hle
    | some inp =>
      obtain ⟨s, hspend, hs, hin⟩ := hok j inp hj
      have hzip : (spends.zip inputs)[j]? = some (s, inp) :=
        List.getElem?_zip_eq_some.mpr ⟨hspend, hj⟩
      rw [hin.items hj, List.getElem?_map, hzip, ← hs]
      rfl
  · intro j inp _ hj
    obtain ⟨s, -, -, hin⟩ := hok j inp hj
    exact ⟨s.coin, hin⟩

/-- The inputs of the transactions from the one at `ti` on, with their places. -/
def placesFrom (ti : ℕ) (ts : List Transaction) : List (ℕ × ℕ × TxIn) :=
  (ts.zipIdx ti).flatMap fun p => p.1.vin.zipIdx.map fun q => (p.2, q.2, q.1)

theorem placesFrom_cons (ti : ℕ) (t : Transaction) (ts : List Transaction) :
    placesFrom ti (t :: ts) =
      (t.vin.zipIdx.map fun q => (ti, q.2, q.1)) ++ placesFrom (ti + 1) ts := by
  unfold placesFrom
  rw [List.zipIdx_cons, List.flatMap_cons]

/-- A transaction of the block, with its bytes and those of the coins it spends. -/
structure TxBlobs (core : Core) (ser : Serializer) (utxo : Utxo) (height : UInt32) (block : Block)
    (t : Transaction) (raw prevouts : Blob) : Prop where
  raw : raw.1 = ser.tx t
  prevouts : ∃ us, block.prevouts core utxo height t = some us ∧
    prevouts.1 = ser.outs (us.map Unspent.txOut)

/-- **All transactions of the bundle**, from the one at `ti` on. The induction is along the
    transactions; the entries left over are those of the transactions after them. -/
theorem exists_views (ti : ℕ) {ts : List Transaction}
    (hblobs : List.Forall₂ (fun t (p : Blob × Blob) =>
      TxBlobs core ser utxo height block t p.1 p.2) ts ((w.txs.drop ti).zip (w.txPrevouts.drop ti)))
    (hlength : w.txPrevouts.length = w.txs.length) (hti : ti + ts.length = w.txs.length)
    (hroom : w.txs.length < 2 ^ 32)
    (hspends : (placesFrom ti ts).mapM (spendOf core utxo blockMtp height block) = some spends)
    (hinputs : List.Forall₂ InputFor spends inputs) (hheight : w.height = height)
    (hrules : ∀ t ∈ ts, ∀ us, block.prevouts core utxo height t = some us →
      TxRules core ser height mtp (w.lockTime mtp) (w.flags hs) blockMtp t us) :
    ∃ views : List (TxView H), Guest.Viewed core w ti views ∧ views.map TxView.tx = ts ∧
      inputs = views.flatMap TxView.inputs ∧
      itemsFrom core (ti + 1) views = (spends.zip inputs).map spendItem ∧
      ∀ v ∈ views, v.OkFrom hs core w mtp Chunks.none 0 := by
  induction ts generalizing ti spends inputs with
  | nil =>
    obtain rfl := Option.some.inj hspends
    cases hinputs
    have hend : ti = w.txs.length := hti
    refine ⟨[], ?_, rfl, rfl, rfl, fun v hv => absurd hv List.not_mem_nil⟩
    rw [hend]
    exact .nil
  | cons t ts ih =>
    rw [List.length_cons] at hti
    have hlt : ti < w.txs.length := by omega
    have hlt' : ti < w.txPrevouts.length := hlength ▸ hlt
    rw [List.drop_eq_getElem_cons hlt, List.drop_eq_getElem_cons hlt', List.zip_cons_cons,
      List.forall₂_cons] at hblobs
    obtain ⟨⟨hraw, us, hus, houts⟩, hrest⟩ := hblobs
    rw [placesFrom_cons] at hspends
    obtain ⟨first, later, hfirst, hlater, rfl⟩ := Parallel.mapM_append_eq_some hspends
    obtain ⟨head, tail, rfl, hhead, htail⟩ := Parallel.exists_of_forall₂_append hinputs
    obtain ⟨v, hfits, htx, hin, hitems, hok⟩ := exists_view (List.getElem?_eq_getElem hlt)
      (List.getElem?_eq_getElem hlt') (hlt.trans hroom) hraw hus houts hfirst hhead hheight
      (hrules t List.mem_cons_self us hus)
    obtain ⟨views, hviewed, htxs, hins, hitems', hoks⟩ := ih _ hrest (by omega) hlater htail
      fun u hu => hrules u (List.mem_cons_of_mem _ hu)
    refine ⟨v :: views, .cons hfits hviewed, ?_, ?_, ?_, ?_⟩
    · rw [List.map_cons, htx, htxs]
    · rw [List.flatMap_cons, hin, hins]
    · rw [itemsFrom, hitems, hitems', List.zip_append hhead.length_eq, List.map_append]
    · intro u hu
      rcases List.mem_cons.mp hu with rfl | hu
      · exact hok
      · exact hoks u hu

end

end Bridge
end Hazync
