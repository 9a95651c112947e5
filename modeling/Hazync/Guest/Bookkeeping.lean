import Hazync.Accumulator.SwapAndShrink
import Hazync.Guest.Created
import Hazync.Guest.OpTrue
import Hazync.Guest.Utreexo

/-!
# Batch bookkeeping is sequential spending

The guest does not apply the transactions one by one. It gathers what the block creates, sets off
the spends of those coins, deletes the others from the accumulator as they come, and appends what
is left. The reference is `Ledger.connect` on the multiset of leaves: coinbase first, then each
transaction takes its coins out and puts its outputs in. At the two grandfathered blocks the
coinbase first replaces the leaves of the one it repeats.

## The order that does not matter, and the order that does

The reference takes the transactions one by one and refuses a coin that is not there. The guest
deletes all the coins from before the block first, in the order of the inputs, sets off the spends
of the block's own coins against its outputs, and appends what is left. On multisets of leaves the
two agree if no coin is spent before it is made. The guest sees to that by the positions: the
creator of a coin that is spent within the block has a smaller one (`earlier_of_creators`).

The list of leaves has an order too, and the accumulator is of the list. A delete moves the last
leaf into the gap, so the list afterwards is not the one before without some leaves. The theorem
therefore says both: the multiset that the reference ends with, and the list that `root_next`
commits.

## Which hashes may not collide

That two coins have different leaves is not enough. A proof of the accumulator is a path to a root,
and where two nodes have one hash a path can be of a leaf that is nowhere. `phantom_coin_accepted`
is a block that spends such a coin and passes, with leaves that are one-to-one.
-/

namespace Hazync
namespace Guest

open ByteStrings Ledger SwapRemove
open Accumulator (Proof Stump normalize)

variable {H : Type}

/-! ## The reference -/

/-- A transaction of the block as the reference sees it. -/
def TxView.leafTx (hs : Hashing H) (core : Core) (w : BlockWitness H) (mtp : UInt32)
    (v : TxView H) : Ledger.Tx H where
  ins := (v.coins core).map (Coin.leaf hs)
  outs := v.created hs core w mtp

/-- The leaves that an overwrite replaces, with their deletes. -/
def superseded (hs : Hashing H) (core : Core) (w : BlockWitness H) (cb : Transaction) :
    List (H × Bip30Del H) :=
  match w.bip30 with
  | some ov =>
    ((createdCoins core cb ov.oldHeight 1 ov.oldMtp).map (Coin.leaf hs)).zip ov.dels
  | none => []

/-- The coinbase as the reference sees it. At the two blocks that repeat a coinbase it takes out the
    leaves of the earlier one. -/
def coinbaseLeafTx (hs : Hashing H) (core : Core) (w : BlockWitness H) (mtp : UInt32)
    (cb : Transaction) : Ledger.Tx H where
  ins := (superseded hs core w cb).map Prod.fst
  outs := (createdCoins core cb w.height 1 mtp).map (Coin.leaf hs)

/-- The block, coinbase first. -/
def leafTxs (hs : Hashing H) (core : Core) (w : BlockWitness H) (mtp : UInt32)
    (cb : Transaction) (views : List (TxView H)) : List (Ledger.Tx H) :=
  coinbaseLeafTx hs core w mtp cb :: views.map (TxView.leafTx hs core w mtp)

/-! ## Runs of deletes -/

/-- A delete that has to be accepted. -/
def deleteAccepted [DecidableEq H] (hs : Hashing H) (stump : Stump H) (p : H × Bip30Del H) :
    Option (Stump H) := do
  let (ok, stump) ← Stump.delete hs.parent stump p.2.globalPos
    { p.2.proofI with leaf := p.1 } p.2.proofLast
  if ok then some stump else none

/-- The deletes one after the other, all of which have to be accepted. -/
def deleteAll [DecidableEq H] (hs : Hashing H) (stump : Stump H) (ps : List (H × Bip30Del H)) :
    Option (Stump H) := ps.foldlM (deleteAccepted hs) stump

/-- What the deletes leave of a list of leaves. -/
def deletedFrom (L : List H) (ps : List (H × Bip30Del H)) : List H :=
  ps.foldl (fun L p => swapRemove L p.2.globalPos.toNat) L

/-- The spends of coins that the block does not create, as deletes in input order. -/
def externalDeletes [DecidableEq H] (hs : Hashing H) (created : List H)
    (items : List (SpendItem H)) : List (H × Bip30Del H) :=
  (items.filter fun i => i.coin.leaf hs ∉ created).map fun i =>
    (i.coin.leaf hs, ⟨i.inp.globalPos, i.inp.proofI, i.inp.proofLast⟩)

section

variable [DecidableEq H] {hs : Hashing H} {core : Core} {w : BlockWitness H} {mtp : UInt32}

/-- A delete that is accepted, in terms of the stump. -/
theorem deleteAccepted_eq_some {stump stump' : Stump H} {p : H × Bip30Del H} :
    deleteAccepted hs stump p = some stump' ↔
      Stump.delete hs.parent stump p.2.globalPos { p.2.proofI with leaf := p.1 } p.2.proofLast =
        some (true, stump') := by
  rw [deleteAccepted]
  constructor
  · intro h
    obtain ⟨⟨ok, s⟩, hd, h⟩ := Option.bind_eq_some_iff.mp h
    cases ok with
    | false => cases h
    | true =>
      cases h
      exact hd
  · intro h
    rw [h]
    rfl

/-- Deletes in two stretches. -/
theorem deleteAll_append {stump : Stump H} {ps qs : List (H × Bip30Del H)} :
    deleteAll hs stump (ps ++ qs) = (deleteAll hs stump ps).bind fun s => deleteAll hs s qs :=
  List.foldlM_append

/-- Accepted deletes take their leaves, one occurrence each, out of the committed list. -/
theorem deleteAll_sound (hnode : hs.NodeInjective) {stump stump' : Stump H} {L : List H}
    {ps : List (H × Bip30Del H)} (hL : stump.Commits hs.parent L)
    (h : deleteAll hs stump ps = some stump') :
    stump'.Commits hs.parent (deletedFrom L ps) ∧
      (↑L : Multiset H) = ↑(ps.map Prod.fst) + ↑(deletedFrom L ps) := by
  induction ps generalizing stump L with
  | nil =>
    obtain rfl := Option.some.inj h
    exact ⟨hL, (zero_add _).symm⟩
  | cons p ps ih =>
    rw [deleteAll, List.foldlM_cons] at h
    obtain ⟨stump₁, hstep, h⟩ := Option.bind_eq_some_iff.mp h
    obtain ⟨-, hget, hL₁⟩ := Stump.delete_sound hnode.parent hL (deleteAccepted_eq_some.mp hstep)
    obtain ⟨hcommits, hsplit⟩ := ih hL₁ h
    refine ⟨hcommits, ?_⟩
    calc (↑L : Multiset H) = p.1 ::ₘ ↑(swapRemove L p.2.globalPos.toNat) :=
          (Multiset.coe_eq_coe.mpr (cons_swapRemove_perm hget)).symm
      _ = p.1 ::ₘ (↑(ps.map Prod.fst) +
            ↑(deletedFrom (swapRemove L p.2.globalPos.toNat) ps)) := by rw [hsplit]
      _ = ↑((p :: ps).map Prod.fst) + ↑(deletedFrom L (p :: ps)) := by
          rw [List.map_cons, ← Multiset.cons_coe, Multiset.cons_add]
          rfl

/-! ## The spends of the walk -/

theorem map_fst_externalDeletes (created : List H) (items : List (SpendItem H)) :
    (externalDeletes hs created items).map Prod.fst =
      external created (items.map fun i => i.coin.leaf hs) := by
  rw [externalDeletes, external, List.filter_map, List.map_map]
  rfl

/-- The spends, taken apart: the external ones are the deletes, the others are new to
`spentInBlock` and have a creator before them. -/
theorem SpendsAll.split {createdAt : List (H × UInt32)} {created : List H}
    (hkeys : ∀ l, createdAt.lookup l = none ↔ l ∉ created) {a b : Stump H × List H}
    {items : List (SpendItem H)} (h : SpendsAll hs createdAt a items b) :
    deleteAll hs a.1 (externalDeletes hs created items) = some b.1 ∧
      b.2 = (internal created (items.map fun i => i.coin.leaf hs)).reverse ++ a.2 ∧
      (a.2.Nodup → b.2.Nodup) ∧
      ∀ i ∈ items, i.coin.leaf hs ∈ created →
        ∃ creator, createdAt.lookup (i.coin.leaf hs) = some creator ∧ creator < i.curTx := by
  induction h with
  | nil => exact ⟨rfl, rfl, id, by simp⟩
  | @cons a b c i items hstep _ ih =>
    obtain ⟨hdeletes, hspent, hnodup, hcreators⟩ := ih
    cases hstep with
    | @inBlock stump spentInBlock _ creator hlookup hlt hnew =>
      have hmem : i.coin.leaf hs ∈ created := by
        by_contra hnot
        rw [(hkeys _).mpr hnot] at hlookup
        cases hlookup
      refine ⟨?_, ?_, fun ha => hnodup (List.nodup_cons.mpr ⟨hnew, ha⟩), ?_⟩
      · rwa [externalDeletes, List.filter_cons_of_neg (by simpa using hmem)]
      · rw [hspent, List.map_cons, internal, internal, List.filter_cons_of_pos (by simpa using hmem),
          List.reverse_cons, List.append_assoc, List.singleton_append]
      · intro j hj hjmem
        rcases List.mem_cons.mp hj with rfl | hj
        · exact ⟨creator, hlookup, hlt⟩
        · exact hcreators j hj hjmem
    | @external stump stump' spentInBlock _ hlookup hdelete =>
      have hnot := (hkeys _).mp hlookup
      refine ⟨?_, ?_, hnodup, ?_⟩
      · rw [externalDeletes, List.filter_cons_of_pos (by simpa using hnot), List.map_cons,
          deleteAll, List.foldlM_cons, deleteAccepted_eq_some.mpr hdelete]
        exact hdeletes
      · rw [hspent, List.map_cons, internal, internal, List.filter_cons_of_neg (by simpa using hnot)]
      · intro j hj hjmem
        rcases List.mem_cons.mp hj with rfl | hj
        · exact absurd hjmem hnot
        · exact hcreators j hj hjmem

omit [DecidableEq H] in
theorem map_coin_items (v : TxView H) (cur : UInt32) :
    (v.items core cur).map SpendItem.coin = v.coins core := by
  rw [TxView.items, List.map_map]
  exact List.map_snd_zip (v.length_coins_le core)

omit [DecidableEq H] in
theorem map_coin_itemsFrom (pos : ℕ) (views : List (TxView H)) :
    (itemsFrom core pos views).map SpendItem.coin = views.flatMap (TxView.coins core) := by
  induction views generalizing pos with
  | nil => rfl
  | cons v views ih =>
    rw [itemsFrom, List.map_append, map_coin_items, ih, List.flatMap_cons]

omit [DecidableEq H] in
/-- The spends of the walk are the inputs of the reference, in order. -/
theorem map_leaf_itemsFrom (pos : ℕ) (views : List (TxView H)) :
    (itemsFrom core pos views).map (fun i => i.coin.leaf hs) =
      (views.map (TxView.leafTx hs core w mtp)).flatMap Tx.ins := by
  calc (itemsFrom core pos views).map (fun i => i.coin.leaf hs)
      = ((itemsFrom core pos views).map SpendItem.coin).map (Coin.leaf hs) := by
        rw [List.map_map]
        rfl
    _ = (views.flatMap (TxView.coins core)).map (Coin.leaf hs) := by rw [map_coin_itemsFrom]
    _ = (views.map (TxView.leafTx hs core w mtp)).flatMap Tx.ins := by
        rw [List.map_flatMap, List.flatMap_map]
        rfl

omit [DecidableEq H] in
/-- What the transactions of the reference create are the outputs of the views. -/
theorem flatMap_outs (views : List (TxView H)) :
    (views.map (TxView.leafTx hs core w mtp)).flatMap Tx.outs =
      views.flatMap (TxView.created hs core w mtp) := by
  rw [List.flatMap_map]
  rfl

omit [DecidableEq H] in
theorem curTx_of_mem_items {v : TxView H} {cur : UInt32} {i : SpendItem H}
    (h : i ∈ v.items core cur) : i.curTx = cur := by
  obtain ⟨⟨inp, coin⟩, -, rfl⟩ := List.mem_map.mp h
  rfl

/-- In-block spends whose creators come before them are of coins that are there. -/
theorem earlier_of_creators {cb : Transaction} (done rest : List (TxView H))
    (hlen : (done ++ rest).length < 2 ^ 32)
    (hcreators : ∀ i ∈ itemsFrom core (done.length + 1) rest,
      i.coin.leaf hs ∈ outputLeaves hs core w mtp cb (done ++ rest) →
      ∃ creator, (createdAt hs core w mtp cb (done ++ rest)).lookup (i.coin.leaf hs) =
        some creator ∧ creator < i.curTx) :
    Earlier (outputLeaves hs core w mtp cb (done ++ rest)) (outputLeaves hs core w mtp cb done)
      (rest.map (TxView.leafTx hs core w mtp)) := by
  induction rest generalizing done with
  | nil => trivial
  | cons v rest ih =>
    have hassoc : done ++ v :: rest = done ++ [v] ++ rest := by simp
    have hdone : outputLeaves hs core w mtp cb (done ++ [v]) =
        outputLeaves hs core w mtp cb done ++ v.created hs core w mtp := by
      simp [outputLeaves]
    refine ⟨fun l hl => ?_, ?_⟩
    · obtain ⟨hins, hmem⟩ := List.mem_filter.mp hl
      have hins' : l ∈ (v.coins core).map (Coin.leaf hs) := hins
      rw [← map_coin_items v (UInt32.ofNat (done.length + 1)), List.map_map] at hins'
      obtain ⟨i, hi, rfl⟩ := List.mem_map.mp hins'
      obtain ⟨creator, hlookup, hlt⟩ := hcreators i (List.mem_append_left _ hi)
        (of_decide_eq_true hmem)
      rw [curTx_of_mem_items hi] at hlt
      exact mem_of_creator_lt hlen (mem_of_lookup hlookup) hlt
    · rw [hassoc] at hcreators hlen ⊢
      have hrest := ih _ hlen fun i hi => by
        rw [List.length_append, List.length_singleton] at hi
        exact hcreators i (by
          rw [itemsFrom]
          exact List.mem_append_right _ hi)
      rw [hdone] at hrest
      exact hrest

/-! ## After the walk -/

/-- Deletes of superseded leaves that pass together are all accepted. -/
theorem deleteSuperseded_ok {stump stump' : Stump H} {ok : Bool} {ps : List (H × Bip30Del H)}
    (h : ps.foldlM (deleteSuperseded hs) (stump, ok) = some (stump', true)) :
    ok = true ∧ deleteAll hs stump ps = some stump' := by
  induction ps generalizing stump ok with
  | nil =>
    cases h
    exact ⟨rfl, rfl⟩
  | cons p ps ih =>
    rw [List.foldlM_cons] at h
    obtain ⟨⟨stump₁, ok₁⟩, hstep, h⟩ := Option.bind_eq_some_iff.mp h
    obtain ⟨rfl, hrest⟩ := ih h
    obtain ⟨⟨ok₂, stump₂⟩, hdelete, hstep⟩ := Option.bind_eq_some_iff.mp hstep
    obtain ⟨rfl, hok⟩ := Prod.mk.inj (Option.some.inj hstep)
    obtain ⟨rfl, rfl⟩ := Bool.and_eq_true_iff.mp hok
    refine ⟨rfl, ?_⟩
    rw [deleteAll, List.foldlM_cons, deleteAccepted_eq_some.mpr hdelete]
    exact hrest

/-- An overwrite that passes is at one of the two blocks, and deletes each superseded leaf. -/
theorem bip30Overwrite_ok {cb : Transaction} (hcb : core.unserializeTx w.coinbaseTx = some cb)
    {stump stump' : Stump H} (h : bip30Overwrite hs core w stump = some (stump', true)) :
    w.bip30.isSome = w.isBip30Block hs ∧ deleteAll hs stump (superseded hs core w cb) = some stump' ∧
      ∀ ov, w.bip30 = some ov → (superseded hs core w cb).map Prod.fst =
        (createdCoins core cb ov.oldHeight 1 ov.oldMtp).map (Coin.leaf hs) := by
  rw [bip30Overwrite] at h
  rw [superseded]
  cases hov : w.bip30 with
  | none =>
    cases hblock : w.isBip30Block hs with
    | true =>
      rw [hov, hblock] at h
      cases h
    | false =>
      rw [hov, hblock] at h
      cases h
      exact ⟨rfl, rfl, by simp⟩
  | some ov =>
    cases hblock : w.isBip30Block hs with
    | false =>
      rw [hov, hblock] at h
      cases h
    | true =>
      rw [hov, hblock] at h
      obtain ⟨⟨leaves, _⟩, hleaves, h⟩ := Option.bind_eq_some_iff.mp h
      rw [txOutLeaves, hcb] at hleaves
      cases hleaves
      obtain ⟨hlen, hdeletes⟩ := deleteSuperseded_ok h
      refine ⟨rfl, hdeletes, ?_⟩
      intro ov' hov'
      cases hov'
      exact List.map_fst_zip (of_decide_eq_true hlen).le

omit [DecidableEq H] in
/-- After the additions the accumulator is of the longer list. -/
theorem addAll_commits {stump : Stump H} {L ls : List H} (hL : stump.Commits hs.parent L)
    (hlen : (L ++ ls).length < 2 ^ 64) : (addAll hs stump ls).Commits hs.parent (L ++ ls) := by
  induction ls generalizing stump L with
  | nil => rwa [List.append_nil]
  | cons l ls ih =>
    have hsplit : L ++ l :: ls = L ++ [l] ++ ls := by simp
    rw [hsplit] at hlen ⊢
    refine ih (hL.add l (lt_of_le_of_lt ?_ hlen)) hlen
    rw [List.length_append, List.length_append, List.length_singleton]
    exact Nat.le_add_right _ _

omit [DecidableEq H] in
/-- The coins behind a transaction's inputs are at the outpoints it names. -/
theorem TxView.outpoints_coins {chunks : Chunks H} {ti : ℕ} {v : TxView H} (hv : v.Fits core w ti)
    (hok : v.OkFrom hs core w mtp chunks 0) :
    (v.coins core).map (fun c => (c.txid, c.vout)) =
      v.tx.vin.map fun txin => (txin.prevoutHash, txin.prevoutN) := by
  obtain ⟨coin, hinput⟩ := hok 0 _ le_rfl (List.getElem?_eq_getElem hv.pos)
  have hspent : v.tx.vin.length ≤ (v.spent core).length := hinput.length.ge
  have hzip : (v.tx.vin.zip (v.spent core)).length ≤ v.inputs.length := by
    rw [List.length_zip, Nat.min_eq_left hspent, hv.length]
  calc (v.coins core).map (fun c => (c.txid, c.vout))
      = (((v.inputs.zip (v.tx.vin.zip (v.spent core))).map Prod.snd).map Prod.fst).map
          fun txin => (txin.prevoutHash, txin.prevoutN) := by
        rw [TxView.coins, List.map_map, List.map_map, List.map_map]
        rfl
    _ = v.tx.vin.map fun txin => (txin.prevoutHash, txin.prevoutN) := by
        rw [List.map_snd_zip hzip, List.map_fst_zip hspent]

omit [DecidableEq H] in
theorem Viewed.length_le_inputs {ti : ℕ} {views : List (TxView H)} (h : Viewed core w ti views) :
    views.length ≤ (views.flatMap TxView.inputs).length := by
  induction h with
  | nil => exact le_rfl
  | cons hv _ ih =>
    rw [List.flatMap_cons, List.length_append, List.length_cons, Nat.add_comm]
    exact Nat.add_le_add hv.pos ih

/-! ## The theorem -/

/-- The created leaves the block does not spend, in canonical order. -/
def keptLeaves (hs : Hashing H) (core : Core) (w : BlockWitness H) (mtp : UInt32)
    (cb : Transaction) (views : List (TxView H)) : List H :=
  unspent (outputLeaves hs core w mtp cb views) (internal (outputLeaves hs core w mtp cb views)
    ((views.map (TxView.leafTx hs core w mtp)).flatMap Tx.ins))

/-- The deletes of the block: external spends in input order, then the superseded leaves. -/
def blockDeletes (hs : Hashing H) (core : Core) (w : BlockWitness H) (mtp : UInt32)
    (cb : Transaction) (views : List (TxView H)) : List (H × Bip30Del H) :=
  externalDeletes hs (outputLeaves hs core w mtp cb views) (itemsFrom core 1 views) ++
    superseded hs core w cb

/-- What the theorem says of a block that extends the leaves `L`: `cb` is its coinbase, `views`
    are its other transactions, and `stump` is the accumulator after the deletes. -/
structure Bookkept (hs : Hashing H) (core : Core) (w : BlockWitness H) (mtp : UInt32)
    (L : List H) (cb : Transaction) (views : List (TxView H)) (stump : Stump H) : Prop where
  coinbase : core.unserializeTx w.coinbaseTx = some cb
  txs : w.txs = views.map TxView.raw
  /-- Each transaction spends one coin for each of its inputs, at the outpoint it names. -/
  spends : ∀ v ∈ views, core.unserializeTx v.raw.1 = some v.tx ∧
    (v.coins core).map (fun c => (c.txid, c.vout)) =
      v.tx.vin.map fun txin => (txin.prevoutHash, txin.prevoutN)
  /-- The overwrite is at the two grandfathered blocks only, and of the coinbase's own outputs. -/
  overwrite : w.bip30.isSome = w.isBip30Block hs ∧
    ∀ ov, w.bip30 = some ov → (superseded hs core w cb).map Prod.fst =
      (createdCoins core cb ov.oldHeight 1 ov.oldMtp).map (Coin.leaf hs)
  /-- Transaction by transaction, every coin is there when it is spent. -/
  sequential : Ledger.connect (↑L : Multiset H) (leafTxs hs core w mtp cb views) =
    some (↑(deletedFrom L (blockDeletes hs core w mtp cb views) ++
      keptLeaves hs core w mtp cb views) : Multiset H)
  /-- No coin is spent more often than it was there or created. -/
  once : ∀ l, ((leafTxs hs core w mtp cb views).flatMap Tx.ins).count l ≤
    L.count l + (outputLeaves hs core w mtp cb views).count l
  createdOnce : (outputLeaves hs core w mtp cb views).Nodup
  /-- The accumulator: the deletes in order, then the kept outputs appended. -/
  deletes : deleteAll hs w.rootPrev (blockDeletes hs core w mtp cb views) = some stump
  deleted : stump.Commits hs.parent (deletedFrom L (blockDeletes hs core w mtp cb views))
  roots : normalize w.rootNext.roots =
    (addAll hs stump (keptLeaves hs core w mtp cb views)).normalized
  numLeaves : w.rootNext.numLeaves = (addAll hs stump (keptLeaves hs core w mtp cb views)).numLeaves
  /-- So `root_next` is the accumulator of the final set, which a 64-bit count has to hold. -/
  final : (deletedFrom L (blockDeletes hs core w mtp cb views) ++
      keptLeaves hs core w mtp cb views).length < 2 ^ 64 →
    w.rootNext.Commits hs.parent (deletedFrom L (blockDeletes hs core w mtp cb views) ++
      keptLeaves hs core w mtp cb views)

variable {r : BlockResult H} {cb : Transaction} {views : List (TxView H)} {s : LoopState H}
  {stump : Stump H}

omit [DecidableEq H] in
theorem flatMap_outs_leafTxs :
    (leafTxs hs core w mtp cb views).flatMap Tx.outs = outputLeaves hs core w mtp cb views := by
  rw [leafTxs, List.flatMap_cons, flatMap_outs]
  rfl

/-- The reference accepts the block and ends with what the deletes and the kept outputs make. -/
theorem connect_leafTxs {L D : List H}
    (hcreated : (outputLeaves hs core w mtp cb views).Nodup)
    (honce : (internal (outputLeaves hs core w mtp cb views)
      ((views.map (TxView.leafTx hs core w mtp)).flatMap Tx.ins)).Nodup)
    (hearlier : Earlier (outputLeaves hs core w mtp cb views) (outputLeaves hs core w mtp cb [])
      (views.map (TxView.leafTx hs core w mtp)))
    (hL : (↑L : Multiset H) =
      ↑((blockDeletes hs core w mtp cb views).map Prod.fst) + ↑D) :
    Ledger.connect (↑L : Multiset H) (leafTxs hs core w mtp cb views) =
      some (↑(D ++ keptLeaves hs core w mtp cb views) : Multiset H) := by
  have hcb : outputLeaves hs core w mtp cb [] =
      (createdCoins core cb w.height 1 mtp).map (Coin.leaf hs) := by
    rw [outputLeaves, List.flatMap_nil, List.append_nil]
  have hall : outputLeaves hs core w mtp cb views =
      outputLeaves hs core w mtp cb [] ++
        (views.map (TxView.leafTx hs core w mtp)).flatMap Tx.outs := by
    rw [flatMap_outs, hcb]
    rfl
  have hunspent : unspent (outputLeaves hs core w mtp cb []) [] =
      outputLeaves hs core w mtp cb [] := by
    simp [unspent]
  have hfirst : connectTx (↑L : Multiset H) (coinbaseLeafTx hs core w mtp cb) =
      some ((external (outputLeaves hs core w mtp cb views)
        ((views.map (TxView.leafTx hs core w mtp)).flatMap Tx.ins) : Multiset H) + D +
          (unspent (outputLeaves hs core w mtp cb []) [] : Multiset H)) := by
    have hins : (itemsFrom core 1 views).map (fun i => i.coin.leaf hs) =
        (views.map (TxView.leafTx hs core w mtp)).flatMap Tx.ins := map_leaf_itemsFrom 1 views
    refine connectTx_eq_some.mpr ⟨_, ?_, by rw [hunspent, hcb]; rfl⟩
    rw [hL, blockDeletes, List.map_append, map_fst_externalDeletes, hins, ← Multiset.coe_add,
      add_assoc, add_left_comm]
    rfl
  have hrest := connect_of_batch (↑D : Multiset H) (hall ▸ hcreated)
    (by rwa [List.nil_append]) (List.nil_subset _) hearlier
  rw [leafTxs, connect_cons, hfirst, Option.bind_some, hrest, ← hall, List.nil_append,
    ← Multiset.coe_add]
  rfl

variable {chunks : Chunks H}

/-- The in-block spends of an accepted block: each once, and what is left is kept. -/
theorem Validated.internal_spends (hval : Validated hs core w mtp chunks r cb views s stump) :
    (internal (outputLeaves hs core w mtp cb views)
      ((views.map (TxView.leafTx hs core w mtp)).flatMap Tx.ins)).Nodup ∧
      survivors (outputLeaves hs core w mtp cb views) s.spentInBlock =
        keptLeaves hs core w mtp cb views := by
  obtain ⟨-, hspent, hnodup, -⟩ := hval.spends.split (fun l => lookup_createdAt_eq_none)
  have hins : (itemsFrom core 1 views).map (fun i => i.coin.leaf hs) =
      (views.map (TxView.leafTx hs core w mtp)).flatMap Tx.ins := map_leaf_itemsFrom 1 views
  rw [hins, List.append_nil] at hspent
  dsimp only at hspent
  have honce := hnodup List.nodup_nil
  rw [hspent, List.nodup_reverse] at honce
  refine ⟨honce, List.filter_congr fun l _ => ?_⟩
  simp only [hspent, List.mem_reverse]

/-- The deletes of an accepted block, all accepted. -/
theorem Validated.deletes (hval : Validated hs core w mtp chunks r cb views s stump) :
    deleteAll hs w.rootPrev (blockDeletes hs core w mtp cb views) = some stump := by
  obtain ⟨hwalk, -⟩ := hval.spends.split (fun l => lookup_createdAt_eq_none)
  obtain ⟨-, hoverwrite, -⟩ := bip30Overwrite_ok hval.coinbase hval.overwrite
  rw [blockDeletes, deleteAll_append, hwalk]
  exact hoverwrite

/-- **Batch bookkeeping is sequential spending.** If a block is accepted on the accumulator of a
list of leaves, then its transactions, coinbase first, can be applied one by one to these leaves,
and the set they end with is what `root_next` commits. -/
theorem batch_eq_sequential (hleaf : hs.LeafInjective) (hnode : hs.NodeInjective) {L : List H}
    (hprev : w.rootPrev.Commits hs.parent L)
    (h : validateBlock hs core w mtp Chunks.none = some r) (hok : r.allOk = true)
    (hroot : r.rootMatches = true) (hbip30 : r.bip30Ok = true) :
    ∃ cb views stump, Bookkept hs core w mtp L cb views stump := by
  obtain ⟨cb, views, s, stump, hval⟩ :=
    validateBlock_ok (fun pre _ => scriptsSound_none pre) h hok
  have hbip := hval.bip30
  rw [hbip30] at hbip
  -- distinct txids make the leaves that are created distinct
  obtain ⟨hdistinct, -⟩ := bip30Check_ok hbip
  rw [hval.txids] at hdistinct
  have hcreated : (outputLeaves hs core w mtp cb views).Nodup := nodup_outputLeaves hleaf hdistinct
  have hlt : views.length < 2 ^ 32 := by
    refine lt_of_le_of_lt hval.viewed.length_le_inputs ?_
    rw [← hval.inputs]
    exact w.inputs_lt
  -- an output of the block is spent by a later transaction, and once
  obtain ⟨-, -, -, hcreators⟩ := hval.spends.split (fun l => lookup_createdAt_eq_none)
  have hearlier := earlier_of_creators [] views hlt hcreators
  obtain ⟨honce, hkept⟩ := hval.internal_spends
  obtain ⟨hblock, -, hsuperseded⟩ := bip30Overwrite_ok hval.coinbase hval.overwrite
  have hdeletes := hval.deletes
  -- what the batch deletes was in the set that the stump commits to
  obtain ⟨hdeleted, hsplit⟩ := deleteAll_sound hnode hprev hdeletes
  have hsequential := connect_leafTxs hcreated honce hearlier hsplit
  rw [hval.rootMatches, hval.rootNextRoots, hval.rootNextLeaves, hkept] at hroot
  obtain ⟨hroots, hnum⟩ := Bool.and_eq_true_iff.mp hroot
  have hroots := of_decide_eq_true hroots
  have hnum := of_decide_eq_true hnum
  refine ⟨cb, views, stump, ?_⟩
  exact
    { coinbase := hval.coinbase
      txs := hval.viewed.raws
      spends := by
        intro v hv
        obtain ⟨ti, hfit⟩ := hval.viewed.fits v hv
        exact ⟨hfit.tx, v.outpoints_coins hfit (hval.passed v hv)⟩
      overwrite := ⟨hblock, hsuperseded⟩
      sequential := hsequential
      once := by
        intro l
        -- the ledger adds up: what is spent is part of what was there or is created
        have hall := congrArg (Multiset.count l) (connect_conserves hsequential)
        rw [flatMap_outs_leafTxs, Multiset.count_add, Multiset.count_add, Multiset.coe_count,
          Multiset.coe_count, Multiset.coe_count] at hall
        exact hall ▸ Nat.le_add_right _ _
      createdOnce := hcreated
      deletes := hdeletes
      deleted := hdeleted
      roots := hroots.symm
      numLeaves := hnum.symm
      final := fun hlen => (addAll_commits hdeleted hlen).congr hnum.symm hroots.symm }

end

/-! ## The spending block, and why the nodes must not collide -/

section

open OpTrue

/-- The accumulator before the spending block is of one leaf. -/
theorem commits_spendRootPrev : spendRootPrev.Commits idealHashing.parent [firstLeaf] :=
  Accumulator.Stump.Commits.empty.add firstLeaf (by decide)

/-- The spending block has a spend from before the block and one of a coin that the block makes. -/
theorem batch_eq_sequential_spendBlock : ∃ w r cb views stump,
    validateBlock idealHashing OpTrue.core w spendMtp Chunks.none = some r ∧
      w.txids = [laterTxid, spendTxid, chainedTxid] ∧
      Bookkept idealHashing OpTrue.core w spendMtp [firstLeaf] cb views stump := by
  obtain ⟨wit, r, hr, hvalid, -⟩ := spendBlock_accepted spendBlock_sampled
  simp only [BlockResult.blockValid, Bool.and_eq_true] at hvalid
  obtain ⟨⟨⟨⟨⟨⟨⟨⟨⟨hok, hroot⟩, -⟩, -⟩, -⟩, -⟩, -⟩, -⟩, -⟩, hbip30⟩ := hvalid
  obtain ⟨cb, views, stump, hkept⟩ := batch_eq_sequential (idealHashing_tagInjective TAG_LEAF)
    (idealHashing_tagInjective TAG_NODE) commits_spendRootPrev hr hok hroot hbip30
  exact ⟨_, r, cb, views, stump, hr, rfl, hkept⟩

/-- A hash under which the nodes of the accumulator collide, and its leaves do not. -/
def collidingHashing : Hashing Bytes :=
  { idealHashing with sha256 := fun m => if m.head? = some TAG_NODE then [TAG_NODE] else m }

theorem collidingHashing_leafInjective : collidingHashing.LeafInjective :=
  fun _ _ h => (List.cons.inj h).2

/-- The spending block over two leaves that are no coins. Both its proofs fold to the one node. -/
def phantomBlock : BlockWitness Bytes :=
  { spendBlock 200 1 with
    rootPrev := (Stump.empty.add collidingHashing.parent [1]).add collidingHashing.parent [2]
    inputs := [⟨0, 0, 0, 1, 1, genesisTime, 1, ⟨firstLeaf, 0, [[]]⟩, ⟨[], 1, [[]]⟩⟩,
      ⟨1, 0, 0, 200, 0, spendMtp, 1, noProof, noProof⟩]
    rootNext := ⟨[some (chainedLeaf 200), some [TAG_NODE]], 3⟩
    inputs_lt := two_inputs }

/-- Every flag of its check holds, but for that of the BIP30 check. -/
theorem phantomBlock_sampled : Sampled collidingHashing OpTrue.core phantomBlock spendMtp
    Chunks.none laterTxid [firstTxid] := by
  constructor <;> decide +kernel

theorem commits_phantomBlock : phantomBlock.rootPrev.Commits collidingHashing.parent [[1], [2]] :=
  (Accumulator.Stump.Commits.empty.add _ (by decide)).add _ (by decide)

theorem coin_leaf_collidingHashing (c : Coin) : ∃ m, c.leaf collidingHashing = TAG_LEAF :: m :=
  ⟨_, rfl⟩

/-- The block spends a coin that is nowhere. -/
theorem connect_phantomBlock {root : Bytes} {wit : SmtWitness Bytes} {cb : Transaction}
    {views : List (TxView Bytes)}
    (hcb : OpTrue.core.unserializeTx phantomBlock.coinbaseTx = some cb)
    (htxs : phantomBlock.txs = views.map TxView.raw)
    (hspends : ∀ v ∈ views, OpTrue.core.unserializeTx v.raw.1 = some v.tx ∧
      (v.coins OpTrue.core).map (fun c => (c.txid, c.vout)) =
        v.tx.vin.map fun txin => (txin.prevoutHash, txin.prevoutN)) :
    Ledger.connect (↑[([1] : Bytes), [2]] : Multiset Bytes) (leafTxs collidingHashing OpTrue.core
      (phantomBlock.withSmt root wit) spendMtp cb views) = none := by
  have hlater : OpTrue.core.unserializeTx phantomBlock.coinbaseTx = some laterCoinbase := by
    decide +kernel
  obtain rfl := Option.some.inj (hcb.symm.trans hlater)
  cases views with
  | nil => cases htxs
  | cons v views =>
    have hraw : v.raw.1 = spend.serialize := (congrArg Subtype.val (List.cons.inj htxs).1).symm
    obtain ⟨hdecode, hcoins⟩ := hspends v List.mem_cons_self
    have hspend : OpTrue.core.unserializeTx spend.serialize = some spend := by decide +kernel
    rw [hraw, hspend] at hdecode
    rw [← Option.some.inj hdecode] at hcoins
    obtain ⟨c, hc, hout⟩ := List.map_eq_singleton_iff.mp hcoins
    -- the coin is of the first coinbase, so it is not one of the two leaves or of the new coinbase
    have hout : c.txid = firstTxid := (Prod.mk.inj hout).1
    refine Option.eq_none_iff_forall_ne_some.mpr fun u hu => ?_
    rw [leafTxs, List.map_cons, Ledger.connect_cons] at hu
    obtain ⟨u₁, hfirst, hu⟩ := Option.bind_eq_some_iff.mp hu
    obtain ⟨u', hprev, rfl⟩ := Ledger.connectTx_eq_some.mp hfirst
    rw [Ledger.connect_cons] at hu
    obtain ⟨u₂, hsecond, -⟩ := Option.bind_eq_some_iff.mp hu
    obtain ⟨u₃, hspent, -⟩ := Ledger.connectTx_eq_some.mp hsecond
    have hmem : c.leaf collidingHashing ∈ u' +
        (↑(coinbaseLeafTx collidingHashing OpTrue.core (phantomBlock.withSmt root wit) spendMtp
          laterCoinbase).outs : Multiset Bytes) := by
      rw [hspent, TxView.leafTx, hc]
      exact Multiset.mem_add.mpr (.inl List.mem_cons_self)
    rcases Multiset.mem_add.mp hmem with hmem | hmem
    · have hin : c.leaf collidingHashing ∈ ([[1], [2]] : List Bytes) := by
        rw [← Multiset.mem_coe, hprev]
        exact Multiset.mem_add.mpr (.inr hmem)
      obtain ⟨m, hm⟩ := coin_leaf_collidingHashing c
      rw [hm] at hin
      revert hin
      simp [TAG_LEAF]
    · obtain ⟨d, hd, hleaf⟩ := List.mem_map.mp (Multiset.mem_coe.mp hmem)
      have heq := Coin.leaf_injective collidingHashing_leafInjective hleaf
      have hid : d.txid = laterTxid := (txid_of_mem_createdCoins hd).trans (by decide +kernel)
      exact absurd (hid.symm.trans ((congrArg Coin.txid heq).trans hout)) (by decide +kernel)

/-- With the leaves one-to-one and the nodes not, the block check accepts a phantom coin. -/
theorem phantom_coin_accepted : collidingHashing.LeafInjective ∧
    ∃ (w : BlockWitness Bytes) (r : BlockResult Bytes),
      w.rootPrev.Commits collidingHashing.parent [[1], [2]] ∧
      validateBlock collidingHashing OpTrue.core w spendMtp Chunks.none = some r ∧
      r.blockValid = true ∧
      ∀ cb views, OpTrue.core.unserializeTx w.coinbaseTx = some cb → w.txs = views.map TxView.raw →
        (∀ v ∈ views, OpTrue.core.unserializeTx v.raw.1 = some v.tx ∧
          (v.coins OpTrue.core).map (fun c => (c.txid, c.vout)) =
            v.tx.vin.map fun txin => (txin.prevoutHash, txin.prevoutN)) →
        Ledger.connect (↑[([1] : Bytes), [2]] : Multiset Bytes)
          (leafTxs collidingHashing OpTrue.core w spendMtp cb views) = none := by
  refine ⟨collidingHashing_leafInjective, ?_⟩
  obtain ⟨wit, r, hr, hvalid, -⟩ :=
    phantomBlock_sampled.advance cached_spendSmt spendSmt_laterTxid spendable_firstTxid
  exact ⟨phantomBlock.withSmt (spendSmt collidingHashing).root wit, r, commits_phantomBlock, hr,
    hvalid, fun cb views hcb htxs hspends => connect_phantomBlock hcb htxs hspends⟩
end
end Guest
end Hazync
