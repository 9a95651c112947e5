import Hazync.Guest.OpTrue

/-!
# The three leaf constructions

A coin's leaf is written out in three places: when it is created (`tx_out_leaves`), when it is
spent (`coin_leaf` of the wrapper) and in the host's library (`coin_leaf` of the accumulator). Here
each is the bytes it hands to SHA-256, call by call, and each is the preimage `Coin.preimage`
behind the leaf tag.

## Bytes, and not hashes

If the three places agreed only up to the hash one could not tell a difference from a collision. So
each is followed down to the buffer that goes into SHA-256: the `Write` calls of the C++ wrapper,
and the `Vec` of the library. The wrapper shifts and masks where the library takes the bytes of a
number; the wrapper's lengths are a `size_t` and the library's a `u32`; the value is signed in the
one and unsigned in the other. `le_eq` and its corollaries say that none of this shows in the bytes.

The preimage has one field of variable length, the script, with its length before it and fields of
fixed length around it. So it can be read back, and no two coins have one preimage.
-/

namespace Hazync
namespace Guest

open ByteStrings

/-! ## The wrapper's serialisers -/

namespace Wrapper

/-- `le`: byte `i` is the low byte of `v >> 8i`. -/
def le (v : UInt64) (n : ℕ) : Bytes :=
  (List.range n).map fun i => (v >>> UInt64.ofNat (8 * i)).toUInt8

/-- The nine `Write` calls of `coin_leaf`. -/
def coinLeafWrites (op : TxIn) (coin : TxOut) (coinHeight coinIsCoinbase coinMtp : UInt32) :
    List Bytes :=
  [[TAG_LEAF],
    op.prevoutHash.toList,
    le op.prevoutN.toUInt64 4,
    le coin.nValue.toUInt64 8,
    le (UInt64.ofNat coin.scriptPubKey.length) 4,
    coin.scriptPubKey,
    le coinHeight.toUInt64 4,
    [if coinIsCoinbase ≠ 0 then 1 else 0],
    le coinMtp.toUInt64 4]

/-- What `coin_leaf` hashes; `none` is its `false`. -/
def coinLeafBytes (tx : Transaction) (spent : List TxOut) (ref : InputRef) : Option Bytes :=
  if spent.length ≤ ref.inputIdx.toNat then none
  else do
    let op ← tx.vin[ref.inputIdx.toNat]?
    let coin ← spent[ref.inputIdx.toNat]?
    some (coinLeafWrites op coin ref.coinHeight ref.coinIsCoinbase ref.coinMtp).flatten

/-- The nine `Write` calls of one round of `tx_out_leaves`. -/
def txOutLeafWrites (txid : Bytes32) (v : UInt32) (o : TxOut)
    (height isCoinbase blockTime : UInt32) : List Bytes :=
  [[TAG_LEAF],
    txid.toList,
    le v.toUInt64 4,
    le o.nValue.toUInt64 8,
    le (UInt64.ofNat o.scriptPubKey.length) 4,
    o.scriptPubKey,
    le height.toUInt64 4,
    [if isCoinbase ≠ 0 then 1 else 0],
    le blockTime.toUInt64 4]

/-- The loop of `tx_out_leaves` from output `v` on: what it hashes for each leaf it emits. -/
def txOutLeavesLoop (core : Core) (txid : Bytes32) (height isCoinbase blockTime : UInt32) :
    UInt32 → List TxOut → List Bytes
  | _, [] => []
  | v, o :: os =>
    if core.isUnspendable o.scriptPubKey then
      txOutLeavesLoop core txid height isCoinbase blockTime (v + 1) os
    else
      (txOutLeafWrites txid v o height isCoinbase blockTime).flatten ::
        txOutLeavesLoop core txid height isCoinbase blockTime (v + 1) os

/-- What `tx_out_leaves` hashes, leaf by leaf. -/
def txOutLeavesBytes (core : Core) (tx : Transaction) (height isCoinbase blockTime : UInt32) :
    List Bytes :=
  txOutLeavesLoop core (core.getHash tx) height isCoinbase blockTime 0 tx.vout

end Wrapper

/-! ## The library's serialiser -/

namespace Library

/-- The buffer of the library's `coin_leaf`. -/
def coinLeafData (txid : Bytes32) (vout : UInt32) (valueSat : UInt64) (spk : Bytes)
    (height : UInt32) (isCoinbase : Bool) (coinMtp : UInt32) : Bytes :=
  let b : Bytes := []
  let b := b ++ txid.toList
  let b := b ++ le32 vout
  let b := b ++ le64 valueSat
  let b := b ++ le32 (UInt32.ofNat spk.length)
  let b := b ++ spk
  let b := b ++ le32 height
  let b := b ++ [isCoinbase.toUInt8]
  b ++ le32 coinMtp

/-- What `hash_leaf` hashes: the tag, then the data. -/
def hashLeafBytes (data : Bytes) : Bytes := [TAG_LEAF] ++ data

/-- What the library's `coin_leaf` hashes. -/
def coinLeafBytes (txid : Bytes32) (vout : UInt32) (valueSat : UInt64) (spk : Bytes)
    (height : UInt32) (isCoinbase : Bool) (coinMtp : UInt32) : Bytes :=
  hashLeafBytes (coinLeafData txid vout valueSat spk height isCoinbase coinMtp)

/-- What `parent` hashes. -/
def parentBytes {H : Type} (hs : Hashing H) (left right : H) : Bytes :=
  [TAG_NODE] ++ hs.bytes left ++ hs.bytes right

end Library

/-! ## Each is the preimage behind the tag -/

namespace Wrapper

/-- The shifts of `le` are the divisions of a little-endian field. -/
theorem le_eq (v : UInt64) {n : ℕ} (hn : n ≤ 8) : le v n = ByteStrings.le n v.toNat := by
  have hrange : ∀ (n k w : ℕ), ByteStrings.le n (w / 256 ^ k) =
      (List.range' k n).map fun i => UInt8.ofNat (w / 256 ^ i) := by
    intro n
    induction n with
    | zero => exact fun _ _ => rfl
    | succ n ih =>
      intro k w
      rw [ByteStrings.le, Nat.div_div_eq_div_mul, ← pow_succ, ih, List.range'_succ, List.map_cons]
  have h0 := hrange n 0 v.toNat
  rw [pow_zero, Nat.div_one] at h0
  rw [h0, le, List.range_eq_range']
  refine List.map_congr_left fun i hi => ?_
  have hi : i < n := by simpa using hi
  apply UInt8.toNat_inj.mp
  rw [UInt64.toNat_toUInt8, UInt64.toNat_shiftRight, UInt8.toNat_ofNat', UInt64.toNat_ofNat',
    Nat.mod_eq_of_lt (show 8 * i < 2 ^ 64 by omega), Nat.mod_eq_of_lt (show 8 * i < 64 by omega),
    Nat.shiftRight_eq_div_pow, pow_mul, show 2 ^ 8 = 256 from rfl]

/-- Four bytes of a word. -/
theorem le_uint32 (v : UInt32) : le v.toUInt64 4 = le32 v := by
  rw [le_eq _ (by decide), UInt32.toNat_toUInt64, le32]

/-- Eight bytes of a double word. -/
theorem le_uint64 (v : UInt64) : le v 8 = le64 v := le_eq v (by decide)

/-- A length goes out as its low four bytes, by either cast. -/
theorem le_length (n : ℕ) : le (UInt64.ofNat n) 4 = le32 (UInt32.ofNat n) := by
  rw [le_eq _ (by decide), le32, UInt64.toNat_ofNat', UInt32.toNat_ofNat']
  apply le_congr
  omega

/-- What `coin_leaf` writes is the tag and the preimage. -/
theorem coinLeafWrites_flatten (op : TxIn) (coin : TxOut) (ref : InputRef) :
    (coinLeafWrites op coin ref.coinHeight ref.coinIsCoinbase ref.coinMtp).flatten =
      TAG_LEAF :: (ref.coin op coin).preimage := by
  simp [coinLeafWrites, InputRef.coin, Coin.preimage, le_uint32, le_uint64, le_length]

/-- What `tx_out_leaves` writes is the tag and the preimage. -/
theorem txOutLeafWrites_flatten (txid : Bytes32) (v : UInt32) (o : TxOut)
    (height isCoinbase mtp : UInt32) :
    (txOutLeafWrites txid v o height isCoinbase mtp).flatten =
      TAG_LEAF :: Coin.preimage
        { txid := txid, vout := v, value := o.nValue, scriptPubKey := o.scriptPubKey,
          height := height, isCoinbase := isCoinbase ≠ 0, mtp := mtp } := by
  simp [txOutLeafWrites, Coin.preimage, le_uint32, le_uint64, le_length]

variable {core : Core} {tx : Transaction}

/-- The leaf of the wrapper is the hash of what it writes. -/
theorem coinLeaf_eq {H : Type} (hs : Hashing H) (spent : List TxOut) (ref : InputRef) :
    coinLeaf hs tx spent ref = (coinLeafBytes tx spent ref).map hs.sha256 := by
  unfold coinLeaf coinLeafBytes
  split
  · next h => rw [List.getElem?_eq_none h]; rfl
  · cases hcoin : spent[ref.inputIdx.toNat]? with
    | none => cases tx.vin[ref.inputIdx.toNat]? <;> rfl
    | some coin =>
      cases hop : tx.vin[ref.inputIdx.toNat]? with
      | none => rfl
      | some op =>
        show some ((ref.coin op coin).leaf hs) = some (hs.sha256 _)
        rw [coinLeafWrites_flatten, Coin.leaf]

theorem ofNat_add_one (k : ℕ) : UInt32.ofNat k + 1 = UInt32.ofNat (k + 1) := by
  rw [UInt32.ofNat_add]
  rfl

/-- The loop emits one preimage for each spendable output, under that output's number. -/
theorem txOutLeavesLoop_eq (txid : Bytes32) (height isCoinbase mtp : UInt32) (os : List TxOut)
    (k : ℕ) :
    txOutLeavesLoop core txid height isCoinbase mtp (UInt32.ofNat k) os =
      (os.zipIdx k).filterMap fun p =>
        if core.isUnspendable p.1.scriptPubKey then none
        else some (txOutLeafWrites txid (UInt32.ofNat p.2) p.1 height isCoinbase mtp).flatten := by
  induction os generalizing k with
  | nil => rfl
  | cons o os ih =>
    rw [List.zipIdx_cons, txOutLeavesLoop, ofNat_add_one, ih, List.filterMap_cons]
    by_cases h : core.isUnspendable o.scriptPubKey
    · simp only [h, if_true]
    · simp only [h, Bool.false_eq_true, if_false]

/-- The leaves of a decoded transaction are the hashes of what the loop writes. -/
theorem txOutLeaves_eq {H : Type} (hs : Hashing H) {txBytes : Bytes}
    (htx : core.unserializeTx txBytes = some tx) (height isCoinbase mtp : UInt32) :
    txOutLeaves hs core txBytes height isCoinbase mtp =
      some ((txOutLeavesBytes core tx height isCoinbase mtp).map hs.sha256, core.getHash tx) := by
  have hcoins : (createdCoins core tx height isCoinbase mtp).map (Coin.leaf hs) =
      (txOutLeavesBytes core tx height isCoinbase mtp).map hs.sha256 := by
    have hloop : txOutLeavesBytes core tx height isCoinbase mtp = _ :=
      txOutLeavesLoop_eq (core.getHash tx) height isCoinbase mtp tx.vout 0
    rw [createdCoins, hloop, List.map_filterMap, List.map_filterMap]
    refine List.filterMap_congr fun p _ => ?_
    by_cases h : core.isUnspendable p.1.scriptPubKey
    · simp only [h, if_true, Option.map_none]
    · simp only [h, Bool.false_eq_true, if_false, Option.map_some, txOutLeafWrites_flatten,
        Coin.leaf]
  rw [txOutLeaves, htx, ← hcoins]
  rfl

/-- The place of output `v` among the leaves: after those of the spendable outputs before it. -/
def leafIndex (core : Core) (tx : Transaction) (v : ℕ) : ℕ :=
  (tx.vout.take v).countP fun o => !core.isUnspendable o.scriptPubKey

/-- Past the outputs before it, the loop's next leaf is that of output `v`. -/
theorem txOutLeavesLoop_getElem? (txid : Bytes32) (height isCoinbase mtp : UInt32) {o : TxOut}
    (hspend : core.isUnspendable o.scriptPubKey = false) :
    ∀ (os : List TxOut) (k v : ℕ), os[v]? = some o →
      (txOutLeavesLoop core txid height isCoinbase mtp (UInt32.ofNat k) os)[
          (os.take v).countP fun o => !core.isUnspendable o.scriptPubKey]? =
        some (txOutLeafWrites txid (UInt32.ofNat (k + v)) o height isCoinbase mtp).flatten := by
  intro os
  induction os with
  | nil => intro k v ho; simp at ho
  | cons p os ih =>
    intro k v ho
    rw [txOutLeavesLoop, ofNat_add_one]
    cases v with
    | zero =>
      obtain rfl : p = o := by simpa using ho
      rw [hspend]
      rfl
    | succ v =>
      have hrest := ih (k + 1) v (by simpa using ho)
      rw [show k + 1 + v = k + (v + 1) by omega] at hrest
      rw [List.take_succ_cons, List.countP_cons]
      split
      · next h => rw [h]; exact hrest
      · next h =>
        rw [if_pos (by simpa using h), List.getElem?_cons_succ]
        exact hrest

theorem txOutLeavesBytes_leafIndex {v : ℕ} {o : TxOut} (ho : tx.vout[v]? = some o)
    (hspend : core.isUnspendable o.scriptPubKey = false) (height isCoinbase mtp : UInt32) :
    (txOutLeavesBytes core tx height isCoinbase mtp)[leafIndex core tx v]? =
      some (txOutLeafWrites (core.getHash tx) (UInt32.ofNat v) o height isCoinbase mtp).flatten := by
  have h := txOutLeavesLoop_getElem? (core.getHash tx) height isCoinbase mtp hspend tx.vout 0 v ho
  rwa [Nat.zero_add] at h

end Wrapper

namespace Library

/-- The amount is a `u64` here and signed in the coin, with the same bits. -/
theorem coinLeafBytes_eq (txid : Bytes32) (vout : UInt32) (valueSat : UInt64) (spk : Bytes)
    (height : UInt32) (isCoinbase : Bool) (coinMtp : UInt32) :
    coinLeafBytes txid vout valueSat spk height isCoinbase coinMtp = TAG_LEAF :: Coin.preimage
      ⟨txid, vout, valueSat.toInt64, spk, height, isCoinbase, coinMtp⟩ := by
  cases isCoinbase <;>
    simp [coinLeafBytes, coinLeafData, hashLeafBytes, Coin.preimage, Bool.toUInt8]

/-- Different coins have different preimages, whatever the lengths of their scripts. -/
theorem coinLeafBytes_inj {txid txid' : Bytes32} {vout vout' : UInt32} {value value' : UInt64}
    {spk spk' : Bytes} {height height' : UInt32} {cb cb' : Bool} {mtp mtp' : UInt32}
    (h : coinLeafBytes txid vout value spk height cb mtp =
      coinLeafBytes txid' vout' value' spk' height' cb' mtp') :
    txid = txid' ∧ vout = vout' ∧ value = value' ∧ spk = spk' ∧ height = height' ∧ cb = cb' ∧
      mtp = mtp' := by
  rw [coinLeafBytes_eq, coinLeafBytes_eq] at h
  have hcoin := Coin.preimage_injective (List.cons.inj h).2
  injection hcoin with htxid hvout hvalue hspk hheight hcb hmtp
  exact ⟨htxid, hvout, congrArg Int64.toUInt64 hvalue, hspk, hheight, hcb, hmtp⟩

/-- The tags keep leaves and interior nodes apart. -/
theorem coinLeafBytes_ne_parentBytes {H : Type} (hs : Hashing H) (txid : Bytes32) (vout : UInt32)
    (value : UInt64) (spk : Bytes) (height : UInt32) (cb : Bool) (mtp : UInt32) (left right : H) :
    coinLeafBytes txid vout value spk height cb mtp ≠ parentBytes hs left right := by
  intro h
  rw [coinLeafBytes_eq] at h
  exact absurd (List.cons.inj h).1 (by decide)

end Library

/-! ## Creation, spending and the host agree -/

/-- Input `ref` of `spender` spends output `v` of `tx`: it names the outpoint, and the prevout blob
    holds what the output does. What the caller says of the coin is what was said on creation. -/
structure SpendsOutput (core : Core) (tx : Transaction) (v : ℕ) (o : TxOut)
    (height isCoinbase mtp : UInt32) (spender : Transaction) (spent : List TxOut)
    (ref : InputRef) : Prop where
  /-- The input names the output. -/
  outpoint : ∃ op, spender.vin[ref.inputIdx.toNat]? = some op ∧ op.prevoutHash = core.getHash tx ∧
    op.prevoutN = UInt32.ofNat v
  /-- The value and the script are those of the output. -/
  prevout : ∃ coin, spent[ref.inputIdx.toNat]? = some coin ∧ coin.nValue = o.nValue ∧
    coin.scriptPubKey = o.scriptPubKey
  /-- Height, coinbase flag and median time are what they were when the leaf was made; of the flag
      only whether it is zero. -/
  heightEq : ref.coinHeight = height
  flagEq : ref.coinIsCoinbase ≠ 0 ↔ isCoinbase ≠ 0
  mtpEq : ref.coinMtp = mtp

variable {core : Core} {tx spender : Transaction} {v : ℕ} {o : TxOut}
  {height isCoinbase mtp : UInt32} {spent : List TxOut} {ref : InputRef}

/-- The coin of output `v`. -/
def outputCoin (core : Core) (tx : Transaction) (v : ℕ) (o : TxOut)
    (height isCoinbase mtp : UInt32) : Coin where
  txid := core.getHash tx
  vout := UInt32.ofNat v
  value := o.nValue
  scriptPubKey := o.scriptPubKey
  height := height
  isCoinbase := isCoinbase ≠ 0
  mtp := mtp

/-- What is hashed for the input is the tag and the preimage of the output's coin. -/
theorem SpendsOutput.coinLeafBytes
    (h : SpendsOutput core tx v o height isCoinbase mtp spender spent ref) :
    Wrapper.coinLeafBytes spender spent ref =
      some (TAG_LEAF :: (outputCoin core tx v o height isCoinbase mtp).preimage) := by
  obtain ⟨op, hop, hhash, hn⟩ := h.outpoint
  obtain ⟨coin, hcoin, hvalue, hspk⟩ := h.prevout
  have hlt := (List.getElem?_eq_some_iff.mp hcoin).1
  rw [Wrapper.coinLeafBytes, if_neg (by omega), hop, hcoin]
  show some (Wrapper.coinLeafWrites op coin _ _ _).flatten = _
  rw [Wrapper.coinLeafWrites_flatten]
  have hflag : decide (ref.coinIsCoinbase ≠ 0) = decide (isCoinbase ≠ 0) :=
    decide_eq_decide.mpr h.flagEq
  rw [InputRef.coin, outputCoin, hhash, hn, hvalue, hspk, h.heightEq, hflag, h.mtpEq]

/-- **The three leaf constructions agree and are injective.** For a spendable output and any input
that spends it, one byte string is what `tx_out_leaves` hashes for the output's leaf, what
`coin_leaf` hashes for the input's, and what the host's `coin_leaf` hashes. No two different coins
give one string, and none gives an interior node's. -/
theorem leaf_constructions_agree {H : Type} (hs : Hashing H) {txBytes : Bytes}
    (htx : core.unserializeTx txBytes = some tx) (ho : tx.vout[v]? = some o)
    (hspend : core.isUnspendable o.scriptPubKey = false)
    (h : SpendsOutput core tx v o height isCoinbase mtp spender spent ref) :
    (∃ (m : Bytes) (leaves : List H),
      (Wrapper.txOutLeavesBytes core tx height isCoinbase mtp)[Wrapper.leafIndex core tx v]? =
        some m ∧
      txOutLeaves hs core txBytes height isCoinbase mtp = some (leaves, core.getHash tx) ∧
      leaves[Wrapper.leafIndex core tx v]? = some (hs.sha256 m) ∧
      Wrapper.coinLeafBytes spender spent ref = some m ∧
      coinLeaf hs spender spent ref = some (hs.sha256 m) ∧
      Library.coinLeafBytes (core.getHash tx) (UInt32.ofNat v) o.nValue.toUInt64 o.scriptPubKey
        height (isCoinbase ≠ 0) mtp = m) ∧
    (∀ (txid txid' : Bytes32) (vout vout' : UInt32) (value value' : UInt64) (spk spk' : Bytes)
      (height height' : UInt32) (cb cb' : Bool) (mtp mtp' : UInt32),
      Library.coinLeafBytes txid vout value spk height cb mtp =
        Library.coinLeafBytes txid' vout' value' spk' height' cb' mtp' →
      txid = txid' ∧ vout = vout' ∧ value = value' ∧ spk = spk' ∧ height = height' ∧ cb = cb' ∧
        mtp = mtp') ∧
    (∀ (txid : Bytes32) (vout : UInt32) (value : UInt64) (spk : Bytes) (height : UInt32)
      (cb : Bool) (mtp : UInt32) (left right : H),
      Library.coinLeafBytes txid vout value spk height cb mtp ≠
        Library.parentBytes hs left right) := by
  have hcreated := Wrapper.txOutLeavesBytes_leafIndex ho hspend height isCoinbase mtp
  rw [Wrapper.txOutLeafWrites_flatten] at hcreated
  refine ⟨⟨_, _, hcreated, Wrapper.txOutLeaves_eq hs htx height isCoinbase mtp, ?_,
    h.coinLeafBytes, ?_, Library.coinLeafBytes_eq _ _ _ _ _ _ _⟩,
    fun _ _ _ _ _ _ _ _ _ _ _ _ _ _ => Library.coinLeafBytes_inj,
    Library.coinLeafBytes_ne_parentBytes hs⟩
  · rw [List.getElem?_map, hcreated]
    rfl
  · rw [Wrapper.coinLeaf_eq, h.coinLeafBytes]
    rfl

/-- The first coinbase's output, spent by a payment of it. -/
theorem leaf_constructions_agree_first : ∃ m,
    Wrapper.coinLeafBytes (OpTrue.payment (OpTrue.core.getHash OpTrue.firstCoinbase) 4900000000)
      OpTrue.firstCoinbase.vout ⟨0, 0, 1, 0⟩ = some m ∧
    Library.coinLeafBytes (OpTrue.core.getHash OpTrue.firstCoinbase) 0 5000000000 [0x51] 0 true 0 =
      m := by
  have hspends : SpendsOutput OpTrue.core OpTrue.firstCoinbase 0 ⟨5000000000, [0x51]⟩ 0 1 0
      (OpTrue.payment (OpTrue.core.getHash OpTrue.firstCoinbase) 4900000000)
      OpTrue.firstCoinbase.vout ⟨0, 0, 1, 0⟩ :=
    ⟨⟨_, rfl, rfl, rfl⟩, ⟨_, rfl, rfl, rfl⟩, rfl, Iff.rfl, rfl⟩
  have htx : OpTrue.core.unserializeTx OpTrue.firstCoinbase.serialize =
      some OpTrue.firstCoinbase := by
    simp [OpTrue.core, OpTrue.txs]
  obtain ⟨⟨m, _, -, -, -, hspent, -, hhost⟩, -⟩ :=
    leaf_constructions_agree idealHashing htx rfl (by decide) hspends
  exact ⟨m, hspent, hhost⟩

end Guest
end Hazync
