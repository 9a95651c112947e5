import Hazync.VerifierFfi.UtxoDump

/-!
# Reading the records of a dump

What follows the header is read as records from the front, and there is one way to do so: a record
tells itself from what comes after it. A round of the loop either takes one record and fills a slot
that was free, or ends in an error. So the loop succeeds on the runs of complete records at
distinct positions, and on nothing else.

## From the front

There is no table of records in a dump. The next record begins where the one before it ended, and
how long it is follows from its own head, which has the length of the script. So a string of bytes
has at most one reading, and the loop finds it or stops. `readCoins_spec` says this for `k` rounds
at once: either the bytes begin with `k` records, at positions that were free and are taken one
after the other, and the loop ends behind them; or there are no such records, and it ends in an
error. The proof is an induction on the rounds that are left, and the record of a round is split off
in front.

A round reads its fields at offsets from where the record starts. Each field is found where the ones
before it end (`rd32_field` and the like), so that a head that was written is read back whatever
comes before and after it.
-/

namespace Hazync
namespace VerifierFfi

open ByteStrings Guest

variable {H : Type} {hs : Hashing H} {buf pre post rest : Bytes} {n o : ℕ}
  {slots slots' : List (Option H)}

/-! ## One record -/

/-- A 32-bit field is read where it stands. -/
theorem rd32_field (pre post : Bytes) {x : UInt32} (hbuf : buf = pre ++ (le32 x ++ post))
    (ho : o = pre.length) : rd32 buf o = some x := by
  rw [rd32, slice?_field pre post hbuf ho (by rw [ho, length_le32]), Option.map_some, ofNat_ofLe_le32]

/-- So is a 64-bit field. -/
theorem rd64_field (pre post : Bytes) {x : UInt64} (hbuf : buf = pre ++ (le64 x ++ post))
    (ho : o = pre.length) : rd64 buf o = some x := by
  rw [rd64, slice?_field pre post hbuf ho (by rw [ho, length_le64]), Option.map_some, ofNat_ofLe_le64]

/-- So is a hash. -/
theorem rd256_field (pre post : Bytes) {x : Bytes32} (hbuf : buf = pre ++ (x.toList ++ post))
    (ho : o = pre.length) : rd256 buf o = some x := by
  rw [rd256, slice?_field pre post hbuf ho (by rw [ho, List.Vector.toList_length])]
  exact dif_pos x.2

/-- A head has 61 bytes. -/
theorem CoinHead.length_bytes (c : CoinHead) : c.bytes.length = 61 := by
  simp [CoinHead.bytes]

/-- Any 61 bytes are the head of a record. -/
theorem exists_head (h : 61 ≤ rest.length) :
    ∃ (c : CoinHead) (post : Bytes), rest = c.bytes ++ post := by
  obtain ⟨txid, rest₁, rfl, htxid⟩ := exists_split (n := 32) (le_trans (by decide) h)
  rw [List.length_append, htxid] at h
  obtain ⟨vout, rest₂, rfl, hvout⟩ := exists_split (b := rest₁) (n := 4) (by omega)
  rw [List.length_append, hvout] at h
  obtain ⟨value, rest₃, rfl, hvalue⟩ := exists_split (b := rest₂) (n := 8) (by omega)
  rw [List.length_append, hvalue] at h
  obtain ⟨height, rest₄, rfl, hheight⟩ := exists_split (b := rest₃) (n := 4) (by omega)
  rw [List.length_append, hheight] at h
  obtain ⟨coinbase, rest₅, rfl⟩ := List.exists_cons_of_length_pos (l := rest₄) (by omega)
  rw [List.length_cons] at h
  obtain ⟨mtp, rest₆, rfl, hmtp⟩ := exists_split (b := rest₅) (n := 4) (by omega)
  rw [List.length_append, hmtp] at h
  obtain ⟨pos, rest₇, rfl, hpos⟩ := exists_split (b := rest₆) (n := 4) (by omega)
  rw [List.length_append, hpos] at h
  obtain ⟨spkLen, post, rfl, hspk⟩ := exists_split (b := rest₇) (n := 4) (by omega)
  refine ⟨⟨⟨txid, htxid⟩, UInt32.ofNat (ofLe vout), UInt64.ofNat (ofLe value),
    UInt32.ofNat (ofLe height), coinbase, UInt32.ofNat (ofLe mtp), UInt32.ofNat (ofLe pos),
    UInt32.ofNat (ofLe spkLen)⟩, post, ?_⟩
  rw [CoinHead.bytes, le32_ofLe hvout, le64_ofLe hvalue, le32_ofLe hheight, le32_ofLe hmtp,
    le32_ofLe hpos, le32_ofLe hspk]
  simp [List.Vector.toList]

/-- What a round does with a head that it has found. -/
theorem readCoin_head {c : CoinHead} (hbuf : buf = pre ++ (c.bytes ++ rest)) :
    readCoin hs buf n pre.length slots =
      if rest.length < c.spkLen.toNat then some (.error HAZYNC_ERR_DUMP_TRUNC)
      else (fillSlot n slots c.pos.toNat ((c.coin (rest.take c.spkLen.toNat)).leaf hs)).map
        fun filled => filled.map fun slots => (pre.length + 61 + c.spkLen.toNat, slots) := by
  have hlen : buf.length = pre.length + 61 + rest.length := by
    rw [hbuf, List.length_append, List.length_append, c.length_bytes, Nat.add_assoc]
  -- each field stands after those before it
  have htxid : rd256 buf pre.length = some c.txid :=
    rd256_field pre (le32 c.vout ++ (le64 c.value ++ (le32 c.height ++ (c.coinbase ::
      (le32 c.mtp ++ (le32 c.pos ++ le32 c.spkLen))))) ++ rest)
      (by simp [hbuf, CoinHead.bytes]) rfl
  have hvout : rd32 buf (pre.length + 32) = some c.vout :=
    rd32_field (pre ++ c.txid.toList) (le64 c.value ++ (le32 c.height ++ (c.coinbase ::
      (le32 c.mtp ++ (le32 c.pos ++ le32 c.spkLen)))) ++ rest)
      (by simp [hbuf, CoinHead.bytes]) (by simp)
  have hvalue : rd64 buf (pre.length + 36) = some c.value :=
    rd64_field (pre ++ (c.txid.toList ++ le32 c.vout)) (le32 c.height ++ (c.coinbase ::
      (le32 c.mtp ++ (le32 c.pos ++ le32 c.spkLen))) ++ rest)
      (by simp [hbuf, CoinHead.bytes]) (by simp)
  have hheight : rd32 buf (pre.length + 44) = some c.height :=
    rd32_field (pre ++ (c.txid.toList ++ (le32 c.vout ++ le64 c.value))) ((c.coinbase ::
      (le32 c.mtp ++ (le32 c.pos ++ le32 c.spkLen))) ++ rest)
      (by simp [hbuf, CoinHead.bytes]) (by simp)
  have hcoinbase : buf[pre.length + 48]? = some c.coinbase := by
    have hsplit : buf = pre ++ (c.txid.toList ++ (le32 c.vout ++ (le64 c.value ++
        le32 c.height))) ++ c.coinbase :: (le32 c.mtp ++ (le32 c.pos ++ le32 c.spkLen) ++ rest) := by
      simp [hbuf, CoinHead.bytes]
    rw [hsplit, List.getElem?_append_right (by simp)]
    simp
  have hmtp : rd32 buf (pre.length + 49) = some c.mtp :=
    rd32_field (pre ++ (c.txid.toList ++ (le32 c.vout ++ (le64 c.value ++ (le32 c.height ++
      [c.coinbase]))))) (le32 c.pos ++ le32 c.spkLen ++ rest)
      (by simp [hbuf, CoinHead.bytes]) (by simp)
  have hpos : rd32 buf (pre.length + 53) = some c.pos :=
    rd32_field (pre ++ (c.txid.toList ++ (le32 c.vout ++ (le64 c.value ++ (le32 c.height ++
      (c.coinbase :: le32 c.mtp)))))) (le32 c.spkLen ++ rest)
      (by simp [hbuf, CoinHead.bytes]) (by simp)
  have hspkLen : rd32 buf (pre.length + 57) = some c.spkLen :=
    rd32_field (pre ++ (c.txid.toList ++ (le32 c.vout ++ (le64 c.value ++ (le32 c.height ++
      (c.coinbase :: (le32 c.mtp ++ le32 c.pos))))))) rest
      (by simp [hbuf, CoinHead.bytes]) (by simp)
  rw [readCoin, if_neg (by omega), htxid, hvout, hvalue, hheight, hcoinbase, hmtp, hpos, hspkLen]
  simp only [Option.bind_eq_bind, Option.bind_some]
  by_cases hshort : rest.length < c.spkLen.toNat
  · rw [if_pos hshort, if_pos (by omega)]
  -- the script is all there: its slice is what comes next
  · have hsplit : buf = (pre ++ c.bytes) ++ (rest.take c.spkLen.toNat ++
        rest.drop c.spkLen.toNat) := by
      rw [List.take_append_drop, hbuf, List.append_assoc]
    have hspk : slice? buf (pre.length + 61) (pre.length + 61 + c.spkLen.toNat) =
        some (rest.take c.spkLen.toNat) := by
      refine slice?_field _ _ hsplit ?_ ?_
      · rw [List.length_append, c.length_bytes]
      · rw [List.length_append, c.length_bytes, List.length_take_of_le (Nat.not_lt.mp hshort)]
    rw [if_neg hshort, if_neg (by omega), hspk, Option.bind_some]
    cases fillSlot n slots c.pos.toNat ((c.coin (rest.take c.spkLen.toNat)).leaf hs) <;> rfl

/-- A head tells itself from what follows it. -/
theorem CoinHead.bytes_append_inj {c c' : CoinHead}
    (h : c.bytes ++ pre = c'.bytes ++ post) : c = c' ∧ pre = post := by
  obtain ⟨hbytes, hpost⟩ := List.append_inj h (by rw [c.length_bytes, c'.length_bytes])
  refine ⟨?_, hpost⟩
  obtain ⟨txid, vout, value, height, coinbase, mtp, pos, spkLen⟩ := c
  obtain ⟨txid', vout', value', height', coinbase', mtp', pos', spkLen'⟩ := c'
  obtain ⟨rfl, h⟩ := bytes32_append_inj hbytes
  obtain ⟨rfl, h⟩ := le32_append_inj h
  obtain ⟨rfl, h⟩ := le64_append_inj h
  obtain ⟨rfl, h⟩ := le32_append_inj h
  obtain ⟨rfl, h⟩ := List.cons.inj h
  obtain ⟨rfl, h⟩ := le32_append_inj h
  obtain ⟨rfl, h⟩ := le32_append_inj h
  obtain rfl := le32_injective h
  rfl

/-- A record tells itself from what follows it. -/
theorem DumpCoin.bytes_append_inj {c c' : DumpCoin}
    (h : c.bytes ++ pre = c'.bytes ++ post) : c = c' ∧ pre = post := by
  obtain ⟨head, spk, hspk⟩ := c
  obtain ⟨head', spk', hspk'⟩ := c'
  rw [DumpCoin.bytes, DumpCoin.bytes, List.append_assoc, List.append_assoc] at h
  obtain ⟨rfl, h⟩ := CoinHead.bytes_append_inj h
  obtain ⟨rfl, hpost⟩ := List.append_inj h (hspk.trans hspk'.symm)
  exact ⟨rfl, hpost⟩

/-- A record has a head and a script. -/
theorem DumpCoin.length_bytes (c : DumpCoin) : c.bytes.length = 61 + c.spkLen.toNat := by
  rw [DumpCoin.bytes, List.length_append, c.toCoinHead.length_bytes, c.spk_length]

/-- A complete record is taken, if its slot is free. -/
theorem readCoin_bytes {c : DumpCoin} (hbuf : buf = pre ++ (c.bytes ++ post)) :
    readCoin hs buf n pre.length slots =
      (fillSlot n slots c.pos.toNat (c.coin.leaf hs)).map
        fun filled => filled.map fun slots => ((pre ++ c.bytes).length, slots) := by
  rw [DumpCoin.bytes, List.append_assoc] at hbuf
  rw [readCoin_head hbuf, if_neg, List.length_append, c.length_bytes, ← c.spk_length,
    List.take_left, Nat.add_assoc]
  · rfl
  · rw [List.length_append, c.spk_length]
    exact Nat.not_lt.mpr (Nat.le_add_right _ _)

/-- Where no complete record stands, the round ends. -/
theorem readCoin_short (hbuf : buf = pre ++ rest)
    (hnone : ∀ (c : DumpCoin) (post : Bytes), rest ≠ c.bytes ++ post) :
    readCoin hs buf n pre.length slots = some (.error HAZYNC_ERR_DUMP_TRUNC) := by
  by_cases hlen : 61 ≤ rest.length
  · obtain ⟨c, post, rfl⟩ := exists_head hlen
    rw [readCoin_head hbuf, if_pos]
    by_contra hlong
    have hspk := List.length_take_of_le (Nat.not_lt.mp hlong)
    refine hnone ⟨c, post.take c.spkLen.toNat, hspk⟩ (post.drop c.spkLen.toNat) ?_
    rw [DumpCoin.bytes, List.append_assoc, List.take_append_drop]
  · rw [readCoin, if_pos]
    rw [hbuf, List.length_append]
    omega

/-! ## The slots -/

/-- A free slot is filled. -/
theorem fillSlot_free {p : ℕ} {leaf : H} (hn : slots.length = n) (h : slots[p]? = some none) :
    fillSlot n slots p leaf = some (.ok (slots.set p (some leaf))) := by
  have hp : p < n := hn ▸ (List.getElem?_eq_some_iff.mp h).1
  rw [fillSlot, if_neg (Nat.not_le.mpr hp), h]
  rfl

/-- A taken one is refused, and one that is out of range. -/
theorem fillSlot_taken {p : ℕ} {leaf : H} (hn : slots.length = n) (h : slots[p]? ≠ some none) :
    fillSlot n slots p leaf = some (.error HAZYNC_ERR_DUMP_POS) := by
  rw [fillSlot]
  split
  · rfl
  · rename_i hp
    obtain ⟨slot, hslot⟩ : ∃ slot, slots[p]? = some slot :=
      ⟨_, List.getElem?_eq_getElem (hn ▸ Nat.not_le.mp hp)⟩
    rw [hslot] at h ⊢
    cases slot with
    | none => exact absurd rfl h
    | some leaf' => rfl

/-- The records go each into a slot that is free, in their order. -/
inductive Filled (hs : Hashing H) : List (Option H) → List DumpCoin → List (Option H) → Prop
  | nil (slots : List (Option H)) : Filled hs slots [] slots
  | cons {slots slots' : List (Option H)} {c : DumpCoin} {coins : List DumpCoin} :
      slots[c.pos.toNat]? = some none →
      Filled hs (slots.set c.pos.toNat (some (c.coin.leaf hs))) coins slots' →
      Filled hs slots (c :: coins) slots'

/-- The loop: it takes one record a round, or ends in an error where no run of records fits. -/
theorem readCoins_spec (hs : Hashing H) (k : ℕ) (hbuf : buf = pre ++ rest) (hn : slots.length = n) :
    (∃ coins post slots', rest = coins.flatMap DumpCoin.bytes ++ post ∧ coins.length = k ∧
      Filled hs slots coins slots' ∧ readCoins hs buf n k pre.length slots =
        some (.ok ((pre ++ coins.flatMap DumpCoin.bytes).length, slots'))) ∨
    (∃ e, e ≠ HAZYNC_OK ∧ readCoins hs buf n k pre.length slots = some (.error e)) ∧
      ∀ coins post slots', rest = coins.flatMap DumpCoin.bytes ++ post → coins.length = k →
        ¬ Filled hs slots coins slots' := by
  induction k generalizing pre rest slots with
  | zero =>
    refine .inl ⟨[], rest, slots, rfl, rfl, .nil slots, ?_⟩
    rw [readCoins, List.flatMap_nil, List.append_nil]
  | succ k ih =>
    by_cases hcoin : ∃ (c : DumpCoin) (post : Bytes), rest = c.bytes ++ post
    · obtain ⟨c, post, rfl⟩ := hcoin
      -- the first of any run of records is this one
      have hfirst {coins : List DumpCoin} {post' : Bytes}
          (heq : c.bytes ++ post = coins.flatMap DumpCoin.bytes ++ post')
          (hlen : coins.length = k + 1) : ∃ more, coins = c :: more ∧
            post = more.flatMap DumpCoin.bytes ++ post' ∧ more.length = k := by
        obtain ⟨c', more, rfl⟩ := List.exists_cons_of_length_eq_add_one hlen
        rw [List.flatMap_cons, List.append_assoc] at heq
        obtain ⟨rfl, hpost⟩ := DumpCoin.bytes_append_inj heq
        exact ⟨more, rfl, hpost, Nat.succ.inj hlen⟩
      by_cases hfree : slots[c.pos.toNat]? = some none
      · have hread : readCoins hs buf n (k + 1) pre.length slots =
            readCoins hs buf n k (pre ++ c.bytes).length
              (slots.set c.pos.toNat (some (c.coin.leaf hs))) := by
          rw [readCoins, readCoin_bytes hbuf, fillSlot_free hn hfree]
          rfl
        rw [← List.append_assoc] at hbuf
        rcases ih hbuf ((List.length_set ..).trans hn) with
          ⟨coins, post', slots', rfl, hlen, hfilled, hok⟩ | ⟨⟨e, he, herror⟩, hno⟩
        · refine .inl ⟨c :: coins, post', slots', ?_, ?_, .cons hfree hfilled, ?_⟩
          · rw [List.flatMap_cons, List.append_assoc]
          · rw [List.length_cons, hlen]
          · rw [hread, hok, List.flatMap_cons, List.append_assoc]
        · refine .inr ⟨⟨e, he, hread.trans herror⟩, ?_⟩
          intro coins post' slots' heq hlen hfilled
          obtain ⟨more, rfl, hpost, hmore⟩ := hfirst heq hlen
          cases hfilled with
          | cons _ hfilled => exact hno more post' slots' hpost hmore hfilled
      · refine .inr ⟨⟨HAZYNC_ERR_DUMP_POS, by decide, ?_⟩, ?_⟩
        · rw [readCoins, readCoin_bytes hbuf, fillSlot_taken hn hfree]
          rfl
        · intro coins post' slots' heq hlen hfilled
          obtain ⟨more, rfl, -, -⟩ := hfirst heq hlen
          cases hfilled with
          | cons hslot _ => exact hfree hslot
    · have hnone (c : DumpCoin) (post : Bytes) : rest ≠ c.bytes ++ post :=
        fun heq => hcoin ⟨c, post, heq⟩
      refine .inr ⟨⟨HAZYNC_ERR_DUMP_TRUNC, by decide, ?_⟩, ?_⟩
      · rw [readCoins, readCoin_short hbuf hnone]
        rfl
      · intro coins post slots' heq hlen
        obtain ⟨c, more, rfl⟩ := List.exists_cons_of_length_eq_add_one hlen
        rw [List.flatMap_cons, List.append_assoc] at heq
        exact absurd heq (hnone c _)

end VerifierFfi
end Hazync
