import Hazync.Bridge.Snapshot

/-!
# Reading the records of a snapshot

The loop takes complete records from the front of what follows the header, and the node has to know
a time for each. So what it reads is a run of records with their times, and every such run is read.

A record has a script of any length in the middle, so the bytes of a run cannot be cut at fixed
places; the length in front of the script says where the record ends. `readSnapCoin_bytes` and
`exists_snapCoin` are the two directions for one record, and the loop has the two by induction on
the count.
-/

namespace Hazync
namespace Bridge

open ByteStrings
open Guest (Coin)
open VerifierFfi

variable {headerTime : ℕ → Option UInt32} {b pre post rest : Bytes} {p : ℕ}

/-- The coin of a record, where the node has the times for it. -/
def SnapCoin.timed (headerTime : ℕ → Option UInt32) (c : SnapCoin) : Option Coin :=
  (mtpAt headerTime c.height).map c.coin

theorem SnapCoin.toNat_spkLen (c : SnapCoin) :
    (UInt32.ofNat c.spk.length).toNat = c.spk.length := by
  rw [UInt32.toNat_ofNat', Nat.mod_eq_of_lt c.spk_lt]

theorem SnapCoin.length_bytes (c : SnapCoin) : c.bytes.length = 53 + c.spk.length := by
  unfold SnapCoin.bytes
  simp only [List.length_append, List.Vector.toList_length, length_le32, length_le64,
    List.length_singleton]
  omega

/-- A round on a complete record reads it and stops behind it, if the node has the times for its
    coin. -/
theorem readSnapCoin_bytes {c : SnapCoin} (hbuf : b = pre ++ (c.bytes ++ post))
    (hp : p = pre.length) :
    readSnapCoin headerTime b p =
      (c.timed headerTime).map fun coin => (coin, p + c.bytes.length) := by
  subst hp
  have hlen := c.toNat_spkLen
  -- each field stands after those before it
  have htxid : rd256 b pre.length = some c.txid :=
    rd256_field pre (le32 c.vout ++ (le64 c.value ++ (le32 (UInt32.ofNat c.spk.length) ++
      (c.spk ++ (le32 c.height ++ [c.coinbase])))) ++ post)
      (by simp [hbuf, SnapCoin.bytes]) rfl
  have hvout : rd32 b (pre.length + 32) = some c.vout :=
    rd32_field (pre ++ c.txid.toList) (le64 c.value ++ (le32 (UInt32.ofNat c.spk.length) ++
      (c.spk ++ (le32 c.height ++ [c.coinbase]))) ++ post)
      (by simp [hbuf, SnapCoin.bytes]) (by simp)
  have hvalue : rd64 b (pre.length + 36) = some c.value :=
    rd64_field (pre ++ (c.txid.toList ++ le32 c.vout)) (le32 (UInt32.ofNat c.spk.length) ++
      (c.spk ++ (le32 c.height ++ [c.coinbase])) ++ post)
      (by simp [hbuf, SnapCoin.bytes]) (by simp)
  have hspkLen : rd32 b (pre.length + 44) = some (UInt32.ofNat c.spk.length) :=
    rd32_field (pre ++ (c.txid.toList ++ (le32 c.vout ++ le64 c.value)))
      (c.spk ++ (le32 c.height ++ [c.coinbase]) ++ post)
      (by simp [hbuf, SnapCoin.bytes]) (by simp)
  have hspk : slice? b (pre.length + 48) (pre.length + 48 + c.spk.length) = some c.spk :=
    slice?_field (pre ++ (c.txid.toList ++ (le32 c.vout ++ (le64 c.value ++
      le32 (UInt32.ofNat c.spk.length))))) (le32 c.height ++ [c.coinbase] ++ post)
      (by simp [hbuf, SnapCoin.bytes]) (by simp) (by simp)
  have hheight : rd32 b (pre.length + 48 + c.spk.length) = some c.height :=
    rd32_field (pre ++ (c.txid.toList ++ (le32 c.vout ++ (le64 c.value ++
      (le32 (UInt32.ofNat c.spk.length) ++ c.spk))))) ([c.coinbase] ++ post)
      (by simp [hbuf, SnapCoin.bytes]) (by simp; omega)
  -- the last one is a single byte, read by its index
  have hcoinbase : b[pre.length + 52 + c.spk.length]? = some c.coinbase := by
    generalize hfront : pre ++ (c.txid.toList ++ (le32 c.vout ++ (le64 c.value ++
        (le32 (UInt32.ofNat c.spk.length) ++ (c.spk ++ le32 c.height))))) = front
    have hlength : front.length = pre.length + 52 + c.spk.length := by
      rw [← hfront]
      simp
      omega
    have hsplit : b = front ++ c.coinbase :: post := by
      simp [hbuf, ← hfront, SnapCoin.bytes]
    rw [hsplit, ← hlength, List.getElem?_append_right (le_refl _), Nat.sub_self]
    rfl
  unfold readSnapCoin SnapCoin.timed
  rw [htxid, hvout, hvalue, hspkLen]
  simp only [Option.bind_eq_bind, Option.bind_some, hlen, hspk, hheight, hcoinbase]
  cases mtpAt headerTime c.height with
  | none => rfl
  | some mtp =>
    rw [Option.bind_some, c.length_bytes, ← Nat.add_assoc]
    rfl

theorem le_of_rd32 {o : ℕ} {x : UInt32} (h : rd32 b o = some x) : o + 4 ≤ b.length := by
  obtain ⟨s, hs, -⟩ := Option.map_eq_some_iff.mp h
  unfold slice? at hs
  exact (Option.ite_none_right_eq_some.mp hs).1.2

/-- A round that comes through has read a complete record: every field was in the buffer, and the
    script is as long as it says. -/
theorem exists_snapCoin {r : Coin × ℕ} (h : readSnapCoin headerTime b p = some r)
    (hbuf : b = pre ++ rest) (hp : p = pre.length) :
    ∃ (c : SnapCoin) (post : Bytes), rest = c.bytes ++ post := by
  subst hp
  unfold readSnapCoin at h
  simp only [Option.bind_eq_bind, Option.bind_eq_some_iff] at h
  obtain ⟨txid, -, vout, -, value, -, sl, hsl, spk, -, ch, -, cb, hcb, -⟩ := h
  have hshort := le_of_rd32 hsl
  have hlong := (List.getElem?_eq_some_iff.mp hcb).1
  have hlength : b.length = pre.length + rest.length := by rw [hbuf, List.length_append]
  obtain ⟨b₁, rest₁, rfl, h₁⟩ := exists_split (b := rest) (n := 32) (by omega)
  rw [List.length_append, h₁] at hlength
  obtain ⟨b₂, rest₂, rfl, h₂⟩ := exists_split (b := rest₁) (n := 4) (by omega)
  rw [List.length_append, h₂] at hlength
  obtain ⟨b₃, rest₃, rfl, h₃⟩ := exists_split (b := rest₂) (n := 8) (by omega)
  rw [List.length_append, h₃] at hlength
  obtain ⟨b₄, rest₄, rfl, h₄⟩ := exists_split (b := rest₃) (n := 4) (by omega)
  rw [List.length_append, h₄] at hlength
  -- the length that was read is the one that stands there
  have hlen : sl = UInt32.ofNat (ofLe b₄) := by
    have hread : rd32 b (pre.length + 44) = some (UInt32.ofNat (ofLe b₄)) := by
      refine rd32_field (pre ++ (b₁ ++ (b₂ ++ b₃))) rest₄ ?_ ?_
      · rw [hbuf, le32_ofLe h₄]
        simp only [List.append_assoc]
      · rw [List.length_append, List.length_append, List.length_append, h₁, h₂, h₃]
    exact Option.some.inj (hsl.symm.trans hread)
  obtain ⟨b₅, rest₅, rfl, h₅⟩ := exists_split (b := rest₄) (n := sl.toNat) (by omega)
  rw [List.length_append, h₅] at hlength
  obtain ⟨b₆, rest₆, rfl, h₆⟩ := exists_split (b := rest₅) (n := 4) (by omega)
  rw [List.length_append, h₆] at hlength
  obtain ⟨cb', post, rfl⟩ := List.exists_cons_of_length_pos (l := rest₆) (by omega)
  have hspkLen : UInt32.ofNat b₅.length = UInt32.ofNat (ofLe b₄) := by
    rw [h₅, UInt32.ofNat_toNat, hlen]
  refine ⟨⟨⟨b₁, h₁⟩, UInt32.ofNat (ofLe b₂), UInt64.ofNat (ofLe b₃), b₅,
    UInt32.ofNat (ofLe b₆), cb', h₅ ▸ sl.toNat_lt⟩, post, ?_⟩
  unfold SnapCoin.bytes
  dsimp only
  rw [hspkLen, le32_ofLe h₂, le64_ofLe h₃, le32_ofLe h₄, le32_ofLe h₆]
  simp [List.Vector.toList]

/-- The loop reads a run of records. -/
theorem readSnapCoins_flatMap {cs : List SnapCoin} {coins : List Coin}
    (hcoins : cs.mapM (SnapCoin.timed headerTime) = some coins)
    (hbuf : b = pre ++ (cs.flatMap SnapCoin.bytes ++ post)) (hp : p = pre.length) :
    readSnapCoins headerTime b cs.length p =
      some (coins, p + (cs.flatMap SnapCoin.bytes).length) := by
  induction cs generalizing pre p coins with
  | nil =>
    obtain rfl := Option.some.inj hcoins
    rfl
  | cons c cs ih =>
    rw [List.mapM_cons] at hcoins
    obtain ⟨coin, hcoin, hrest⟩ := Option.bind_eq_some_iff.mp hcoins
    obtain ⟨coins', hcoins', heq⟩ := Option.bind_eq_some_iff.mp hrest
    obtain rfl := Option.some.inj heq
    rw [List.flatMap_cons, List.append_assoc] at hbuf
    have hnext : b = (pre ++ c.bytes) ++ (cs.flatMap SnapCoin.bytes ++ post) := by
      rw [hbuf, List.append_assoc]
    have hoffset : p + c.bytes.length = (pre ++ c.bytes).length := by
      rw [hp, List.length_append]
    have hread := ih hcoins' hnext hoffset
    rw [List.length_cons, readSnapCoins, readSnapCoin_bytes hbuf hp, hcoin]
    simp only [Option.map_some, Option.bind_eq_bind, Option.bind_some, hread]
    rw [List.flatMap_cons, List.length_append, Nat.add_assoc]

/-- What the loop has read is a run of records, with nothing between them. -/
theorem exists_snapCoins {n p' : ℕ} {coins : List Coin}
    (h : readSnapCoins headerTime b n p = some (coins, p')) (hbuf : b = pre ++ rest)
    (hp : p = pre.length) : ∃ (cs : List SnapCoin) (post : Bytes),
      rest = cs.flatMap SnapCoin.bytes ++ post ∧ cs.length = n ∧
      cs.mapM (SnapCoin.timed headerTime) = some coins ∧
      p' = p + (cs.flatMap SnapCoin.bytes).length := by
  induction n generalizing pre rest p coins with
  | zero =>
    obtain ⟨rfl, rfl⟩ := Prod.mk.inj (Option.some.inj h)
    exact ⟨[], rest, rfl, rfl, rfl, rfl⟩
  | succ n ih =>
    unfold readSnapCoins at h
    simp only [Option.bind_eq_bind, Option.bind_eq_some_iff, Option.some.injEq] at h
    obtain ⟨⟨coin, q⟩, hone, ⟨coins', q'⟩, hmore, heq⟩ := h
    obtain ⟨rfl, rfl⟩ := Prod.mk.inj heq
    obtain ⟨c, post, rfl⟩ := exists_snapCoin hone hbuf hp
    rw [readSnapCoin_bytes hbuf hp] at hone
    obtain ⟨coin', hcoin, hq⟩ := Option.map_eq_some_iff.mp hone
    obtain ⟨rfl, rfl⟩ := Prod.mk.inj hq
    have hnext : b = (pre ++ c.bytes) ++ post := by rw [hbuf, List.append_assoc]
    obtain ⟨cs, post', rfl, hlen, hcoins, rfl⟩ := ih hmore hnext (by rw [hp, List.length_append])
    refine ⟨c :: cs, post', ?_, ?_, ?_, ?_⟩
    · rw [List.flatMap_cons, List.append_assoc]
    · rw [List.length_cons, hlen]
    · rw [List.mapM_cons, hcoin, hcoins]
      rfl
    · rw [List.flatMap_cons, List.length_append, Nat.add_assoc]

end Bridge
end Hazync
