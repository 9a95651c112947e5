import Hazync.Bridge.Follow

/-!
# Chains and the hashes of their blocks

Two hashes are equal where their texts are, whatever the case. Where two chains agree at a height
they agree below it, unless two of their headers have one hash.

The bridge holds the hash of its last block as text and compares it with what the node prints, so
agreement of two chains is asked of texts. `reorgSeen_displayHash` takes it back to the hashes. That
a hash names one header is not assumed: `Collide` is the other case, and the results about chains
say that it does not happen between the chains at hand.
-/

namespace Hazync
namespace Bridge

open ByteStrings

variable {H : Type} {hs : Hashing H}

/-! ## Hashes as text -/

theorem length_flatMap_hexByte (b : Bytes) : (b.flatMap hexByte).length = 2 * b.length := by
  induction b with
  | nil => rfl
  | cons x b ih =>
    rw [List.flatMap_cons, List.length_append, ih, List.length_cons]
    change 2 + _ = _
    omega

theorem length_displayHash (h : Bytes32) : (displayHash h).length = 64 := by
  unfold displayHash hex
  rw [String.length_ofList, length_flatMap_hexByte, List.length_reverse, List.Vector.toList_length]

theorem displayHash_injective : Function.Injective displayHash := by
  intro a b h
  exact List.Vector.toList_injective (List.reverse_injective (hex_injective h))

theorem toLower_hexDigit : ∀ n : Fin 16,
    (hexDigits.getD n.val '0').toLower = hexDigits.getD n.val '0' := by
  decide

theorem toLower_hexByte (b : UInt8) : (hexByte b).map Char.toLower = hexByte b := by
  have hb := b.toNat_lt
  have hhi := toLower_hexDigit ⟨b.toNat / 16, by omega⟩
  have hlo := toLower_hexDigit ⟨b.toNat % 16, by omega⟩
  unfold hexByte
  rw [List.map_cons, List.map_singleton, hhi, hlo]

/-- What the node prints is in lower case. -/
theorem toLower_displayHash (h : Bytes32) :
    (displayHash h).toList.map Char.toLower = (displayHash h).toList := by
  unfold displayHash hex
  rw [String.toList_ofList, List.map_flatMap]
  exact List.flatMap_congr fun b _ => toLower_hexByte b

/-- The comparison of two hashes that a node prints is answered, and it says whether they differ:
    both have 64 digits, and the case of letters never matters between them. -/
theorem reorgSeen_displayHash (a b : Bytes32) :
    reorgSeen (some (displayHash a)) (displayHash b) = some (decide (a ≠ b)) := by
  have heq : eqIgnoreAsciiCase (displayHash a) (displayHash b) = decide (a = b) := by
    unfold eqIgnoreAsciiCase
    rw [toLower_displayHash, toLower_displayHash, decide_eq_decide, String.toList_inj]
    exact displayHash_injective.eq_iff
  unfold reorgSeen
  simp only [length_displayHash, ne_eq, not_true_eq_false, or_self, if_false, heq,
    Option.bind_eq_bind, Option.bind_some, decide_not, decide_eq_true_eq]

/-! ## Chains -/

section

variable {chain blocks : List Block} {block : Block} {h : ℕ}

theorem hashAt_succ : hashAt hs chain (h + 1) = chain[h]?.map (Block.hash hs) := rfl

theorem hashAt_append (hle : h ≤ blocks.length) :
    hashAt hs (blocks ++ [block]) h = hashAt hs blocks h := by
  cases h with
  | zero => rfl
  | succ h =>
    rw [hashAt_succ, hashAt_succ, List.getElem?_append_left (by omega)]

theorem hashAt_concat :
    hashAt hs (blocks ++ [block]) (blocks.length + 1) = some (block.hash hs) := by
  rw [hashAt_succ, List.getElem?_concat_length]
  rfl

theorem hashAt_take {m : ℕ} (hle : h ≤ m) : hashAt hs (blocks.take m) h = hashAt hs blocks h := by
  cases h with
  | zero => rfl
  | succ h =>
    rw [hashAt_succ, hashAt_succ, List.getElem?_take_of_lt (by omega)]

theorem exists_hashAt (hle : h ≤ chain.length) : ∃ hash, hashAt hs chain h = some hash := by
  cases h with
  | zero => exact ⟨_, rfl⟩
  | succ h =>
    rw [hashAt_succ, List.getElem?_eq_getElem (by omega)]
    exact ⟨_, rfl⟩

theorem Linked.nil : Linked hs [] := by
  intro h block hget
  cases hget

/-- The lower part of a chain is a chain. -/
theorem Linked.take (hlinked : Linked hs blocks) (m : ℕ) : Linked hs (blocks.take m) := by
  intro h block hget
  rw [List.getElem?_take] at hget
  split at hget
  · rw [hashAt_take (by omega)]
    exact hlinked h block hget
  · cases hget

/-- A block goes on a chain where it names the last one. -/
theorem linked_concat : Linked hs (blocks ++ [block]) ↔
    Linked hs blocks ∧ hashAt hs blocks blocks.length = some block.prevBlockhash := by
  constructor
  · intro hlinked
    have hlast := hlinked blocks.length block List.getElem?_concat_length
    rw [hashAt_append (le_refl _)] at hlast
    refine ⟨?_, hlast⟩
    have htake := hlinked.take blocks.length
    rwa [List.take_left] at htake
  · rintro ⟨hlinked, hlast⟩ h b hget
    have hlt := (List.getElem?_eq_some_iff.mp hget).1
    rw [List.length_append, List.length_singleton] at hlt
    rw [hashAt_append (by omega)]
    rcases Nat.lt_succ_iff_lt_or_eq.mp hlt with hbefore | rfl
    · rw [List.getElem?_append_left hbefore] at hget
      exact hlinked h b hget
    · rw [List.getElem?_concat_length] at hget
      obtain rfl := Option.some.inj hget
      exact hlast

/-- Two blocks with one hash and two headers. -/
def Collide (hs : Hashing H) (chain blocks : List Block) : Prop :=
  ∃ b ∈ chain, ∃ b' ∈ blocks, b.hash hs = b'.hash hs ∧ b.header ≠ b'.header

theorem prevBlockhash_of_header {b b' : Block} (h : b.header = b'.header) :
    b.prevBlockhash = b'.prevBlockhash := by
  unfold Block.header at h
  simp only [List.append_assoc] at h
  obtain ⟨-, hrest⟩ := le32_append_inj h
  have hlength : b.prevBlockhash.toList.length = b'.prevBlockhash.toList.length := by
    rw [List.Vector.toList_length, List.Vector.toList_length]
  exact List.Vector.toList_injective (List.append_inj_left hrest hlength)

/-- Chains that agree at a height agree below it: equal hashes are those of equal headers, and a
    header names the block below. -/
theorem agree_below {chain blocks : List Block} (hchain : Linked hs chain)
    (hblocks : Linked hs blocks) (hapart : ¬ Collide hs chain blocks) {n : ℕ}
    (hchainLength : n ≤ chain.length) (hblocksLength : n ≤ blocks.length)
    (hagree : hashAt hs chain n = hashAt hs blocks n) :
    ∀ i ≤ n, hashAt hs chain i = hashAt hs blocks i := by
  induction n with
  | zero =>
    intro i hi
    obtain rfl := Nat.le_zero.mp hi
    rfl
  | succ n ih =>
    have hb : chain[n]? = some chain[n] := List.getElem?_eq_getElem hchainLength
    have hb' : blocks[n]? = some blocks[n] := List.getElem?_eq_getElem hblocksLength
    have hheader : chain[n].header = blocks[n].header := by
      by_contra hne
      refine hapart ⟨_, List.mem_of_getElem? hb, _, List.mem_of_getElem? hb', ?_, hne⟩
      rw [hashAt_succ, hashAt_succ, hb, hb'] at hagree
      exact Option.some.inj hagree
    have hbelow : hashAt hs chain n = hashAt hs blocks n := by
      rw [hchain n _ hb, hblocks n _ hb', prevBlockhash_of_header hheader]
    intro i hi
    rcases Nat.le_succ_iff.mp hi with hle | rfl
    · exact ih (by omega) (by omega) hbelow i hle
    · exact hagree

end

end Bridge
end Hazync
