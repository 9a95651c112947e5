import Hazync.Lib.ByteStrings
import Hazync.Lib.MerkleForest

/-!
# SHA-256 as the program uses it

Every hash of the program is SHA-256 of some bytes, and the results below that need it one-to-one
say so of the preimages they are about: `LeafInjective`, `NodeInjective` and so on. No function
into 32 bytes is one-to-one, so the values of `sha256` are of an abstract type `H`, with the two
things the code does with such a value: write it into another preimage (`bytes`), and compare it
with 32 bytes that come from elsewhere (`digest`). For the real function both are the 32 bytes.

Hashes that are only compared and copied (txids, wtxids, Merkle roots) are `Bytes32`.

## What is assumed, and when

A result that some forgery is impossible can only hold as long as no collision has been found. The
usual way to say so is with an adversary and a bound on its work. Here it is a hypothesis that the
hash is one-to-one on the preimages in question, which are told apart by their first byte. It is
never assumed of all strings at once if the preimages of one kind are enough, and results that need
none of it, such as that an honest proof verifies, have no such hypothesis.

For an instance one needs a hash for which it is true. `idealHashing` is the identity, with its
values written so that two of them in a row can be told apart.
-/

namespace Hazync

open ByteStrings

/-- SHA-256: the function, and how a value of it is written. All values being of one width, a
    value is told from what follows it. -/
structure Hashing (H : Type) where
  sha256 : Bytes → H
  bytes : H → Bytes
  digest : H → Bytes32
  /-- `[0u8; 32]`, which the guest's buffers start as. -/
  zero : H
  bytes_append_inj : ∀ {a b x y}, bytes a ++ x = bytes b ++ y → a = b ∧ x = y

/-- The first byte of a preimage, by what it is the preimage of. -/
def TAG_LEAF : UInt8 := 0x00
def TAG_NODE : UInt8 := 0x01
def TAG_SMT_LEAF : UInt8 := 0x10
def TAG_SMT_NODE : UInt8 := 0x11

namespace Hashing

variable {H : Type} (hs : Hashing H)

/-- `dsha256`: SHA-256 twice. -/
def dsha256 (data : Bytes) : H := hs.sha256 (hs.bytes (hs.sha256 data))

/-- `parent` of the accumulator. -/
def parent (left right : H) : H := hs.sha256 (TAG_NODE :: (hs.bytes left ++ hs.bytes right))

/-- Preimages that start with `tag` are told apart by their hashes. -/
def TagInjective (tag : UInt8) : Prop := Function.Injective fun m => hs.sha256 (tag :: m)

abbrev LeafInjective : Prop := hs.TagInjective TAG_LEAF
abbrev NodeInjective : Prop := hs.TagInjective TAG_NODE

variable {hs}

/-- Two values in a row are read back. -/
theorem bytes_append_bytes_inj {a b c d : H} (h : hs.bytes a ++ hs.bytes b =
    hs.bytes c ++ hs.bytes d) : a = c ∧ b = d := by
  obtain ⟨hac, hbd⟩ := hs.bytes_append_inj h
  refine ⟨hac, (hs.bytes_append_inj (x := []) (y := []) ?_).1⟩
  rw [hbd]

/-- Where nodes are told apart, so are their children. -/
theorem NodeInjective.parent (h : hs.NodeInjective) : MerkleForest.PairInjective hs.parent :=
  fun _ _ _ _ hp => bytes_append_bytes_inj (h hp)

end Hashing

/-! ## A hash that is one-to-one on all inputs -/

/-- Each byte behind a 1, then two zeros: no value is the start of another. -/
def idealBytes : Bytes → Bytes
  | [] => [0, 0]
  | b :: bs => 1 :: b :: idealBytes bs

/-- A value written this way is told from what follows it. -/
theorem idealBytes_append_inj {a b x y : Bytes} (h : idealBytes a ++ x = idealBytes b ++ y) :
    a = b ∧ x = y := by
  induction a generalizing b with
  | nil =>
    cases b with
    | nil => exact ⟨rfl, by simpa [idealBytes] using h⟩
    | cons c cs => simp [idealBytes] at h
  | cons c cs ih =>
    cases b with
    | nil => simp [idealBytes] at h
    | cons d ds =>
      simp only [idealBytes, List.cons_append, List.cons.injEq, true_and] at h
      obtain ⟨rfl, hxy⟩ := ih h.2
      exact ⟨by rw [h.1], hxy⟩

/-- The hash of a string is the string. -/
def idealHashing : Hashing Bytes where
  sha256 := id
  bytes := idealBytes
  digest _ := List.Vector.replicate 32 0
  zero := []
  bytes_append_inj := idealBytes_append_inj

/-- The ideal hash tells preimages of every tag apart. -/
theorem idealHashing_tagInjective (tag : UInt8) : idealHashing.TagInjective tag :=
  fun _ _ h => (List.cons.inj h).2

theorem idealHashing_dsha256_injective : Function.Injective idealHashing.dsha256 := by
  intro a b h
  refine (idealBytes_append_inj (x := []) (y := []) ?_).1
  rw [List.append_nil, List.append_nil]
  exact h

end Hazync
