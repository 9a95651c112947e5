import Hazync.Lib.ByteStrings

/-!
# Byte strings in a stream of words

A byte string goes into a stream of 32-bit words four bytes a word, the low byte first, its last
word filled up with zeros. Who reads it back has to know its length: then it takes the words that
hold so many bytes and leaves the others to the next reader.

The padding is not checked when a string is read. What matters to the next reader is only how many
words were taken, which is the same whatever the last of them was filled up with. So a string has
one packed form that is written, and the reader accepts others besides (`readBytes_eq_some`).
-/

namespace WordStream

open ByteStrings

/-- The word of four bytes. -/
def word (a b c d : UInt8) : UInt32 := UInt32.ofNat (ofLe [a, b, c, d])

/-- Four bytes a word, the last word filled up with zeros. -/
def pack : Bytes → List UInt32
  | a :: b :: c :: d :: v => word a b c d :: pack v
  | [a, b, c] => [word a b c 0]
  | [a, b] => [word a b 0 0]
  | [a] => [word a 0 0 0]
  | [] => []

/-- The bytes of the words. -/
def unpack (ws : List UInt32) : Bytes := ws.flatMap le32

/-- The words that hold `n` bytes. -/
def wordsFor (n : ℕ) : ℕ := (n + 3) / 4

/-- The first `n` bytes of the stream, and the words after those that hold them. -/
def readBytes (n : ℕ) (ws : List UInt32) : Option (Bytes × List UInt32) :=
  if n ≤ 4 * ws.length then some ((unpack ws).take n, ws.drop (wordsFor n)) else none

/-- A word has its four bytes. -/
@[simp] theorem le32_word (a b c d : UInt8) : le32 (word a b c d) = [a, b, c, d] := le32_ofLe rfl

@[simp] theorem unpack_nil : unpack [] = [] := rfl

@[simp] theorem unpack_cons (x : UInt32) (ws : List UInt32) :
    unpack (x :: ws) = le32 x ++ unpack ws := rfl

/-- The bytes of two streams, one after the other. -/
@[simp] theorem unpack_append (ws xs : List UInt32) :
    unpack (ws ++ xs) = unpack ws ++ unpack xs := List.flatMap_append

/-- Four bytes a word. -/
@[simp] theorem length_unpack (ws : List UInt32) : (unpack ws).length = 4 * ws.length := by
  induction ws with
  | nil => rfl
  | cons x ws ih =>
    rw [unpack_cons, List.length_append, ih, length_le32, List.length_cons]
    omega

/-- As many words as hold the bytes. -/
@[simp] theorem length_pack (v : Bytes) : (pack v).length = wordsFor v.length := by
  induction v using pack.induct with
  | case1 a b c d v ih =>
    rw [pack, List.length_cons, ih]
    simp only [List.length_cons, wordsFor]
    omega
  | _ => simp [pack, wordsFor]

/-- The words of a string hold it, and zeros after it. -/
theorem unpack_pack (v : Bytes) :
    unpack (pack v) = v ++ List.replicate (4 * wordsFor v.length - v.length) 0 := by
  induction v using pack.induct with
  | case1 a b c d v ih =>
    have hlen : 4 * wordsFor (a :: b :: c :: d :: v).length - (a :: b :: c :: d :: v).length =
        4 * wordsFor v.length - v.length := by
      simp only [List.length_cons, wordsFor]
      omega
    rw [pack, unpack_cons, ih, le32_word, hlen]
    rfl
  | _ => simp [pack, wordsFor]

/-- A packed string is read back, and the rest of the stream is left. -/
@[simp] theorem readBytes_pack (v : Bytes) (rest : List UInt32) :
    readBytes v.length (pack v ++ rest) = some (v, rest) := by
  have hle : v.length ≤ 4 * (pack v ++ rest).length := by
    rw [List.length_append, length_pack, wordsFor]
    omega
  rw [readBytes, if_pos hle, unpack_append, unpack_pack, List.append_assoc, List.take_left,
    ← length_pack, List.drop_left]

example : readBytes 5 (pack [1, 2, 3, 4, 5] ++ [7]) = some ([1, 2, 3, 4, 5], [7]) := by decide

/-- Whatever is read is at the front of the stream, in as many words as it needs. -/
theorem readBytes_eq_some {n : ℕ} {ws rest : List UInt32} {v : Bytes} :
    readBytes n ws = some (v, rest) ↔
      v.length = n ∧ ∃ front, ws = front ++ rest ∧ front.length = wordsFor n ∧
        v = (unpack front).take n := by
  rw [readBytes]
  constructor
  · intro h
    split at h
    · rename_i hle
      obtain ⟨rfl, rfl⟩ := Prod.mk.inj (Option.some.inj h)
      have hfront : (ws.take (wordsFor n)).length = wordsFor n := by
        rw [List.length_take, wordsFor]
        omega
      refine ⟨by simp [hle], ws.take (wordsFor n), (List.take_append_drop _ _).symm, hfront, ?_⟩
      conv_lhs => rw [← List.take_append_drop (wordsFor n) ws]
      rw [unpack_append, List.take_append_of_le_length
        (by rw [length_unpack, hfront, wordsFor]; omega)]
    · cases h
  · rintro ⟨-, front, rfl, hlen, rfl⟩
    have hle : n ≤ (unpack front).length := by
      rw [length_unpack, hlen, wordsFor]
      omega
    have hroom : n ≤ 4 * (front ++ rest).length := by
      rw [length_unpack] at hle
      rw [List.length_append]
      omega
    rw [if_pos hroom, unpack_append, List.take_append_of_le_length hle, ← hlen, List.drop_left]

end WordStream
