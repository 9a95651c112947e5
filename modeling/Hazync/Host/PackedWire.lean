import Hazync.Lib.WordStream

/-!
# Packed bytes on the wire (`PackedBytes`, `PackedHash`, `PackedHashes`)

The transactions and hashes of a witness are written with `serialize_bytes`. In the word stream of
`risc0_zkvm::serde` that is a length and the bytes four to a word; in a JSON bundle it is an array
of numbers. The host reads both, and in bundles also a list of hashes written as a list of lists of
numbers; the guest reads the word stream only, with visitors of its own.

A JSON document is here the value its text stands for.

## Two formats and two readers

A block's witness is mostly bytes. Written with the derived serialisers, each of them would take a
word in the stream that the guest reads; so the three types here write them packed. The same values
are also in the bundles on disk, which are JSON, and bundles from before the packing are still
there. The host must read all of that. The guest reads only what the present host writes, and its
visitors leave out the shapes that cannot come.

The model of serde is what these types use of it: a deserialiser calls one method of a visitor with
what it has found, and the visitor makes a value of it or an error. `Call` is that call, and
`Visitor` the methods. The word stream always calls with an owned buffer; JSON calls with a sequence
for an array and with bytes for a string. What `serde_json` does there is taken from its
documentation, in `SerdeJson.Documented`.

So there are two questions for each type: whether what is written is read back, and what else is
read. `WireExact` has both, for both formats, and says that host and guest read the stream alike.
The stream is not framed. A length word that lies is believed as long as there are enough words, and
what is left over is left to the next reader; it is `Announced` that says what exactly is accepted.
-/

namespace Hazync
namespace Host

open ByteStrings WordStream

/-! ## Deserializers and visitors -/

inductive DeError where
  | custom (msg : String)
  /-- No method of the visitor takes what there is, or an element is of another type. -/
  | invalidType
  /-- `DeserializeUnexpectedEnd` -/
  | unexpectedEnd
deriving DecidableEq, Repr

/-- The method that `deserialize_byte_buf` calls, with what it found. -/
inductive Call (ε : Type) where
  | bytes (v : Bytes)
  | byteBuf (v : Bytes)
  | seq (elems : List ε)
  | invalid

/-- What a visitor makes of each call. -/
structure Visitor (ε α : Type) where
  visitBytes : Bytes → Except DeError α
  visitByteBuf : Bytes → Except DeError α
  visitSeq : List ε → Except DeError α

def Visitor.accept {ε α : Type} (v : Visitor ε α) : Call ε → Except DeError α
  | .bytes b => v.visitBytes b
  | .byteBuf b => v.visitByteBuf b
  | .seq elems => v.visitSeq elems
  | .invalid => .error .invalidType

/-! ## The word stream (`risc0_zkvm::serde`) -/

/-- `serialize_bytes`: the length, as a `u32`, and the padded bytes. -/
def serializeBytes (v : Bytes) : List UInt32 := UInt32.ofNat v.length :: pack v

/-- `deserialize_byte_buf` calls `visit_byte_buf`; the words after the bytes are left. -/
def fromWords {ε α : Type} (decode : Call ε → Except DeError α) :
    List UInt32 → Except DeError (α × List UInt32)
  | [] => .error .unexpectedEnd
  | len :: ws =>
    match readBytes len.toNat ws with
    | none => .error .unexpectedEnd
    | some (v, rest) => (decode (.byteBuf v)).map fun a => (a, rest)

/-! ## JSON (`serde_json`) -/

inductive Json where
  | number (n : ℤ)
  | string (utf8 : Bytes)
  | array (elems : List Json)
  /-- Null, a truth value, a fraction or an object. -/
  | other

def Json.byte (b : UInt8) : Json := .number b.toNat

/-- The array of numbers that a byte string is. -/
def Json.bytes (v : Bytes) : Json := .array (v.map Json.byte)

/-- What the packed types use of `serde_json`. -/
structure SerdeJson where
  serializeBytes : Bytes → Json
  /-- `Vec<[u8; 32]>`, the field type of the bundles before the packing -/
  serializeLists : List Bytes32 → Json
  deserializeByteBuf : Json → Call Json
  /-- An element read as a `u8`. -/
  u8 : Json → Option UInt8
  /-- An element read as a `[u8; 32]`. -/
  array32 : Json → Option Bytes32

/-- What its documentation says of them. -/
structure SerdeJson.Documented (S : SerdeJson) : Prop where
  /-- `serde_json` writes bytes as an array of numbers, -/
  serializeBytes : ∀ v, S.serializeBytes v = .bytes v
  serializeLists : ∀ hs, S.serializeLists hs = .array (hs.map fun h => .bytes h.toList)
  /-- and gives an array back as a sequence where bytes are asked for, -/
  array : ∀ elems, S.deserializeByteBuf (.array elems) = .seq elems
  /-- a string as its bytes, -/
  string : ∀ s, S.deserializeByteBuf (.string s) = .bytes s
  /-- and nothing else. -/
  number : ∀ n, S.deserializeByteBuf (.number n) = .invalid
  other : S.deserializeByteBuf .other = .invalid
  /-- An element is read as a byte where it is a number below 256, -/
  u8 : ∀ j b, S.u8 j = some b ↔ j = .byte b
  /-- and as a hash where it is 32 of them. -/
  array32 : ∀ j h, S.array32 j = some h ↔ j = .bytes h.toList

/-! ## The host's types -/

section Decode

variable {ε : Type}

/-- `copy_from_slice` from a slice of 32 bytes. -/
def copyFrom (v : Bytes) (h : v.length = 32) : Bytes32 := ⟨v, h⟩

/-- `chunks_exact(32)`, for `n` chunks. -/
def chunksExact32 : ℕ → Bytes → List Bytes32
  | 0, _ => []
  | n + 1, v =>
    if h : 32 ≤ v.length then
      copyFrom (v.take 32) (List.length_take_of_le h) :: chunksExact32 n (v.drop 32)
    else []

def toHash (v : Bytes) : Except DeError Bytes32 :=
  if h : v.length = 32 then .ok (copyFrom v h) else .error (.custom "PackedHash must be 32 bytes")

def toHashes (v : Bytes) : Except DeError (List Bytes32) :=
  if v.length % 32 ≠ 0 then .error (.custom "PackedHashes must be a multiple of 32")
  else .ok (chunksExact32 (v.length / 32) v)

/-- The elements of a sequence, the first that cannot be read an error. -/
def nextElements {α : Type} (next : ε → Option α) : List ε → Except DeError (List α)
  | [] => .ok []
  | e :: es =>
    match next e with
    | none => .error .invalidType
    | some a => (nextElements next es).map (a :: ·)

/-- `packed_bytes`, where `u8` reads an element of a sequence. -/
def packedBytes (u8 : ε → Option UInt8) : Call ε → Except DeError Bytes :=
  Visitor.accept
    { visitBytes := .ok
      visitByteBuf := .ok
      visitSeq := nextElements u8 }

def packedHash (u8 : ε → Option UInt8) (c : Call ε) : Except DeError Bytes32 :=
  (packedBytes u8 c).bind toHash

/-- `ByteOrHash` is untagged: the variants are tried in order. -/
def byteOrHash (u8 : ε → Option UInt8) (array32 : ε → Option Bytes32) (e : ε) :
    Option (UInt8 ⊕ Bytes32) :=
  match u8 e with
  | some b => some (.inl b)
  | none => (array32 e).map .inr

/-- What `visit_seq` makes of the bytes and the hashes it collected. -/
def packedSeq (flat : Bytes) (out : List Bytes32) : Except DeError (List Bytes32) :=
  if flat ≠ [] ∧ out ≠ [] then
    .error (.custom "PackedHashes mixes packed bytes and whole hashes")
  else if out ≠ [] then .ok out
  else toHashes flat

def packedHashes (u8 : ε → Option UInt8) (array32 : ε → Option Bytes32) :
    Call ε → Except DeError (List Bytes32) :=
  Visitor.accept
    { visitBytes := toHashes
      visitByteBuf := toHashes
      visitSeq := fun elems =>
        (nextElements (byteOrHash u8 array32) elems).bind fun es =>
          packedSeq (es.filterMap Sum.getLeft?) (es.filterMap Sum.getRight?) }

end Decode

end Host

/-! ## The guest's types -/

namespace Guest

open ByteStrings Host

variable {ε : Type}

/-- `packed_bytes` of the guest has no `visit_seq`. -/
def packedBytes : Call ε → Except DeError Bytes :=
  Visitor.accept
    { visitBytes := .ok
      visitByteBuf := .ok
      visitSeq := fun _ => .error .invalidType }

def packedHash (c : Call ε) : Except DeError Bytes32 := (packedBytes c).bind toHash

def packedHashes (c : Call ε) : Except DeError (List Bytes32) := (packedBytes c).bind toHashes

end Guest

/-! ## Chunks of a flat blob -/

namespace Host

open ByteStrings WordStream

@[simp] theorem toList_copyFrom (v : Bytes) (h : v.length = 32) : (copyFrom v h).toList = v := rfl

/-- The hashes as one blob. -/
def flat (hs : List Bytes32) : Bytes := hs.flatMap List.Vector.toList

@[simp] theorem flat_nil : flat [] = [] := rfl

@[simp] theorem flat_cons (h : Bytes32) (hs : List Bytes32) :
    flat (h :: hs) = h.toList ++ flat hs := rfl

@[simp] theorem length_flat (hs : List Bytes32) : (flat hs).length = 32 * hs.length := by
  induction hs with
  | nil => rfl
  | cons h hs ih =>
    rw [flat_cons, List.length_append, ih, List.Vector.toList_length, List.length_cons]
    omega

/-- The chunks of a blob of hashes are the hashes. -/
theorem chunksExact32_flat (hs : List Bytes32) : chunksExact32 hs.length (flat hs) = hs := by
  induction hs with
  | nil => rfl
  | cons h hs ih =>
    have hlen : h.toList.length = 32 := h.toList_length
    have hle : 32 ≤ (flat (h :: hs)).length := by
      rw [length_flat, List.length_cons]
      omega
    have htake : (flat (h :: hs)).take 32 = h.toList := List.take_left' hlen
    have hdrop : (flat (h :: hs)).drop 32 = flat hs := List.drop_left' hlen
    rw [List.length_cons, chunksExact32, dif_pos hle, hdrop, ih]
    exact congrArg (· :: hs) (List.Vector.eq _ _ htake)

/-- And the chunks of a blob make it up. -/
theorem flat_chunksExact32 {n : ℕ} {v : Bytes} (h : v.length = 32 * n) :
    flat (chunksExact32 n v) = v := by
  induction n generalizing v with
  | zero => exact (List.length_eq_zero_iff.mp h).symm
  | succ n ih =>
    have hle : 32 ≤ v.length := by omega
    have hrest : (v.drop 32).length = 32 * n := by
      rw [List.length_drop]
      omega
    rw [chunksExact32, dif_pos hle, flat_cons, ih hrest]
    rw [toList_copyFrom, List.take_append_drop]

/-- A hash is read from its 32 bytes only. -/
theorem toHash_eq_ok {v : Bytes} {h : Bytes32} : toHash v = .ok h ↔ v = h.toList := by
  rw [toHash]
  split
  · rename_i hlen
    rw [Except.ok.injEq]
    constructor
    · rintro rfl
      rfl
    · exact fun heq => List.Vector.eq _ _ heq
  · rename_i hlen
    exact ⟨(by simp), fun heq => absurd (heq ▸ h.toList_length) hlen⟩

/-- So are hashes, from their bytes in a row. -/
theorem toHashes_eq_ok {v : Bytes} {hs : List Bytes32} : toHashes v = .ok hs ↔ v = flat hs := by
  rw [toHashes]
  split
  · rename_i hlen
    refine ⟨(by simp), fun heq => absurd ?_ hlen⟩
    rw [heq, length_flat, Nat.mul_mod_right]
  · rename_i hlen
    rw [Except.ok.injEq]
    constructor
    · rintro rfl
      exact (flat_chunksExact32 (by omega)).symm
    · rintro rfl
      rw [length_flat, Nat.mul_div_cancel_left _ (by decide), chunksExact32_flat]

/-! ## The word stream -/

/-- The stream announces a length, and so many bytes are at the front of the words that follow. -/
def Announced (ws : List UInt32) (v : Bytes) (rest : List UInt32) : Prop :=
  v.length < 2 ^ 32 ∧ ∃ front, ws = UInt32.ofNat v.length :: (front ++ rest) ∧
    front.length = wordsFor v.length ∧ v = (unpack front).take v.length

/-- A byte string short enough for its length to fit a word is announced by what is written. -/
theorem announced_serializeBytes {v : Bytes} (hv : v.length < 2 ^ 32) (rest : List UInt32) :
    Announced (serializeBytes v ++ rest) v rest := by
  refine ⟨hv, pack v, rfl, length_pack v, ?_⟩
  rw [unpack_pack, List.take_left]

/-- A type is read from the stream exactly where its bytes are announced. -/
theorem fromWords_eq_ok {ε α : Type} {decode : Call ε → Except DeError α} {raw : α → Bytes}
    (hdecode : ∀ v a, decode (.byteBuf v) = .ok a ↔ v = raw a) {ws rest : List UInt32} {a : α} :
    fromWords decode ws = .ok (a, rest) ↔ Announced ws (raw a) rest := by
  cases ws with
  | nil =>
    constructor
    · intro h
      cases h
    · rintro ⟨-, front, hws, -⟩
      cases hws
  | cons len ws =>
    rw [fromWords]
    constructor
    · intro h
      cases hread : readBytes len.toNat ws with
      | none => simp [hread] at h
      | some p =>
        obtain ⟨v, rest'⟩ := p
        simp only [hread] at h
        cases hv : decode (.byteBuf v) with
        | error e => simp [hv, Except.map] at h
        | ok a' =>
          simp only [hv, Except.map, Except.ok.injEq, Prod.mk.injEq] at h
          obtain ⟨rfl, rfl⟩ := h
          obtain ⟨hlen, front, rfl, hfront, heq⟩ := readBytes_eq_some.mp hread
          rw [← (hdecode v a').mp hv]
          refine ⟨hlen ▸ len.toNat_lt, front, ?_, hlen ▸ hfront, hlen ▸ heq⟩
          rw [hlen, UInt32.ofNat_toNat]
    · rintro ⟨hlt, front, hws, hfront, heq⟩
      obtain ⟨rfl, rfl⟩ := List.cons.inj hws
      have hlen : (UInt32.ofNat (raw a).length).toNat = (raw a).length :=
        UInt32.toNat_ofNat_of_lt' hlt
      have hread : readBytes (raw a).length (front ++ rest) = some (raw a, rest) :=
        readBytes_eq_some.mpr ⟨rfl, front, rfl, hfront, heq⟩
      simp only [hlen, hread, (hdecode _ a).mpr rfl]
      rfl

/-! ## The elements of a sequence -/

/-- A sequence is read where each of its elements is. -/
theorem nextElements_eq_ok {ε α : Type} {next : ε → Option α} {es : List ε} {as : List α} :
    nextElements next es = .ok as ↔ es.map next = as.map some := by
  induction es generalizing as with
  | nil => cases as <;> simp [nextElements]
  | cons e es ih =>
    rw [nextElements]
    cases he : next e with
    | none => cases as <;> simp [he]
    | some a =>
      cases hes : nextElements next es with
      | error d =>
        have hnot : ∀ bs : List α, es.map next ≠ bs.map some := by
          intro bs heq
          have := ih.mpr heq
          rw [hes] at this
          cases this
        cases as with
        | nil => simp [Except.map]
        | cons b bs => simp [Except.map, he, hnot bs]
      | ok bs =>
        have hbs : es.map next = bs.map some := ih.mp hes
        have hinj := List.map_injective_iff.mpr (Option.some_injective α)
        cases as with
        | nil => simp [Except.map]
        | cons b bs' => simp [Except.map, he, hbs, hinj.eq_iff]

/-- Where nothing was collected on the right, everything was on the left. -/
theorem eq_map_inl {α β : Type} {l : List (α ⊕ β)} (h : l.filterMap Sum.getRight? = []) :
    l = (l.filterMap Sum.getLeft?).map .inl := by
  induction l with
  | nil => rfl
  | cons x l ih =>
    cases x with
    | inl a => simpa using ih (by simpa using h)
    | inr b => simp at h

/-- And the other way round. -/
theorem eq_map_inr {α β : Type} {l : List (α ⊕ β)} (h : l.filterMap Sum.getLeft? = []) :
    l = (l.filterMap Sum.getRight?).map .inr := by
  induction l with
  | nil => rfl
  | cons x l ih =>
    cases x with
    | inl a => simp at h
    | inr b => simpa using ih (by simpa using h)

/-! ## What the host accepts in JSON -/

section Json

variable {S : SerdeJson}

/-- Different bytes are different numbers. -/
theorem Json.byte_injective : Function.Injective Json.byte := fun _ _ h =>
  UInt8.toNat_inj.mp (Int.ofNat.inj (Json.number.inj h))

/-- Elements are read as bytes exactly where they are the numbers of these. -/
theorem map_u8_eq {u8 : Json → Option UInt8} (hu8 : ∀ j b, u8 j = some b ↔ j = .byte b)
    {elems : List Json} {v : Bytes} : elems.map u8 = v.map some ↔ elems = v.map Json.byte := by
  induction elems generalizing v with
  | nil => cases v <;> simp
  | cons j elems ih =>
    cases v with
    | nil => simp
    | cons b v => simp [hu8, ih]

/-- Bytes are read from an array of them, or from a string. -/
theorem packedBytes_json (hS : S.Documented) {j : Json} {v : Bytes} :
    packedBytes S.u8 (S.deserializeByteBuf j) = .ok v ↔ j = .bytes v ∨ j = .string v := by
  cases j with
  | number n => simp [hS.number, packedBytes, Visitor.accept, Json.bytes]
  | other => simp [hS.other, packedBytes, Visitor.accept, Json.bytes]
  | string s => simp [hS.string, packedBytes, Visitor.accept, Json.bytes]
  | array elems =>
    simp [hS.array, packedBytes, Visitor.accept, Json.bytes, nextElements_eq_ok, map_u8_eq hS.u8]

/-- A hash is read from the same two shapes. -/
theorem packedHash_json (hS : S.Documented) {j : Json} {h : Bytes32} :
    packedHash S.u8 (S.deserializeByteBuf j) = .ok h ↔
      j = .bytes h.toList ∨ j = .string h.toList := by
  rw [← packedBytes_json hS, packedHash]
  cases hv : packedBytes S.u8 (S.deserializeByteBuf j) with
  | error e => simp [Except.bind]
  | ok v => simp [Except.bind, toHash_eq_ok]

/-- A number is a byte, a list of 32 numbers is a hash. -/
theorem byteOrHash_eq_some (hS : S.Documented) {j : Json} {x : UInt8 ⊕ Bytes32} :
    byteOrHash S.u8 S.array32 j = some x ↔
      j = x.elim Json.byte fun h => .bytes h.toList := by
  rw [byteOrHash]
  cases hj : S.u8 j with
  | some b =>
    have hjb := (hS.u8 j b).mp hj
    cases x with
    | inl b' => simp [hjb, Json.byte_injective.eq_iff]
    | inr h => simp [hjb, Json.byte, Json.bytes]
  | none =>
    cases x with
    | inl b =>
      have hjb : j ≠ .byte b := fun h => by simp [(hS.u8 j b).mpr h] at hj
      simp [hjb]
    | inr h => simp [hS.array32]

/-- The elements are bytes and hashes exactly where they are written so. -/
theorem map_byteOrHash_eq (hS : S.Documented) {elems : List Json} {xs : List (UInt8 ⊕ Bytes32)} :
    elems.map (byteOrHash S.u8 S.array32) = xs.map some ↔
      elems = xs.map (Sum.elim Json.byte fun h => .bytes h.toList) := by
  induction elems generalizing xs with
  | nil => cases xs <;> simp
  | cons j elems ih =>
    cases xs with
    | nil => simp
    | cons x xs => simp [byteOrHash_eq_some hS, ih]

/-- The three shapes of a list of hashes. -/
theorem packedHashes_json (hS : S.Documented) {j : Json} {hs : List Bytes32} :
    packedHashes S.u8 S.array32 (S.deserializeByteBuf j) = .ok hs ↔
      j = .bytes (flat hs) ∨ j = .string (flat hs) ∨
        j = .array (hs.map fun h => .bytes h.toList) := by
  cases j with
  | number n => simp [hS.number, packedHashes, Visitor.accept, Json.bytes]
  | other => simp [hS.other, packedHashes, Visitor.accept, Json.bytes]
  | string s => simp [hS.string, packedHashes, Visitor.accept, Json.bytes, toHashes_eq_ok]
  | array elems =>
    simp only [hS.array, packedHashes, Visitor.accept, Json.bytes, Json.array.injEq, reduceCtorEq,
      false_or]
    constructor
    · intro h
      cases hes : nextElements (byteOrHash S.u8 S.array32) elems with
      | error e => simp [hes, Except.bind] at h
      | ok xs =>
        have helems := (map_byteOrHash_eq hS).mp (nextElements_eq_ok.mp hes)
        simp only [hes, Except.bind, packedSeq] at h
        split at h
        · cases h
        rename_i hmix
        split at h
        · rename_i hout
          obtain rfl := Except.ok.inj h
          have hflat : xs.filterMap Sum.getLeft? = [] := not_not.mp fun hf => hmix ⟨hf, hout⟩
          right
          rw [helems, eq_map_inr hflat, List.map_map, ← eq_map_inr hflat]
          rfl
        · rename_i hout
          left
          rw [helems, eq_map_inl (not_not.mp hout), List.map_map, ← toHashes_eq_ok.mp h]
          rfl
    · have hok : ∀ xs : List (UInt8 ⊕ Bytes32),
          elems = xs.map (Sum.elim Json.byte fun h => .bytes h.toList) →
          (nextElements (byteOrHash S.u8 S.array32) elems) = .ok xs := fun xs heq =>
        nextElements_eq_ok.mpr ((map_byteOrHash_eq hS).mpr heq)
      rintro (heq | heq)
      · rw [hok ((flat hs).map .inl) (by rw [heq, List.map_map]; rfl)]
        simp [Except.bind, packedSeq, List.filterMap_map, Function.comp_def, toHashes_eq_ok]
      · rw [hok (hs.map .inr) (by rw [heq, List.map_map]; rfl)]
        by_cases hnil : hs = []
        · simp [Except.bind, packedSeq, hnil, toHashes_eq_ok]
        · simp [Except.bind, packedSeq, List.filterMap_map, Function.comp_def, hnil]

end Json

/-! ## The three types on the wire -/

/-- A type written as the bytes `raw a`, in JSON accepted in the given shapes. Host and guest read
it back from the stream it was written to, and nothing is read from a stream that does not announce
it or from a document of another shape. -/
structure WireExact (S : SerdeJson) {α : Type} (raw : α → Bytes) (shapes : α → List Json)
    (host guest : Call Json → Except DeError α) : Prop where
  /-- What is written to the words is read back, and what follows it is left alone. -/
  words_roundtrip : ∀ a rest, (raw a).length < 2 ^ 32 →
    fromWords guest (serializeBytes (raw a) ++ rest) = .ok (a, rest)
  /-- The reader takes a stream just where its first word announces what comes. -/
  words_exact : ∀ ws a rest, fromWords guest ws = .ok (a, rest) ↔ Announced ws (raw a) rest
  /-- Host and guest read the words alike. -/
  host_words : ∀ ws, fromWords host ws = fromWords guest ws
  /-- What is written to JSON is read back. -/
  json_roundtrip : ∀ a, host (S.deserializeByteBuf (S.serializeBytes (raw a))) = .ok a
  /-- And nothing is read from a document of another shape. -/
  json_exact : ∀ j a, host (S.deserializeByteBuf j) = .ok a ↔ j ∈ shapes a

/-- What is to be shown for one of the types: that it reads its bytes, on both sides, and its
    shapes. -/
theorem wireExact_of {S : SerdeJson} (hS : S.Documented) {α : Type} {raw : α → Bytes}
    {shapes : α → List Json} {host guest : Call Json → Except DeError α}
    (hguest : ∀ v a, guest (.byteBuf v) = .ok a ↔ v = raw a)
    (hhost : ∀ v, host (.byteBuf v) = guest (.byteBuf v))
    (hjson : ∀ j a, host (S.deserializeByteBuf j) = .ok a ↔ j ∈ shapes a)
    (hbytes : ∀ a, .bytes (raw a) ∈ shapes a) : WireExact S raw shapes host guest where
  words_roundtrip a rest ha := (fromWords_eq_ok hguest).mpr (announced_serializeBytes ha rest)
  words_exact _ _ _ := fromWords_eq_ok hguest
  host_words ws := by
    cases ws with
    | nil => rfl
    | cons len ws => simp only [fromWords, hhost]
  json_roundtrip a := by
    rw [hS.serializeBytes]
    exact (hjson _ a).mpr (hbytes a)
  json_exact := hjson

/-- The packed types come back from the word stream and from JSON, lists of hashes also from the
nested lists of the old bundles, and what is read is always what is there. -/
theorem packed_wire_exact (S : SerdeJson) (hS : S.Documented) :
    WireExact S id (fun v => [.bytes v, .string v]) (packedBytes S.u8) Guest.packedBytes ∧
      WireExact S List.Vector.toList (fun h => [.bytes h.toList, .string h.toList])
        (packedHash S.u8) Guest.packedHash ∧
      WireExact S flat
        (fun hs => [.bytes (flat hs), .string (flat hs), .array (hs.map fun h => .bytes h.toList)])
        (packedHashes S.u8 S.array32) Guest.packedHashes ∧
      ∀ hs, packedHashes S.u8 S.array32 (S.deserializeByteBuf (S.serializeLists hs)) = .ok hs := by
  refine ⟨wireExact_of hS ?_ ?_ ?_ ?_, wireExact_of hS ?_ ?_ ?_ ?_, wireExact_of hS ?_ ?_ ?_ ?_, ?_⟩
  · exact fun v a => Except.ok.injEq v a ▸ Iff.rfl
  · exact fun v => rfl
  · exact fun j v => by simpa using packedBytes_json hS
  · simp
  · exact fun v h => toHash_eq_ok
  · exact fun v => rfl
  · exact fun j h => by simpa using packedHash_json hS
  · simp
  · exact fun v hs => toHashes_eq_ok
  · exact fun v => rfl
  · exact fun j hs => by simpa using packedHashes_json hS
  · simp
  · intro hs
    rw [hS.serializeLists]
    exact (packedHashes_json hS).mpr (.inr (.inr rfl))

/-- The numbers from 0 to 255 are bytes. -/
def jsonU8 : Json → Option UInt8
  | .number n => if 0 ≤ n ∧ n < 256 then some (UInt8.ofNat n.toNat) else none
  | _ => none

/-- So it reads a byte. -/
theorem jsonU8_eq_some (j : Json) (b : UInt8) : jsonU8 j = some b ↔ j = .byte b := by
  cases j with
  | number n =>
    simp only [jsonU8, Json.byte, Json.number.injEq, Option.ite_none_right_eq_some,
      Option.some.injEq]
    constructor
    · rintro ⟨⟨h0, h256⟩, rfl⟩
      have hlt : n.toNat < 256 := by omega
      rw [UInt8.toNat_ofNat_of_lt' hlt, Int.toNat_of_nonneg h0]
    · rintro rfl
      have := b.toNat_lt
      exact ⟨⟨by omega, by omega⟩, by simp⟩
  | string s => simp [jsonU8, Json.byte]
  | array elems => simp [jsonU8, Json.byte]
  | other => simp [jsonU8, Json.byte]

/-- A list of 32 of them is a hash. -/
def jsonArray32 : Json → Option Bytes32
  | .array elems => ((nextElements jsonU8 elems).bind toHash).toOption
  | _ => none

/-- So it reads a hash. -/
theorem jsonArray32_eq_some (j : Json) (h : Bytes32) :
    jsonArray32 j = some h ↔ j = .bytes h.toList := by
  cases j with
  | array elems =>
    rw [jsonArray32, Json.bytes, Json.array.injEq, ← map_u8_eq jsonU8_eq_some, ← nextElements_eq_ok]
    cases hv : nextElements jsonU8 elems with
    | error e => simp [Except.bind, Except.toOption]
    | ok v =>
      rw [Except.bind, Except.ok.injEq, ← toHash_eq_ok]
      cases toHash v <;> simp [Except.toOption]
  | number n => simp [jsonArray32, Json.bytes]
  | string s => simp [jsonArray32, Json.bytes]
  | other => simp [jsonArray32, Json.bytes]

/-- `serde_json`, as documented. -/
def serdeJson : SerdeJson where
  serializeBytes := .bytes
  serializeLists hs := .array (hs.map fun h => .bytes h.toList)
  deserializeByteBuf
    | .array elems => .seq elems
    | .string s => .bytes s
    | _ => .invalid
  u8 := jsonU8
  array32 := jsonArray32

/-- It does what the documentation says. -/
theorem serdeJson_documented : serdeJson.Documented where
  serializeBytes _ := rfl
  serializeLists _ := rfl
  array _ := rfl
  string _ := rfl
  number _ := rfl
  other := rfl
  u8 := jsonU8_eq_some
  array32 := jsonArray32_eq_some

/-- A list of two hashes, in the old shape. -/
theorem packed_wire_exact_nested :
    packedHashes serdeJson.u8 serdeJson.array32 (serdeJson.deserializeByteBuf
      (serdeJson.serializeLists [List.Vector.replicate 32 7, List.Vector.replicate 32 8])) =
        .ok [List.Vector.replicate 32 7, List.Vector.replicate 32 8] :=
  (packed_wire_exact serdeJson serdeJson_documented).2.2.2 _

/-- A length that does not fit a word is written as the rest of it: 2 ^ 32 bytes as none. -/
theorem fromWords_overflow {v : Bytes} (hv : v.length = 2 ^ 32) :
    fromWords (@Guest.packedBytes Json) (serializeBytes v) = .ok ([], pack v) := by
  have hlen : UInt32.ofNat v.length = 0 := by
    rw [hv]
    rfl
  have hread : readBytes (0 : UInt32).toNat (pack v) = some ([], pack v) :=
    readBytes_pack [] (pack v)
  simp only [serializeBytes, hlen, fromWords, hread]
  rfl

/-- The stream of five bytes. With the length word 4 it is read as four bytes, and a word too many
is left to the next reader. -/
theorem packed_words_unframed :
    serializeBytes [1, 2, 3, 4, 5] = [5, 0x04030201, 5] ∧
      fromWords (@Guest.packedBytes Json) [4, 0x04030201, 5] = .ok ([1, 2, 3, 4], [5]) ∧
      fromWords (@Guest.packedBytes Json) [5, 0x04030201, 5, 9] =
        .ok ([1, 2, 3, 4, 5], [9]) ∧
      ∃ v : Bytes, v.length = 2 ^ 32 ∧
        fromWords (@Guest.packedBytes Json) (serializeBytes v) = .ok ([], pack v) := by
  refine ⟨by decide, by rfl, by rfl, ?_⟩
  have hex : ∀ n : ℕ, ∃ v : Bytes, v.length = n := fun n =>
    ⟨List.replicate n 0, List.length_replicate⟩
  obtain ⟨v, hv⟩ := hex (2 ^ 32)
  exact ⟨v, hv, fromWords_overflow hv⟩

end Host
end Hazync
