import Hazync.Guest.Segmented
import Hazync.Host.PackedWire
import Hazync.Lib.GreedySplit

/-!
# The stream of a chunk (`write_chunk_inputs` and the reads of `chunk_prove`)

The host writes a run of a block's inputs as a stream of words: how many groups there are, and for
each group, which is consecutive inputs of one transaction, the lengths of the two blobs, the number
of its inputs, the blobs and four words an input. The guest reads as many groups as it is told, and
of each as many bytes and inputs as it is told. A transaction that a run ends in is a group of this
run and of the next, and both carry its bytes.

With `liftx-hint` the host writes its hints before the groups, and the guest reads them there; what
they are for is in `Guest.LiftX`. The `debug_assert!` on the order of the inputs is not in a release
build, and nothing here needs it.

## A format that is not written down

There is no type for what goes from the host to a chunk's guest. The host writes words, the guest
reads words, and that they mean the same is a matter of two functions in two programs. So the writer
and the reader are each modelled as they are, and `chunkProveStream_chunkStream` says that the one
reads what the other wrote, to the last word: the payload of the run, with the blobs of each group's
transaction and the entries of its inputs.

A run may begin and end anywhere, and the inputs of a transaction may lie in several runs. Each of
them carries the bytes of the transaction, and each commits a wtxid for it under the number of its
own first input. The aggregate moves these keys up by the inputs before the chunk; so a transaction
whose inputs are spread over three runs has three entries, all with the same wtxid, one of which is
under its first input (`KeyedAt.mem_keys`). That one is what the block check looks for.

The order of the inputs is that of the block throughout. The runs are any cover, not only those that
the packer makes.
-/

namespace Hazync

/-! ## The writer -/

namespace Host

open ByteStrings WordStream GreedySplit Guest

variable {H : Type}

/-- Consecutive inputs `start..stop` of one transaction. -/
structure Group where
  txIdx : UInt32
  start : ℕ
  stop : ℕ

/-- One turn of the loop over `lo..hi`: the input joins the last group, or opens one. -/
def pushInput (w : BlockWitness H) (groups : List Group) (i : ℕ) : Option (List Group) := do
  let inp ← w.inputs[i]?
  match groups.getLast? with
  | some g =>
    if g.txIdx = inp.txIdx then some (groups.dropLast ++ [{ g with stop := i + 1 }])
    else some (groups ++ [⟨inp.txIdx, i, i + 1⟩])
  | none => some (groups ++ [⟨inp.txIdx, i, i + 1⟩])

/-- The groups of the run `lo..hi`, in order. -/
def chunkGroups (w : BlockWitness H) (lo hi : ℕ) : Option (List Group) :=
  (List.range' lo (hi - lo)).foldlM (pushInput w) []

/-- The key and the hint of each, few enough for the guest's `usize` to count their bytes. -/
abbrev Hints := { l : List (Bytes32 × Bytes32) // 64 * l.length < 2 ^ 32 }

/-- The number of hints, and the pairs. -/
def writeHints (hints : Hints) : List UInt32 :=
  UInt32.ofNat hints.1.length :: pack (hints.1.flatMap fun (x, y) => x.toList ++ y.toList)

/-- The four words of an input. -/
def writeInput (inp : BlockInput H) : List UInt32 :=
  [inp.inputIdx, inp.coinHeight, inp.coinIsCoinbase, inp.coinMtp]

def writeGroup (w : BlockWitness H) (g : Group) : Option (List UInt32) := do
  let tx ← w.txs[g.txIdx.toNat]?
  let prevouts ← w.txPrevouts[g.txIdx.toNat]?
  some (UInt32.ofNat tx.1.length :: UInt32.ofNat prevouts.1.length ::
    UInt32.ofNat (g.stop - g.start) :: (pack tx.1 ++ (pack prevouts.1 ++
      ((w.inputs.take g.stop).drop g.start).flatMap writeInput)))

/-- `write_chunk_inputs`, with the hints of the run where the build has them. -/
def writeChunkInputs (w : BlockWitness H) (hints : Option Hints) (lo hi : ℕ) :
    Option (List UInt32) := do
  let groups ← chunkGroups w lo hi
  let body ← groups.mapM (writeGroup w)
  some (UInt32.ofNat groups.length :: (hints.elim [] writeHints ++ body.flatten))

/-- A `[u8; 32]` is a word for each byte. -/
def arrayWords (h : Bytes32) : List UInt32 := h.toList.map UInt8.toUInt32

/-- What `prove_chunk` gives the guest after the mode: height, block hash and inputs. -/
def chunkStream (hs : Hashing H) (w : BlockWitness H) (hints : Option Hints) (lo hi : ℕ) :
    Option (List UInt32) :=
  (writeChunkInputs w hints lo hi).map fun ws => w.height :: (arrayWords (w.blockHash hs) ++ ws)

end Host

/-! ## The reader -/

namespace Guest

open ByteStrings WordStream

variable {H : Type}

/-- `env::read::<u32>`, which panics at the end of the stream. -/
def readWord : List UInt32 → Option (UInt32 × List UInt32)
  | [] => none
  | x :: ws => some (x, ws)

/-- `env::read::<[u8; 32]>`, where a word that is no byte is an error. -/
def readArray32 (ws : List UInt32) : Option (Bytes32 × List UInt32) :=
  if h : 32 ≤ ws.length then
    if (ws.take 32).all (· < 256) then
      some (Host.copyFrom ((ws.take 32).map UInt32.toUInt8) (by simp [h]), ws.drop 32)
    else none
  else none

/-- `read_bytes`: whole words, cut to the length. -/
def readBlob (len : UInt32) (ws : List UInt32) : Option (Blob × List UInt32) := do
  let (v, ws) ← readBytes len.toNat ws
  if h : v.length < 2 ^ 32 then some (⟨v, h⟩, ws) else none

/-- The four vectors of a group's inputs. -/
def readOwned : ℕ → List UInt32 → Option (List InputRef × List UInt32)
  | 0, ws => some ([], ws)
  | n + 1, ws => do
    let (idx, ws) ← readWord ws
    let (ch, ws) ← readWord ws
    let (cb, ws) ← readWord ws
    let (mtp, ws) ← readWord ws
    let (owned, ws) ← readOwned n ws
    some (⟨idx, ch, cb, mtp⟩ :: owned, ws)

def readEntry (ws : List UInt32) : Option (ChunkTx × List UInt32) := do
  let (txLen, ws) ← readWord ws
  let (prevoutsLen, ws) ← readWord ws
  let (nOwned, ws) ← readWord ws
  let (rawTx, ws) ← readBlob txLen ws
  let (prevouts, ws) ← readBlob prevoutsLen ws
  let (owned, ws) ← readOwned nOwned.toNat ws
  some (⟨rawTx, prevouts, owned⟩, ws)

/-- The hints, which are installed for the verifier and change nothing that it finds. -/
def readHints (liftxHint : Bool) (ws : List UInt32) : Option (List UInt32) :=
  if liftxHint then do
    let (n, ws) ← readWord ws
    let (_, ws) ← readBytes (64 * n.toNat % 2 ^ 32) ws
    some ws
  else some ws

section Prove

variable (hs : Hashing H) (core : Core)

/-- The loop of `chunk_prove`: an entry is read, then verified. -/
def chunkLoop (flags : UInt32) : ℕ → ChunkOut H → List UInt32 →
    Option (ChunkOut H × List UInt32)
  | 0, out, ws => some (out, ws)
  | n + 1, out, ws => do
    let (e, ws) ← readEntry ws
    let out ← chunkTx hs core flags out e
    chunkLoop flags n out ws

/-- `chunk_prove` on the words that follow the mode; the words it leaves are the second part. -/
def chunkProveStream (liftxHint : Bool) (ws : List UInt32) :
    Option (ChunkOut H × List UInt32) := do
  let (height, ws) ← readWord ws
  let (blockHash, ws) ← readArray32 ws
  let (nTxs, ws) ← readWord ws
  let ws ← readHints liftxHint ws
  chunkLoop hs core (blockScriptFlags height blockHash) nTxs.toNat ChunkOut.start ws

end Prove

/-! ## Reading what was written -/

/-- A word is read. -/
@[simp] theorem readWord_cons (x : UInt32) (ws : List UInt32) : readWord (x :: ws) = some (x, ws) :=
  rfl

/-- A blob that was written is read, with its length. -/
theorem readBlob_pack (b : Blob) (ws : List UInt32) :
    readBlob (UInt32.ofNat b.1.length) (pack b.1 ++ ws) = some (b, ws) := by
  have hlen : (UInt32.ofNat b.1.length).toNat = b.1.length := UInt32.toNat_ofNat_of_lt' b.2
  have hlt : b.1.length < 4294967296 := b.2
  simp [readBlob, hlen, hlt]

/-- So is a hash. -/
theorem readArray32_arrayWords (h : Bytes32) (ws : List UInt32) :
    readArray32 (Host.arrayWords h ++ ws) = some (h, ws) := by
  have hlen : (Host.arrayWords h).length = 32 := by
    rw [Host.arrayWords, List.length_map, h.toList_length]
  have htake : (Host.arrayWords h ++ ws).take 32 = Host.arrayWords h := List.take_left' hlen
  have hdrop : (Host.arrayWords h ++ ws).drop 32 = ws := List.drop_left' hlen
  have hle : 32 ≤ (Host.arrayWords h ++ ws).length := by
    rw [List.length_append]
    omega
  have hbytes : (Host.arrayWords h).all (· < 256) = true := by
    rw [List.all_eq_true]
    intro x hx
    obtain ⟨b, -, rfl⟩ := List.mem_map.mp hx
    simpa [UInt32.lt_iff_toNat_lt] using b.toNat_lt
  have hback : (Host.arrayWords h).map UInt32.toUInt8 = h.toList := by
    rw [Host.arrayWords, List.map_map]
    exact (List.map_congr_left fun b _ => by simp).trans (List.map_id _)
  rw [readArray32, dif_pos hle]
  simp only [htake, hdrop, hbytes, if_true, hback]
  exact congrArg (fun a => some (a, ws)) (List.Vector.eq _ _ rfl)

/-- What an entry says of an input's coin, in words. -/
def writeRef (ref : InputRef) : List UInt32 :=
  [ref.inputIdx, ref.coinHeight, ref.coinIsCoinbase, ref.coinMtp]

/-- So are the inputs of a group. -/
theorem readOwned_flatMap (refs : List InputRef) (ws : List UInt32) :
    readOwned refs.length (refs.flatMap writeRef ++ ws) = some (refs, ws) := by
  induction refs with
  | nil => rfl
  | cons ref refs ih => simp [readOwned, writeRef, ih]

/-- The words of an entry. -/
def writeEntry (e : ChunkTx) : List UInt32 :=
  UInt32.ofNat e.rawTx.1.length :: UInt32.ofNat e.prevouts.1.length ::
    UInt32.ofNat e.owned.length :: (pack e.rawTx.1 ++ (pack e.prevouts.1 ++
      e.owned.flatMap writeRef))

/-- And a whole group. -/
theorem readEntry_writeEntry {e : ChunkTx} (he : e.owned.length < 2 ^ 32) (ws : List UInt32) :
    readEntry (writeEntry e ++ ws) = some (e, ws) := by
  have hlen : (UInt32.ofNat e.owned.length).toNat = e.owned.length := UInt32.toNat_ofNat_of_lt' he
  simp [readEntry, writeEntry, readBlob_pack, hlen, readOwned_flatMap]

/-- The hints are read where they are written. -/
theorem readHints_writeHints (hints : Option Host.Hints) (ws : List UInt32) :
    readHints hints.isSome (hints.elim [] Host.writeHints ++ ws) = some ws := by
  cases hints with
  | none => rfl
  | some hints =>
    have hflat : (hints.1.flatMap fun p => p.1.toList ++ p.2.toList).length =
        64 * hints.1.length := by
      induction hints.1 with
      | nil => rfl
      | cons p l ih =>
        rw [List.flatMap_cons, List.length_append, ih, List.length_append, p.1.toList_length,
          p.2.toList_length, List.length_cons]
        omega
    have hlen : (UInt32.ofNat hints.1.length).toNat = hints.1.length :=
      UInt32.toNat_ofNat_of_lt' (lt_of_le_of_lt (by omega) hints.2)
    have hread : readBytes (64 * hints.1.length)
        (pack (hints.1.flatMap fun p => p.1.toList ++ p.2.toList) ++ ws) =
          some (hints.1.flatMap fun p => p.1.toList ++ p.2.toList, ws) := by
      rw [← hflat]
      exact readBytes_pack _ ws
    have husize : 64 * hints.1.length % 2 ^ 32 = 64 * hints.1.length := Nat.mod_eq_of_lt hints.2
    simp only [readHints, Host.writeHints, Option.isSome_some, Option.elim_some, List.cons_append,
      readWord_cons, Option.bind_eq_bind, Option.bind_some, hlen, husize, hread, if_true]

variable {hs : Hashing H} {core : Core}

/-- The loop takes the entries off the stream one by one, and folds over them. -/
theorem chunkLoop_writeEntry {flags : UInt32} {es : List ChunkTx}
    (hes : ∀ e ∈ es, e.owned.length < 2 ^ 32) (out : ChunkOut H) (ws : List UInt32) :
    chunkLoop hs core flags es.length out (es.flatMap writeEntry ++ ws) =
      (es.foldlM (chunkTx hs core flags) out).map fun out => (out, ws) := by
  induction es generalizing out with
  | nil => rfl
  | cons e es ih =>
    obtain ⟨he, hes⟩ := List.forall_mem_cons.mp hes
    rw [List.length_cons, chunkLoop, List.flatMap_cons, List.append_assoc,
      readEntry_writeEntry he, List.foldlM_cons]
    cases hstep : chunkTx hs core flags out e with
    | none => simp [hstep]
    | some out' => simp [hstep, ih hes]

end Guest

/-! ## The groups of a run -/

namespace Host

open ByteStrings WordStream GreedySplit Guest

variable {H : Type} {w : BlockWitness H}

def Group.span (g : Group) : ℕ × ℕ := (g.start, g.stop)

/-- The inputs of the group are of its transaction. -/
def GroupOf (w : BlockWitness H) (g : Group) : Prop :=
  ∀ j, g.start ≤ j → j < g.stop → ∃ inp, w.inputs[j]? = some inp ∧ inp.txIdx = g.txIdx

/-- A group of one input. -/
theorem groupOf_single {i : ℕ} {inp : BlockInput H} (h : w.inputs[i]? = some inp) :
    GroupOf w ⟨inp.txIdx, i, i + 1⟩ := by
  intro j hlo hhi
  obtain rfl : j = i := Nat.le_antisymm (Nat.le_of_lt_succ hhi) hlo
  exact ⟨inp, h, rfl⟩

/-- One input more is in the last group, if that is of its transaction, or in a group of its own. -/
theorem pushInput_spec {gs gs' : List Group} {lo i : ℕ} (hcov : Covers lo (gs.map Group.span) i)
    (hof : ∀ g ∈ gs, GroupOf w g) (h : pushInput w gs i = some gs') :
    Covers lo (gs'.map Group.span) (i + 1) ∧ ∀ g ∈ gs', GroupOf w g := by
  obtain ⟨inp, hinp, h⟩ := Option.bind_eq_some_iff.mp h
  let opened : Group := ⟨inp.txIdx, i, i + 1⟩
  have hopen : Covers lo ((gs ++ [opened]).map Group.span) (i + 1) ∧
      ∀ g ∈ gs ++ [opened], GroupOf w g := by
    rw [List.map_append]
    refine ⟨covers_concat.mpr ⟨hcov, Nat.lt_succ_self i, rfl⟩, ?_⟩
    exact List.forall_mem_append.mpr ⟨hof, by simpa using groupOf_single hinp⟩
  rcases List.eq_nil_or_concat' gs with rfl | ⟨init, g, rfl⟩
  · obtain rfl := Option.some.inj h
    exact hopen
  · rw [List.getLast?_concat] at h
    dsimp only at h
    split at h
    · rename_i hsame
      obtain rfl := Option.some.inj h
      rw [List.map_append] at hcov
      obtain ⟨hinit, hg, hstop⟩ := covers_concat.mp hcov
      obtain ⟨hofInit, hofLast⟩ := List.forall_mem_append.mp hof
      have hlast : GroupOf w g := hofLast g (List.mem_singleton_self g)
      rw [List.dropLast_concat, List.map_append]
      refine ⟨covers_concat.mpr ⟨hinit, ?_, rfl⟩, List.forall_mem_append.mpr ⟨hofInit, ?_⟩⟩
      · exact lt_trans hg (hstop ▸ Nat.lt_succ_self _)
      · intro g' hg'
        obtain rfl := List.mem_singleton.mp hg'
        intro j hlo hhi
        rcases Nat.lt_or_ge j g.stop with hlt | hge
        · exact hlast j hlo hlt
        · obtain rfl : j = i := Nat.le_antisymm (Nat.le_of_lt_succ hhi) (hstop ▸ hge)
          exact ⟨inp, hinp, hsame.symm⟩
    · obtain rfl := Option.some.inj h
      exact hopen

/-- The groups are runs of the run, each of one transaction. -/
theorem chunkGroups_spec {lo hi : ℕ} (hle : lo ≤ hi) {gs : List Group}
    (h : chunkGroups w lo hi = some gs) :
    Covers lo (gs.map Group.span) hi ∧ ∀ g ∈ gs, GroupOf w g := by
  induction hi, hle using Nat.le_induction generalizing gs with
  | base =>
    rw [chunkGroups, Nat.sub_self] at h
    obtain rfl := Option.some.inj h
    exact ⟨rfl, by simp⟩
  | succ i hi ih =>
    have hlen : i + 1 - lo = (i - lo) + 1 := by omega
    have hlast : lo + 1 * (i - lo) = i := by omega
    rw [chunkGroups, hlen, List.range'_concat, hlast, List.foldlM_append] at h
    obtain ⟨gs', hgs', h⟩ := Option.bind_eq_some_iff.mp h
    obtain ⟨hcov, hof⟩ := ih hgs'
    exact pushInput_spec hcov hof (by simpa using h)

/-! ## The entry of a group -/

/-- The inputs of the group, in the order of the block. -/
def Group.inputs (w : BlockWitness H) (g : Group) : List (BlockInput H) :=
  (w.inputs.take g.stop).drop g.start

/-- The inputs of a group say the index of its transaction. -/
theorem GroupOf.txIdx_eq {g : Group} (hg : GroupOf w g) {inp : BlockInput H}
    (h : inp ∈ g.inputs w) : inp.txIdx = g.txIdx := by
  obtain ⟨k, hk⟩ := List.getElem?_of_mem h
  rw [Group.inputs, List.getElem?_drop, List.getElem?_take] at hk
  split at hk
  · rename_i hlt
    obtain ⟨inp', hinp', heq⟩ := hg (g.start + k) (Nat.le_add_right _ _) hlt
    rw [hinp'] at hk
    obtain rfl := Option.some.inj hk
    exact heq
  · cases hk

theorem Group.length_inputs {g : Group} (h : g.stop ≤ w.inputs.length) :
    (g.inputs w).length = g.stop - g.start := by
  rw [Group.inputs, List.length_drop, List.length_take, min_eq_left h]

/-- What the guest reads of a group. -/
structure EntryOf (w : BlockWitness H) (g : Group) (e : ChunkTx) : Prop where
  raw : w.txs[g.txIdx.toNat]? = some e.rawTx
  /-- The outputs that the transaction spends are the ones listed beside it. -/
  blob : w.txPrevouts[g.txIdx.toNat]? = some e.prevouts
  /-- What is said of each coin goes along, input by input. -/
  refs : e.owned = (g.inputs w).map BlockInput.ref

theorem EntryOf.length_owned {g : Group} {e : ChunkTx} (he : EntryOf w g e)
    (h : g.stop ≤ w.inputs.length) : e.owned.length = g.stop - g.start := by
  rw [he.refs, List.length_map, Group.length_inputs h]

/-- In the block's own terms, where the index of a transaction is cut to the last one there is. -/
theorem EntryOf.entryFor {g : Group} {e : ChunkTx} (he : EntryOf w g e) (hg : GroupOf w g)
    (hlt : g.start < g.stop) (h : g.stop ≤ w.inputs.length) : EntryFor w e (g.inputs w) where
  nonempty := by
    intro hnil
    have hlen := Group.length_inputs h
    rw [hnil, List.length_nil] at hlen
    omega
  owned := he.refs
  bytes := by
    intro inp hinp
    obtain ⟨hin, -⟩ := List.getElem?_eq_some_iff.mp he.raw
    have hclamp : w.clampIdx inp = g.txIdx.toNat := by
      rw [BlockWitness.clampIdx, hg.txIdx_eq hinp]
      omega
    exact ⟨g.txIdx.toNat, by simp [BlockWitness.resolve, hclamp, he.raw, he.blob]⟩

/-- What is written for a group are the words of its entry. -/
theorem writeGroup_eq_some {g : Group} {ws : List UInt32} (hle : g.stop ≤ w.inputs.length)
    (h : writeGroup w g = some ws) : ∃ e, EntryOf w g e ∧ ws = writeEntry e := by
  obtain ⟨tx, htx, h⟩ := Option.bind_eq_some_iff.mp h
  obtain ⟨prevouts, hprevouts, h⟩ := Option.bind_eq_some_iff.mp h
  obtain rfl := Option.some.inj h
  refine ⟨⟨tx, prevouts, (g.inputs w).map BlockInput.ref⟩, ⟨htx, hprevouts, rfl⟩, ?_⟩
  rw [writeEntry, List.length_map, Group.length_inputs hle, List.flatMap_map]
  rfl

/-- What is written for all groups are the words of their entries. -/
theorem writeGroups_eq_some {gs : List Group} {body : List (List UInt32)}
    (hle : ∀ g ∈ gs, g.stop ≤ w.inputs.length) (h : gs.mapM (writeGroup w) = some body) :
    ∃ es, List.Forall₂ (EntryOf w) gs es ∧ (∀ e ∈ es, e.owned.length < 2 ^ 32) ∧
      body.flatten = es.flatMap writeEntry := by
  induction gs generalizing body with
  | nil =>
    obtain rfl := Option.some.inj h
    exact ⟨[], .nil, by simp, rfl⟩
  | cons g gs ih =>
    obtain ⟨hg, hgs⟩ := List.forall_mem_cons.mp hle
    rw [List.mapM_cons] at h
    obtain ⟨ws, hws, h⟩ := Option.bind_eq_some_iff.mp h
    obtain ⟨body', hbody, h⟩ := Option.bind_eq_some_iff.mp h
    obtain rfl := Option.some.inj h
    obtain ⟨e, he, rfl⟩ := writeGroup_eq_some hg hws
    obtain ⟨es, hes, hroom, heq⟩ := ih hgs hbody
    have hlt : e.owned.length < 2 ^ 32 := by
      rw [he.length_owned hg]
      exact lt_of_le_of_lt ((Nat.sub_le _ _).trans hg) w.inputs_lt
    refine ⟨e :: es, .cons he hes, List.forall_mem_cons.mpr ⟨hlt, hroom⟩, ?_⟩
    rw [List.flatten_cons, heq, List.flatMap_cons]

/-! ## The payload of a run -/

/-- The entries are those of groups that the run `r` is cut into. -/
structure PayloadOf (hs : Hashing H) (w : BlockWitness H) (r : ℕ × ℕ) (gs : List Group)
    (p : ChunkPayload) : Prop where
  height : p.height = w.height
  blockHash : p.blockHash = w.blockHash hs
  /-- The groups fill the run from its first input to its last. -/
  cover : Covers r.1 (gs.map Group.span) r.2
  /-- In each the inputs are of one transaction. -/
  groups : ∀ g ∈ gs, GroupOf w g
  /-- An entry for each group, in order. -/
  entries : List.Forall₂ (EntryOf w) gs p.txs

variable {hs : Hashing H} {core : Core}

theorem PayloadOf.stop_le {r : ℕ × ℕ} {gs : List Group} {p : ChunkPayload}
    (hp : PayloadOf hs w r gs p) (hr : r.2 ≤ w.inputs.length) {g : Group} (hg : g ∈ gs) :
    g.start < g.stop ∧ g.stop ≤ w.inputs.length := by
  obtain ⟨-, hlt, hle⟩ := hp.cover.bounds (List.mem_map_of_mem hg)
  exact ⟨hlt, hle.trans hr⟩

/-- The guest reads from the stream of a run the payload of that run, and every word of it. -/
theorem chunkProveStream_chunkStream (core : Core) {hints : Option Hints} {r : ℕ × ℕ}
    (hle : r.1 ≤ r.2) (hr : r.2 ≤ w.inputs.length) {ws : List UInt32}
    (h : chunkStream hs w hints r.1 r.2 = some ws) :
    ∃ gs p, PayloadOf hs w r gs p ∧ chunkProveStream hs core hints.isSome ws =
      (chunkProve hs core p).map fun out => (out, []) := by
  obtain ⟨inner, hinner, rfl⟩ := Option.map_eq_some_iff.mp h
  obtain ⟨gs, hgs, hinner⟩ := Option.bind_eq_some_iff.mp hinner
  obtain ⟨body, hbody, hinner⟩ := Option.bind_eq_some_iff.mp hinner
  obtain rfl := Option.some.inj hinner
  obtain ⟨hcov, hof⟩ := chunkGroups_spec hle hgs
  have hstop : ∀ g ∈ gs, g.stop ≤ w.inputs.length := by
    intro g hg
    obtain ⟨-, -, hg⟩ := hcov.bounds (List.mem_map_of_mem hg)
    exact hg.trans hr
  obtain ⟨es, hes, hroom, hflat⟩ := writeGroups_eq_some hstop hbody
  refine ⟨gs, ⟨w.height, w.blockHash hs, es⟩, ⟨rfl, rfl, hcov, hof, hes⟩, ?_⟩
  have hlen : (UInt32.ofNat gs.length).toNat = es.length := by
    have hgroups := (Nat.le_add_left _ _).trans (hcov.length_le.trans hr)
    rw [List.length_map] at hgroups
    rw [UInt32.toNat_ofNat_of_lt' (lt_of_le_of_lt hgroups w.inputs_lt), hes.length_eq]
  have hloop : chunkLoop hs core (blockScriptFlags w.height (w.blockHash hs)) es.length
      ChunkOut.start (es.flatMap writeEntry) =
        (chunkProve hs core ⟨w.height, w.blockHash hs, es⟩).map fun out => (out, []) := by
    rw [← List.append_nil (es.flatMap writeEntry)]
    exact chunkLoop_writeEntry hroom _ _
  simp only [chunkProveStream, readWord_cons, Option.bind_eq_bind, Option.bind_some,
    readArray32_arrayWords, readHints_writeHints, hlen, hflat, hloop]

/-- It is a payload for the inputs of the run. -/
theorem PayloadOf.payloadFor {r : ℕ × ℕ} {gs : List Group} {p : ChunkPayload}
    (hp : PayloadOf hs w r gs p) (hr : r.2 ≤ w.inputs.length) :
    PayloadFor hs w p ((w.inputs.take r.2).drop r.1) where
  height := hp.height
  blockHash := hp.blockHash
  entries := by
    refine ⟨gs.map (Group.inputs w), ?_, ?_⟩
    · rw [← hp.cover.flatMap_slice w.inputs hr, List.flatMap_map, List.flatMap_def]
      rfl
    · have hgroups : ∀ g ∈ gs, GroupOf w g ∧ g.start < g.stop ∧ g.stop ≤ w.inputs.length := by
        intro g hg
        exact ⟨hp.groups g hg, hp.stop_le hr hg⟩
      rw [List.forall₂_map_right_iff]
      apply List.Forall₂.flip
      refine ((List.forall₂_and_left _ _).mpr ⟨hgroups, hp.entries⟩).imp ?_
      intro g e ⟨⟨hg, hlt, hle⟩, he⟩
      exact he.entryFor hg hlt hle

/-! ## Where the wtxids stand -/

/-- The keys of the wtxids. -/
def wtxidKeys (wtxids : List (UInt32 × Bytes32 × UInt32)) : List UInt32 := wtxids.map Prod.fst

/-- A group adds one key, the number of inputs before it in the chunk. -/
theorem chunkTx_keys {flags : UInt32} {out out' : ChunkOut H} {e : ChunkTx}
    (h : chunkTx hs core flags out e = some out') :
    out'.binds.length = out.binds.length + e.owned.length ∧
      wtxidKeys out'.txWtxids = wtxidKeys out.txWtxids ++ [UInt32.ofNat out.binds.length] := by
  obtain ⟨_, -, h⟩ := Option.bind_eq_some_iff.mp h
  obtain ⟨_, -, h⟩ := Option.bind_eq_some_iff.mp h
  obtain ⟨_, -, h⟩ := Option.bind_eq_some_iff.mp h
  dsimp only at h
  split at h
  · obtain rfl := Option.some.inj h
    exact ⟨by simp, by simp [wtxidKeys]⟩
  · cases h

/-- In a chunk, a group's wtxid stands under the number of inputs before it in the run. -/
theorem chunkTxs_keys {gs : List Group} {es : List ChunkTx}
    (hes : List.Forall₂ (EntryOf w) gs es) {lo m hi : ℕ} (hcov : Covers m (gs.map Group.span) hi)
    (hlo : lo ≤ m) (hhi : hi ≤ w.inputs.length) {flags : UInt32} {out out' : ChunkOut H}
    (hlen : out.binds.length = m - lo) (h : es.foldlM (chunkTx hs core flags) out = some out') :
    out'.binds.length = hi - lo ∧ wtxidKeys out'.txWtxids =
      wtxidKeys out.txWtxids ++ gs.map fun g => UInt32.ofNat (g.start - lo) := by
  induction hes generalizing m out with
  | nil =>
    obtain rfl := Option.some.inj h
    obtain rfl : m = hi := hcov
    exact ⟨hlen, by simp⟩
  | @cons g e gs es he _ ih =>
    rw [List.foldlM_cons] at h
    obtain ⟨next, hstep, h⟩ := Option.bind_eq_some_iff.mp h
    obtain ⟨hstart, hlt, hcov⟩ := hcov
    simp only [Group.span] at hstart hlt hcov
    have hstop := (Nat.le_add_right _ _).trans hcov.length_le
    obtain ⟨hbinds, hkeys⟩ := chunkTx_keys hstep
    rw [he.length_owned (hstop.trans hhi)] at hbinds
    obtain ⟨hlen', hkeys'⟩ := ih hcov (by omega) (by omega) h
    refine ⟨hlen', ?_⟩
    rw [hkeys', hkeys, hlen, List.map_cons, hstart, List.append_assoc]
    rfl

/-- The totals of the runs up to `m`: each group's wtxid stands under its first input. -/
structure KeyedAt (w : BlockWitness H) (t : ChunkTotals H) (m : ℕ) (gs : List Group) : Prop where
  /-- There is a bind for each input so far. -/
  length : t.binds.length = m
  cover : Covers 0 (gs.map Group.span) m
  groups : ∀ g ∈ gs, GroupOf w g
  /-- A key counts from the block's first input, and not from the chunk's. -/
  keys : wtxidKeys t.wtxids = gs.map fun g => UInt32.ofNat g.start

/-- A chunk's keys are moved up by the inputs before it. -/
theorem KeyedAt.addChunk {t t' : ChunkTotals H} {r : ℕ × ℕ} {gs gs' : List Group}
    {p : ChunkPayload} {out : ChunkOut H} (hk : KeyedAt w t r.1 gs) (hp : PayloadOf hs w r gs' p)
    (hr : r.2 ≤ w.inputs.length) (hout : chunkProve hs core p = some out)
    (h : Guest.addChunk t out = some t') : KeyedAt w t' r.2 (gs ++ gs') := by
  have hle := (Nat.le_add_right _ _).trans hp.cover.length_le
  obtain ⟨hlen, hkeys⟩ := chunkTxs_keys hp.entries hp.cover le_rfl hr
    (show (ChunkOut.start : ChunkOut H).binds.length = r.1 - r.1 from (Nat.sub_self _).symm) hout
  rw [Guest.addChunk] at h
  split at h
  · obtain rfl := Option.some.inj h
    refine ⟨?_, ?_, List.forall_mem_append.mpr ⟨hk.groups, hp.groups⟩, ?_⟩
    · rw [List.length_append, hk.length, hlen]
      omega
    · rw [List.map_append]
      exact covers_append.mpr ⟨r.1, hk.cover, hp.cover⟩
    · have hshift : wtxidKeys (shiftKeys r.1 out.txWtxids) =
          (wtxidKeys out.txWtxids).map (UInt32.ofNat r.1 + ·) := by
        simp [wtxidKeys, shiftKeys, Function.comp_def]
      have hglobal : (gs'.map fun g => UInt32.ofNat r.1 + UInt32.ofNat (g.start - r.1)) =
          gs'.map fun g => UInt32.ofNat g.start := by
        refine List.map_congr_left fun g hg => ?_
        have hstart : r.1 ≤ g.start := (hp.cover.bounds (List.mem_map_of_mem hg)).1
        rw [← UInt32.ofNat_add, Nat.add_sub_cancel' hstart]
      rw [wtxidKeys, List.map_append, List.map_append, ← hk.keys, ← hglobal, hk.length]
      refine congrArg (wtxidKeys t.wtxids ++ ·) (hshift.trans ?_)
      rw [hkeys, List.map_append, List.map_map]
      rfl
  · cases h

/-- A first input of a transaction starts a group. -/
theorem KeyedAt.mem_keys {t : ChunkTotals H} {m : ℕ} {gs : List Group} (hk : KeyedAt w t m gs)
    {gi : ℕ} (hgi : gi < m) {inp : BlockInput H} (hinp : w.inputs[gi]? = some inp)
    (hfirst : ∀ j < gi, ∀ inp', w.inputs[j]? = some inp' → inp'.txIdx ≠ inp.txIdx) :
    UInt32.ofNat gi ∈ wtxidKeys t.wtxids := by
  obtain ⟨r, hr, hlo, hhi⟩ := hk.cover.exists_mem (Nat.zero_le gi) hgi
  obtain ⟨g, hg, rfl⟩ := List.mem_map.mp hr
  obtain ⟨start, hstart, hsame⟩ := hk.groups g hg g.start le_rfl (lt_of_le_of_lt hlo hhi)
  obtain ⟨inp', hinp', hsame'⟩ := hk.groups g hg gi hlo hhi
  rw [hinp] at hinp'
  obtain rfl := Option.some.inj hinp'
  have hge : gi ≤ g.start := by
    by_contra hlt
    exact hfirst g.start (not_le.mp hlt) start hstart (hsame.trans hsame'.symm)
  rw [hk.keys, Nat.le_antisymm hge hlo]
  exact List.mem_map_of_mem hg

/-! ## The journals of a cut -/

/-- The guest commits `out` for the stream of the run. The build decides for all runs whether there
are hints. -/
def ChunkRun (hs : Hashing H) (core : Core) (w : BlockWitness H) (liftxHint : Bool)
    (hints : ℕ × ℕ → Hints) (r : ℕ × ℕ) (out : ChunkOut H) : Prop :=
  ∃ ws rest, chunkStream hs w (if liftxHint then some (hints r) else none) r.1 r.2 = some ws ∧
    chunkProveStream hs core liftxHint ws = some (out, rest)

variable {liftxHint : Bool} {hints : ℕ × ℕ → Hints}

/-- A run of the guest on a stream is `chunk_prove` on its payload. -/
theorem ChunkRun.payload {r : ℕ × ℕ} {out : ChunkOut H}
    (h : ChunkRun hs core w liftxHint hints r out) (hle : r.1 ≤ r.2)
    (hr : r.2 ≤ w.inputs.length) :
    ∃ gs p, PayloadOf hs w r gs p ∧ chunkProve hs core p = some out := by
  obtain ⟨ws, rest, hws, hprove⟩ := h
  obtain ⟨gs, p, hp, hread⟩ := chunkProveStream_chunkStream core hle hr hws
  have hflag : (if liftxHint then some (hints r) else none).isSome = liftxHint := by
    cases liftxHint <;> rfl
  rw [hflag, hprove] at hread
  obtain ⟨out', hout, heq⟩ := Option.map_eq_some_iff.mp hread.symm
  exact ⟨gs, p, hp, hout.trans (congrArg some (Prod.mk.inj heq).1)⟩

/-- So it goes chunk by chunk. -/
theorem addChunks_keyed {runs : List (ℕ × ℕ)} {outs : List (ChunkOut H)} {m hi : ℕ}
    (hcov : Covers m runs hi) (hhi : hi ≤ w.inputs.length)
    (hruns : List.Forall₂ (ChunkRun hs core w liftxHint hints) runs outs)
    {t t' : ChunkTotals H} {gs : List Group} (hk : KeyedAt w t m gs)
    (h : outs.foldlM addChunk t = some t') : ∃ gs, KeyedAt w t' hi gs := by
  induction hruns generalizing m t gs with
  | nil =>
    obtain rfl := Option.some.inj h
    obtain rfl : m = hi := hcov
    exact ⟨gs, hk⟩
  | @cons r out runs outs hrun _ ih =>
    obtain ⟨rfl, hlt, hcov⟩ := hcov
    have hr := ((Nat.le_add_right _ _).trans hcov.length_le).trans hhi
    rw [List.foldlM_cons] at h
    obtain ⟨next, hstep, h⟩ := Option.bind_eq_some_iff.mp h
    obtain ⟨gs', p, hp, hout⟩ := hrun.payload hlt.le hr
    exact ih hcov (hk.addChunk hp hr hout hstep) h

/-- The payloads of a cut are those of the parts. -/
theorem payloads_of_runs {runs : List (ℕ × ℕ)} {outs : List (ChunkOut H)} {m hi : ℕ}
    (hcov : Covers m runs hi) (hhi : hi ≤ w.inputs.length)
    (hruns : List.Forall₂ (ChunkRun hs core w liftxHint hints) runs outs) :
    ∃ payloads, List.Forall₂ (PayloadFor hs w) payloads
        (runs.map fun r => (w.inputs.take r.2).drop r.1) ∧
      List.Forall₂ (fun p out => chunkProve hs core p = some out) payloads outs := by
  induction hruns generalizing m with
  | nil => exact ⟨[], .nil, .nil⟩
  | @cons r out runs outs hrun _ ih =>
    obtain ⟨rfl, hlt, hcov⟩ := hcov
    have hr := ((Nat.le_add_right _ _).trans hcov.length_le).trans hhi
    obtain ⟨gs, p, hp, hout⟩ := hrun.payload hlt.le hr
    obtain ⟨payloads, hfor, houts⟩ := ih hcov
    exact ⟨p :: payloads, .cons (hp.payloadFor hr) hfor, .cons hout houts⟩

/-- The chunks of a cut are of the block's own inputs. -/
theorem segmentedBy_runs {runs : List (ℕ × ℕ)} {outs : List (ChunkOut H)}
    (hcov : Covers 0 runs w.inputs.length)
    (hruns : List.Forall₂ (ChunkRun hs core w liftxHint hints) runs outs) :
    SegmentedBy hs core w outs := by
  obtain ⟨payloads, hfor, houts⟩ := payloads_of_runs hcov le_rfl hruns
  refine ⟨payloads, _, ?_, hfor, houts⟩
  rw [← List.flatMap_def, hcov.flatMap_slice w.inputs le_rfl, List.take_length, List.drop_zero]

/-- What the totals hold at `gi` is what the input's transaction, with its outputs, gives there. -/
structure HoldsInput (hs : Hashing H) (core : Core) (w : BlockWitness H) (t : ChunkTotals H)
    (gi : ℕ) (inp : BlockInput H) (raw prevouts : Blob) (tx : Transaction) : Prop where
  /-- The transaction is the one the entry of the input resolves to. -/
  bytes : ∃ ti, w.resolve inp = some (ti, raw, prevouts)
  decoded : core.unserializeTx raw.1 = some tx
  /-- The bind is of its bytes, its outputs, the flags and what is said of the coin. -/
  bindAt : t.binds[gi]? =
    some (inputBindFrom hs (txBind hs raw.1 prevouts.1 (w.flags hs)) inp.ref)
  /-- The leaf is what `verify_input` gives for them, which has accepted. -/
  leafAt : ∃ r leaf, verifyInput hs core raw.1 inp.ref prevouts.1 (w.flags hs) = some (r, leaf) ∧
    t.leaves[gi]? = some leaf
  /-- Sequence number and version are read off the transaction, for the relative lock times. -/
  seqAt : t.seqs[gi]? = some ((tx.vin[inp.inputIdx.toNat]?).elim 0xFFFFFFFF TxIn.nSequence)
  verAt : t.vers[gi]? = some tx.version.toInt32

/-- A row of an input holds what is the input's. -/
theorem holdsInput_of_row {t : ChunkTotals H} {rows : List (Row H)}
    (ht : Traced hs core rows t) {gi : ℕ} {row : Row H} (hrow : rows[gi]? = some row)
    {inp : BlockInput H} (hfor : RowFor hs core w inp row) :
    ∃ tx, HoldsInput hs core w t gi inp row.rawTx row.prevouts tx := by
  obtain ⟨r, hr⟩ := hfor.verified
  obtain ⟨tx, htx, -⟩ := Option.bind_eq_some_iff.mp hr
  refine ⟨tx, hfor.bytes, htx, ?_, ⟨r, row.leaf, ?_, ?_⟩, ?_, ?_⟩
  · rw [ht.binds, List.getElem?_map, hrow, Option.map_some, Row.bind, hfor.flags, hfor.ref]
  · rw [← hfor.flags, ← hfor.ref]
    exact hr
  · rw [ht.leaves, List.getElem?_map, hrow, Option.map_some]
  · rw [ht.seqs, List.getElem?_map, hrow, Option.map_some, Row.seq, htx, hfor.ref]
    rfl
  · rw [ht.vers, List.getElem?_map, hrow, Option.map_some, Row.ver, htx]
    rfl

/-- However the inputs are cut into runs, the totals of the chunks have at each position what is of
the input there, and a wtxid under the first input of each transaction. -/
theorem chunk_streams_agree {runs : List (ℕ × ℕ)} {outs : List (ChunkOut H)} {t : ChunkTotals H}
    (hcov : Covers 0 runs w.inputs.length)
    (hruns : List.Forall₂ (ChunkRun hs core w liftxHint hints) runs outs)
    (h : addChunks outs = some t) :
    (t.binds.length = w.inputs.length ∧ t.leaves.length = w.inputs.length ∧
      t.seqs.length = w.inputs.length ∧ t.vers.length = w.inputs.length) ∧
    ∀ gi inp, w.inputs[gi]? = some inp → ∃ raw prevouts tx,
      HoldsInput hs core w t gi inp raw prevouts tx ∧
      ((∀ j < gi, ∀ inp', w.inputs[j]? = some inp' → inp'.txIdx ≠ inp.txIdx) →
        ∃ info, txWtxidInfo core raw.1 = some info ∧
          t.wtxids.reverse.lookup (UInt32.ofNat gi) = some info) := by
  obtain ⟨rows, hexact⟩ := (segmentedBy_runs hcov hruns).exact h
  have hlen : rows.length = w.inputs.length := hexact.source.length_eq.symm
  refine ⟨?_, ?_⟩
  · rw [hexact.binds, hexact.leaves, hexact.seqs, hexact.vers]
    simp only [List.length_map, hlen, and_self]
  intro gi inp hinp
  obtain ⟨hgi, hget⟩ := List.getElem?_eq_some_iff.mp hinp
  have hrow : rows[gi]? = some (rows.get ⟨gi, by omega⟩) := List.getElem?_eq_getElem _
  have hfor : RowFor hs core w inp (rows.get ⟨gi, by omega⟩) := by
    rw [← hget]
    exact hexact.source.get hgi (by omega)
  obtain ⟨tx, htx⟩ := holdsInput_of_row hexact.toTraced hrow hfor
  refine ⟨_, _, tx, htx, ?_⟩
  intro hfirst
  obtain ⟨gs, hk⟩ := addChunks_keyed hcov le_rfl hruns
    (⟨rfl, rfl, by simp, rfl⟩ : KeyedAt w ChunkTotals.start 0 []) h
  obtain ⟨⟨key, info⟩, hmem, hkey⟩ := List.mem_map.mp (hk.mem_keys hgi hinp hfirst)
  cases hlookup : t.wtxids.reverse.lookup (UInt32.ofNat gi) with
  | none =>
    have hnone := List.lookup_eq_none_iff.mp hlookup _ (List.mem_reverse.mpr hmem)
    exact absurd hkey.symm (by simpa using hnone)
  | some info' => exact ⟨info', hexact.wtxid gi _ info' hrow hlookup, rfl⟩

/-! ## The spending block, an input a run -/

section

open OpTrue

/-- The stream of a run of the spending block. -/
def spendStream (r : ℕ × ℕ) : List UInt32 :=
  (chunkStream idealHashing (spendBlock 200 1) none r.1 r.2).getD []

/-- What the guest commits for it. -/
def spendRun (r : ℕ × ℕ) : ChunkOut Bytes × List UInt32 :=
  (chunkProveStream idealHashing OpTrue.core false (spendStream r)).getD (ChunkOut.start, [])

theorem chunkRun_spendBlock {r : ℕ × ℕ}
    (hstream : (chunkStream idealHashing (spendBlock 200 1) none r.1 r.2).isSome = true)
    (hread : (chunkProveStream idealHashing OpTrue.core false (spendStream r)).isSome = true) :
    ChunkRun idealHashing OpTrue.core (spendBlock 200 1) false (fun _ => ⟨[], by decide⟩) r
      (spendRun r).1 :=
  ⟨spendStream r, (spendRun r).2,
    (Option.getD_of_ne_none (Option.isSome_iff_ne_none.mp hstream) _).symm,
    (Option.getD_of_ne_none (Option.isSome_iff_ne_none.mp hread) _).symm⟩

/-- The spending block in two runs of one input each. -/
theorem chunk_streams_agree_spendBlock :
    ∃ t, addChunks [(spendRun (0, 1)).1, (spendRun (1, 2)).1] = some t ∧
      ((t.binds.length = 2 ∧ t.leaves.length = 2 ∧ t.seqs.length = 2 ∧ t.vers.length = 2) ∧
      ∀ gi inp, (spendBlock 200 1).inputs[gi]? = some inp → ∃ raw prevouts tx,
        HoldsInput idealHashing OpTrue.core (spendBlock 200 1) t gi inp raw prevouts tx ∧
        ((∀ j < gi, ∀ inp', (spendBlock 200 1).inputs[j]? = some inp' →
            inp'.txIdx ≠ inp.txIdx) →
          ∃ info, txWtxidInfo OpTrue.core raw.1 = some info ∧
            t.wtxids.reverse.lookup (UInt32.ofNat gi) = some info)) := by
  have hruns : List.Forall₂ (ChunkRun idealHashing OpTrue.core (spendBlock 200 1) false
      (fun _ => ⟨[], by decide⟩)) [(0, 1), (1, 2)] [(spendRun (0, 1)).1, (spendRun (1, 2)).1] :=
    .cons (chunkRun_spendBlock (by decide +kernel) (by decide +kernel))
      (.cons (chunkRun_spendBlock (by decide +kernel) (by decide +kernel)) .nil)
  obtain ⟨t, ht⟩ := Option.isSome_iff_exists.mp
    (show (addChunks [(spendRun (0, 1)).1, (spendRun (1, 2)).1]).isSome = true by decide +kernel)
  have hcov : Covers 0 [(0, 1), (1, 2)] (spendBlock 200 1).inputs.length :=
    ⟨rfl, Nat.zero_lt_one, rfl, Nat.one_lt_two, rfl⟩
  exact ⟨t, ht, chunk_streams_agree hcov hruns ht⟩

end

end Host
end Hazync
