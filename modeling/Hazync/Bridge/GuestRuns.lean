import Hazync.Bridge.ChainHashes
import Hazync.Bridge.Replay
import Hazync.Bridge.RewindOverwrite
import Hazync.Bridge.SameLeaves
import Hazync.Guest.NoInflation

/-!
# The guest after a chain is where the bridge is

A bundle says what the state before its block is, field by field, and the bridge takes these fields
from its own forest, window and header fields. Whatever witnesses a run of the guest was made from,
if it went through the bridge's blocks from genesis it ends in the state that the bridge writes into
its next bundle, at retarget heights as well (`Replayed.guest_agrees`).

## Who says what

The bridge proves nothing, and a bundle that is wrong is one that the guest refuses. What is said
here is the other way round. Where the guest did go through witnesses of the bridge's blocks,
whoever made them, its state is the bridge's: the hashes bind the leaves (`LeafInjective`,
`NodeInjective`), and the deletes and adds of a block are fixed by the block.

`Meets` is the relation between the two states, and `Meets.advance` the step of the simulation. The
times and the fields of the header are compared one by one; the start of the difficulty period is
where they could part, since bridge and guest each decide when it is.
-/

namespace Hazync
namespace Bridge

open ByteStrings
open Accumulator (Forest Stump normalize)
open Guest (Accepts Boundary Checked Core Run addAll_commits deleteAll_sound genesisTip
  medianTimePast pushTime)

variable {H : Type}

/-! ## What a bundle says of the state before its block -/

/-- `in_tip` to `in_recent` of the next bundle, where the next block names `tip`. -/
def Standing.inBoundary (s : Standing H) (tip : Bytes32) : Option (Boundary H) := do
  let stump ← wireStump s.forest
  some
    { tipHash := tip
      roots := stump.roots
      leaves := stump.numLeaves
      nbits := s.nbits
      time := s.time
      epochStart := s.epochStart
      recent := s.win }

/-- The witnesses are of these blocks, from height 1 on. -/
inductive WitnessesOf (hs : Hashing H) (core : Core) : List Block → List (Checked H) → Prop
  | nil : WitnessesOf hs core [] []
  | snoc {blocks : List Block} {checked : List (Checked H)} {block : Block} {x : Checked H}
      (h : WitnessesOf hs core blocks checked)
      (hlast : WitnessOf hs core (UInt32.ofNat (blocks.length + 1)) block x.1) :
      WitnessesOf hs core (blocks ++ [block]) (checked ++ [x])

section

variable {hs : Hashing H} {core : Core} {blocks : List Block} {block : Block}
  {checked : List (Checked H)}

theorem WitnessesOf.eq_nil (h : WitnessesOf hs core [] checked) : checked = [] := by
  generalize hnil : ([] : List Block) = bs at h
  cases h with
  | nil => rfl
  | snoc => exact absurd hnil.symm (List.append_ne_nil_of_right_ne_nil _ (List.cons_ne_nil _ _))

theorem WitnessesOf.eq_snoc (h : WitnessesOf hs core (blocks ++ [block]) checked) :
    ∃ before x, checked = before ++ [x] ∧ WitnessesOf hs core blocks before ∧
      WitnessOf hs core (UInt32.ofNat (blocks.length + 1)) block x.1 := by
  generalize heq : blocks ++ [block] = all at h
  cases h with
  | nil => exact absurd heq (List.append_ne_nil_of_right_ne_nil _ (List.cons_ne_nil _ _))
  | @snoc blocks' before block' x hbefore hlast =>
    obtain ⟨rfl, hone⟩ := List.append_inj' heq rfl
    obtain rfl := (List.cons.inj hone).1
    exact ⟨before, x, rfl, hbefore, hlast⟩

/-! ## The header -/

theorem slice_of_header {field : Bytes} (pre post : Bytes) {lo hi : ℕ}
    (hheader : block.header = pre ++ (field ++ post)) (hlo : lo = pre.length)
    (hhi : hi = pre.length + field.length) : slice block.header lo hi = field := by
  have hfield := slice?_field pre post hheader hlo hhi
  unfold slice? at hfield
  exact Option.some.inj (Option.ite_none_right_eq_some.mp hfield).2

theorem slice_prevBlockhash (block : Block) :
    slice block.header 4 36 = block.prevBlockhash.toList := by
  refine slice_of_header (le32 block.version.toUInt32) (block.merkleRoot.toList ++
    (le32 block.time ++ (le32 block.bits ++ le32 block.nonce))) ?_ ?_ ?_
  · unfold Block.header
    simp only [List.append_assoc]
  · simp
  · simp

theorem blockTime_of_header {w : Guest.BlockWitness H} (h : w.header = block.header) :
    w.blockTime = block.time := by
  have htime : slice block.header 68 72 = le32 block.time := by
    refine slice_of_header (le32 block.version.toUInt32 ++ (block.prevBlockhash.toList ++
      block.merkleRoot.toList)) (le32 block.bits ++ le32 block.nonce) ?_ ?_ ?_
    · unfold Block.header
      simp only [List.append_assoc]
    · simp
    · simp
  rw [Guest.BlockWitness.blockTime, h, htime, ofNat_ofLe_le32]

theorem nbits_of_header {w : Guest.BlockWitness H} (h : w.header = block.header) :
    w.nbits = block.bits := by
  have hbits : slice block.header 72 76 = le32 block.bits := by
    refine slice_of_header (le32 block.version.toUInt32 ++ (block.prevBlockhash.toList ++
      (block.merkleRoot.toList ++ le32 block.time))) (le32 block.nonce) ?_ ?_ ?_
    · unfold Block.header
      simp only [List.append_assoc]
    · simp
    · simp
  rw [Guest.BlockWitness.nbits, h, hbits, ofNat_ofLe_le32]

end

/-! ## A round of the walk -/

section

variable [DecidableEq H] {hs : Hashing H} {core : Core} {block : Block} {s s' : Standing H}
  {u : BlockUndo H} {hash : String} {F : Forest H} {stump : Stump H}

omit [DecidableEq H] in
/-- What the bridge writes of its forest commits to the leaves. -/
theorem commits_of_wireStump (hF : Forest.Kept hs.parent F F.leaves)
    (hroom : F.leaves.length < 2 ^ 64) (h : wireStump F = some stump) :
    stump.Commits hs.parent F.leaves := by
  obtain ⟨roots, hroots, heq⟩ := Option.bind_eq_some_iff.mp h
  obtain rfl := Option.some.inj heq
  refine ⟨?_, ?_⟩
  · rw [UInt64.toNat_ofNat', Nat.mod_eq_of_lt hroom]
  · rw [← Forest.roots_of_isCache hF.cache, hroots]
    rfl

omit [DecidableEq H] in
/-- Two accumulators of the same leaves have the same roots and the same count. -/
theorem eq_of_commits {parent : H → H → H} {L : List H} {stump' : Stump H}
    (h : stump.Commits parent L) (h' : stump'.Commits parent L) :
    normalize stump.roots = normalize stump'.roots ∧ stump.numLeaves = stump'.numLeaves := by
  refine ⟨?_, UInt64.toNat_inj.mp (h.numLeaves.trans h'.numLeaves.symm)⟩
  exact Option.some.inj (h.roots.symm.trans h'.roots)

/-- The header fields, the window and the times after a round. -/
theorem Standing.advance_fields (h : s.advance hs core hash block = some (s', u)) :
    s'.nbits = block.bits ∧ s'.time = block.time ∧
      s'.epochStart = (if s'.done % 2016 = 0 then block.time else s.epochStart) ∧
      s'.win = pushTime s.win block.time ∧
      s'.blockMtp = s.blockMtp ++ [medianTimePast s.win] := by
  unfold Standing.advance at h
  rw [Option.ite_none_left_eq_some] at h
  obtain ⟨-, h⟩ := h
  simp only [Option.bind_eq_bind, Option.bind_eq_some_iff, Option.some.injEq] at h
  obtain ⟨⟨win, blockMtp⟩, hpush, w, -, coinbase, -, ⟨wit, prior, smt⟩, -, heq⟩ := h
  obtain ⟨rfl, -⟩ := Prod.mk.inj heq
  obtain ⟨mtp, hmtp, heq⟩ := Option.bind_eq_some_iff.mp hpush
  obtain ⟨rfl, rfl⟩ := Prod.mk.inj (Option.some.inj heq)
  refine ⟨rfl, rfl, rfl, rfl, ?_⟩
  unfold medianTimePast
  unfold medianU32 at hmtp
  rw [hmtp]
  rfl

theorem Replayed.walked {blocks : List Block} (h : Replayed hs core blocks s) :
    Walked hs core blocks s.toResident := by
  induction h with
  | genesis => exact .genesis
  | block _ hadvance ih => exact .block ih (Standing.advance_toResident hadvance)

end

/-! ## Guest and bridge side by side -/

section

variable [DecidableEq H] {hs : Hashing H} {core : Core} {blocks : List Block} {block : Block}
  {checked : List (Checked H)} {x : Checked H} {s s' : Standing H} {u : BlockUndo H}
  {hash : String} {b b' b₀ : Boundary H} {coins coins' : Utxo}

/-- The guest's state `b` is over the leaves of the bridge's forest, and says what the bridge says
    of the chain. -/
structure Meets (hs : Hashing H) (blocks : List Block) (s : Standing H) (b : Boundary H) :
    Prop where
  /-- The stump of the state has the number of the leaves and their roots. -/
  commits : b.stump.Commits hs.parent s.forest.leaves
  /-- The tip hash is that of the bridge's last block. -/
  tip : hashAt hs blocks blocks.length = some b.tipHash
  linked : Linked hs blocks
  nbits : s.nbits = b.nbits
  time : s.time = b.time
  epochStart : s.epochStart = b.epochStart
  /-- The last eleven times, of which the next median is taken. -/
  recent : s.win = b.recent

omit [DecidableEq H] in
theorem Meets.genesis : Meets hs [] (.genesis hs) genesisTip where
  commits := Stump.Commits.empty.congr rfl rfl
  tip := rfl
  linked := .nil
  nbits := rfl
  time := rfl
  epochStart := rfl
  recent := rfl

omit [DecidableEq H] in
theorem Meets.agrees (h : Meets hs blocks s b) (hagrees : b.Agrees b') : Meets hs blocks s b' := by
  obtain ⟨htip, hroots, hleaves, hnbits, htime, hepoch, hrecent⟩ := hagrees
  exact
    { commits := h.commits.congr hleaves.symm hroots.symm
      tip := htip ▸ h.tip
      linked := h.linked
      nbits := h.nbits.trans hnbits
      time := h.time.trans htime
      epochStart := h.epochStart.trans hepoch
      recent := h.recent.trans hrecent }

omit [DecidableEq H] in
/-- What is written into the next bundle is the state the guest is in. -/
theorem Meets.inBoundary (h : Meets hs blocks s b)
    (hF : Forest.Kept hs.parent s.forest s.forest.leaves) :
    ∃ b', s.inBoundary b.tipHash = some b' ∧ b.Agrees b' := by
  obtain ⟨stump, hstump⟩ := exists_wireStump hF
  obtain ⟨hroots, hleaves⟩ :=
    eq_of_commits h.commits (commits_of_wireStump hF h.commits.length_lt hstump)
  refine ⟨⟨b.tipHash, stump.roots, stump.numLeaves, s.nbits, s.time, s.epochStart, s.win⟩, ?_, rfl,
    hroots, hleaves, h.nbits.symm, h.time.symm, h.epochStart.symm, h.recent.symm⟩
  unfold Standing.inBoundary
  rw [hstump]
  rfl

/-- **One block further.** The guest has accepted a witness of the block, so it made of the
    accumulator what its own rules say; the bridge made of its forest what `updateUtxo` says. Both
    come to the leaves of the coins that are unspent after the block, in one order. -/
theorem Meets.advance (h : Meets hs blocks s b) (hinv : WalkInv hs blocks coins s.toResident)
    (hleaf : hs.LeafInjective) (hnode : hs.NodeInjective) (hscripts : KnowsSpendable core)
    (hchain : ValidChain core blocks coins) (hroom : coins.entries.length ≤ 2 ^ 32)
    (hroom' : coins'.entries.length ≤ 2 ^ 32)
    (hblock : ConnectBlock core coins (UInt32.ofNat (blocks.length + 1)) block coins')
    (hadvance : s.advance hs core hash block = some (s', u))
    (hwit : WitnessOf hs core (UInt32.ofNat (blocks.length + 1)) block x.1)
    (haccepts : Accepts hs core b x) :
    Meets hs (blocks ++ [block]) s' (b.next x.1.height x.2) := by
  obtain ⟨hext, chunks, cb, views, t, stump, hval⟩ := haccepts.validated
  obtain ⟨given, -, hr, -⟩ := haccepts
  obtain ⟨-, htip, hnbits, htime⟩ := Guest.validateBlock_header hr
  rw [nbits_of_header hwit.header] at hnbits
  rw [blockTime_of_header hwit.header] at htime
  have hround := Standing.advance_toResident hadvance
  obtain ⟨hnbits', htime', hepoch', hwin', hmtp'⟩ := s.advance_fields hadvance
  -- the forest
  obtain ⟨hheight, hnat, hlength, hstart⟩ := hinv.start hchain hround
  obtain ⟨-, mtp, w, -, hbuild, hforest, hutxo, -⟩ := Bridge.advance_eq_some hround
  have hinv' := hinv.advance hleaf hchain hroom hblock hround
  rw [hinv.utxo] at hbuild
  have hmtp : s'.blockMtp[s'.done.toNat]? = some (medianTimePast b.recent) := by
    rw [hnat, hmtp', ← hinv.blockMtp, h.recent]
    exact List.getElem?_concat_length
  rw [← hheight] at hblock hwit
  have hprev : x.1.rootPrev.Commits hs.parent s.forest.beginJournal.leaves :=
    h.commits.congr hext.leaves hext.roots
  have hleaves := hstart.guest_leaves hleaf hnode hscripts (by rw [hstart.length]; exact hroom)
    hblock hmtp hbuild hwit hval hprev
  have hroots : s'.forest.leaves = w.forest.leaves := by rw [hforest]; rfl
  have hbound : w.forest.leaves.length < 2 ^ 64 := by
    rw [← hroots, hinv'.tracks.length, hinv'.utxo]
    omega
  obtain ⟨hdeleted, -⟩ := deleteAll_sound hnode hprev hval.deletes
  have hadded := addAll_commits hdeleted (hleaves ▸ hbound)
  rw [← hleaves, ← hroots] at hadded
  exact
    { commits := by
        refine hadded.congr ?_ ?_
        · exact hval.rootNextLeaves.trans (by rw [hval.internal_spends.2])
        · have hnorm := hval.rootNextRoots
          rw [hval.internal_spends.2] at hnorm
          show normalize x.2.rootNextRoots = normalize _
          rw [hnorm, Accumulator.normalize_eq_iff]
          exact Accumulator.join_getElem?_normalize _
      tip := by
        rw [List.length_append, List.length_singleton, hashAt_concat, Block.hash, ← hwit.header]
        exact congrArg some htip.symm
      linked := by
        refine linked_concat.mpr ⟨h.linked, h.tip.trans (congrArg some ?_)⟩
        have hnamed := hext.prevhash
        rw [hwit.header, slice_prevBlockhash] at hnamed
        exact (List.Vector.toList_injective hnamed).symm
      nbits := hnbits'.trans hnbits.symm
      time := htime'.trans htime.symm
      epochStart := by
        have hsame : s'.done = x.1.height := hwit.height.symm
        rw [hepoch', h.epochStart, ← htime, hsame]
        rfl
      recent := by
        rw [hwin', h.recent, ← htime]
        rfl }

/-- **Wherever a run of the guest has been through the bridge's blocks, it is where the bridge is.**
    By induction along the blocks, with `Meets.advance` for each. -/
theorem Replayed.meets (h : Replayed hs core blocks s) (hleaf : hs.LeafInjective)
    (hnode : hs.NodeInjective) (hscripts : KnowsSpendable core)
    (hchain : ValidChain core blocks coins) (hfit : CoinsFit core blocks)
    (hfirst : Boundary.Agrees b₀ genesisTip) (hwits : WitnessesOf hs core blocks checked)
    (hrun : Run hs core b₀ checked b) : Meets hs blocks s b := by
  induction h generalizing checked b coins with
  | genesis =>
    obtain rfl := hwits.eq_nil
    obtain rfl := hrun.eq_of_nil
    exact Meets.genesis.agrees hfirst.symm
  | @block blocks s s' hash block u hreplayed hadvance ih =>
    obtain ⟨before, x, rfl, hbefore, hlast⟩ := hwits.eq_snoc
    obtain ⟨c, c', hrun', hagrees, haccepts, rfl⟩ := hrun.eq_snoc
    obtain ⟨coins₀, hchain₀, hblock⟩ := hchain.last
    have hpre : CoinsFit core blocks := fun pre coins hle =>
      hfit pre coins (hle.trans (List.prefix_append _ _))
    have hmeets := (ih hchain₀ hpre hbefore hrun').agrees hagrees
    refine hmeets.advance (hreplayed.walked.inv hleaf hchain₀ hpre) hleaf hnode hscripts hchain₀ ?_
      ?_ hblock hadvance hlast haccepts
    · exact hfit blocks coins₀ (List.prefix_append _ _) hchain₀
    · exact hfit _ coins (List.prefix_refl _) hchain

/-- **The state of the guest is the one in the bridge's next bundle**, and its roots are those of
    the bridge's forest. So a bundle of the next block is one that the guest can go on from. -/
theorem Replayed.guest_agrees (h : Replayed hs core blocks s) (hleaf : hs.LeafInjective)
    (hnode : hs.NodeInjective) (hscripts : KnowsSpendable core)
    (hchain : ValidChain core blocks coins) (hfit : CoinsFit core blocks)
    (hfirst : Boundary.Agrees b₀ genesisTip) (hwits : WitnessesOf hs core blocks checked)
    (hrun : Run hs core b₀ checked b) :
    b.stump.Commits hs.parent s.forest.leaves ∧ Linked hs blocks ∧
      hashAt hs blocks blocks.length = some b.tipHash ∧
      ∃ b', s.inBoundary b.tipHash = some b' ∧ b.Agrees b' := by
  have hmeets := h.meets hleaf hnode hscripts hchain hfit hfirst hwits hrun
  have hinv := h.walked.inv hleaf hchain hfit
  exact ⟨hmeets.commits, hmeets.linked, hmeets.tip,
    hmeets.inBoundary ⟨rfl, hinv.tracks.cache.cache⟩⟩

end

/-! ## The first two blocks -/

section

variable [DecidableEq H] {hs : Hashing H} {core : Core} {blocks : List Block}

/-- The bridge gets through blocks that have a coinbase alone. Nothing is spent, and the heights are
    below the first one that overwrites. -/
theorem exists_replayed (hblocks : ∀ block ∈ blocks, ∃ coinbase, block.txdata = [coinbase])
    (hlen : blocks.length < 91842) : ∃ s, Replayed hs core blocks s ∧ s.win ≠ [] := by
  induction blocks using List.reverseRecOn with
  | nil => exact ⟨.genesis hs, .genesis, by simp [Standing.genesis, Resident.genesis]⟩
  | append_singleton blocks block ih =>
    rw [List.length_append, List.length_singleton] at hlen
    obtain ⟨s, hreplayed, hwin⟩ :=
      ih (fun b hb => hblocks b (List.mem_append_left _ hb)) (by omega)
    obtain ⟨coinbase, hblock⟩ := hblocks block (List.mem_append_right _ (List.mem_singleton_self _))
    obtain ⟨hexact, hdone⟩ := hreplayed.exact
    have hnext : (s.done + 1).toNat < 91842 := by
      rw [UInt32.toNat_add, UInt32.toNat_one, Nat.mod_eq_of_lt (by omega)]
      omega
    obtain ⟨hfirst, hsecond⟩ := ne_of_early hnext
    have hmax : s.done ≠ 0xffffffff := by
      intro heq
      rw [heq] at hdone
      have hmaxNat : (0xffffffff : UInt32).toNat = 4294967295 := rfl
      omega
    have hbuild : ∀ mtp, ∃ w, buildBlockCarried hs core s.utxo (s.blockMtp ++ [mtp]) (s.done + 1)
        block s.forest.beginJournal = some w := by
      intro mtp
      have hforest : Forest.Kept hs.parent s.forest.beginJournal s.forest.beginJournal.leaves :=
        ⟨rfl, hexact.sound.forest.cache⟩
      obtain ⟨w, hw, -⟩ :=
        exists_buildBlockCarried hblock (overwrittenHeight_of_early hnext) hforest
      exact ⟨w, hw⟩
    have hover : overwriteOf s.smt (core.getHash coinbase)
        (s.done + 1 = 91842 ∨ s.done + 1 = 91880) = some none := by
      unfold overwriteOf
      simp [hfirst, hsecond]
    obtain ⟨s', u, hadvance, -, hwin', -⟩ := Process.exists_advance (p := ⟨s, .empty, none, []⟩)
      0 "" hblock hmax hwin hbuild hover
    exact ⟨s', hreplayed.block hadvance, hwin'⟩

end

section

open Guest.OpTrue

def firstBlock : Block where
  version := 1
  prevBlockhash := Guest.GENESIS_HASH
  merkleRoot := firstTxid
  time := spendMtp
  bits := 0x1d00ffff
  nonce := 0
  txdata := [firstCoinbase]

def laterBlock : Block where
  version := 1
  prevBlockhash := nullHash
  merkleRoot := laterTxid
  time := 1231469744
  bits := 0x1d00ffff
  nonce := 0
  txdata := [laterCoinbase]

theorem unserialize_firstCoinbase :
    core.unserializeTx firstCoinbase.serialize = some firstCoinbase := by decide +kernel

theorem unserialize_laterCoinbase :
    core.unserializeTx laterCoinbase.serialize = some laterCoinbase := by decide +kernel

theorem firstBlock_witness (root : Bytes) (wit : Guest.SmtWitness Bytes) :
    WitnessOf idealHashing core 1 firstBlock (block1.withSmt root wit) where
  header := rfl
  txs := .cons ⟨_, unserialize_firstCoinbase, rfl, rfl, rfl⟩ .nil
  grandfathered h := absurd h (by decide)
  height := rfl

theorem laterBlock_witness (root : Bytes) (wit : Guest.SmtWitness Bytes) :
    WitnessOf idealHashing core 2 laterBlock (block2.withSmt root wit) where
  header := rfl
  txs := .cons ⟨_, unserialize_laterCoinbase, rfl, rfl, rfl⟩ .nil
  grandfathered h := absurd h (by decide)
  height := rfl

theorem knowsSpendable_opTrue : KnowsSpendable core := by
  intro spk
  show decide _ = !decide _
  rw [decide_not, Bool.not_not]

def firstCoins : Utxo := SortedMap.insertAll .empty (spendableOutputs core 1 true firstCoinbase)

theorem firstBlock_connects : ConnectBlock core .empty 1 firstBlock firstCoins where
  txids := List.nodup_singleton _
  bip30 _ _ _ _ := SortedMap.get?_empty
  txs := rfl

def laterCoins : Utxo := firstCoins.insertAll (spendableOutputs core 2 true laterCoinbase)

theorem laterBlock_connects : ConnectBlock core firstCoins 2 laterBlock laterCoins where
  txids := List.nodup_singleton _
  bip30 := by decide +kernel
  txs := rfl

theorem validChain_firstBlocks : ValidChain core [firstBlock, laterBlock] laterCoins :=
  .connect (.connect .genesis firstBlock_connects) laterBlock_connects

theorem coinsFit_firstBlocks : CoinsFit core [firstBlock, laterBlock] := by
  intro pre coins hpre hchain
  have hinit : pre ∈ [firstBlock, laterBlock].inits := (List.mem_inits pre _).mpr hpre
  simp only [List.inits, List.map_cons, List.map_nil, List.mem_cons, List.not_mem_nil,
    or_false] at hinit
  rcases hinit with rfl | rfl | rfl
  · obtain rfl := hchain.unique .genesis
    decide +kernel
  · obtain rfl := hchain.unique (.connect .genesis firstBlock_connects)
    decide +kernel
  · obtain rfl := hchain.unique validChain_firstBlocks
    decide +kernel

theorem guest_agrees_firstBlocks : ∃ checked st s, Guest.RangeRun idealHashing core genesisTip
    (.replicate 8 0) checked st ∧ Replayed idealHashing core [firstBlock, laterBlock] s ∧
    st.after.stump.Commits idealHashing.parent s.forest.leaves ∧
    (∃ b', s.inBoundary st.after.tipHash = some b' ∧ st.after.Agrees b') := by
  obtain ⟨wit₁, st₁, h₁, -, hhi₁, -, -, hout₁, hafter₁⟩ := proveRange_block1
  obtain ⟨wit₂, st₂, h₂, hlo₂, -, hbefore₂, hin₂, -⟩ := proveRange_block2
  obtain ⟨r₁, hr₁, -⟩ := Guest.proveRange_eq_some.mp h₁
  obtain ⟨r₂, hr₂, -⟩ := Guest.proveRange_eq_some.mp h₂
  have hseam : Guest.seamOk st₁ st₂ := by
    refine Guest.seamOk_iff.mpr ⟨?_, ?_, ?_⟩
    · rw [hhi₁, hlo₂]
      rfl
    · rw [hafter₁, hbefore₂]
      exact .refl _
    · rw [hout₁, hin₂]
  have hrun : Guest.RangeRun idealHashing core genesisTip (.replicate 8 0) _ st₂ :=
    .next (.first hr₁ h₁) hr₂ h₂ hseam
  obtain ⟨s, hs, -⟩ : ∃ s, Replayed idealHashing core [firstBlock, laterBlock] s ∧ s.win ≠ [] := by
    refine exists_replayed ?_ (by decide)
    intro block hmem
    simp only [List.mem_cons, List.not_mem_nil, or_false] at hmem
    rcases hmem with rfl | rfl
    · exact ⟨_, rfl⟩
    · exact ⟨_, rfl⟩
  have hwits : WitnessesOf idealHashing core [firstBlock, laterBlock] _ :=
    .snoc (x := (_, r₂)) (.snoc (x := (_, r₁)) .nil
      (firstBlock_witness (Smt.emptyRoot idealHashing) wit₁))
      (laterBlock_witness (spendSmt idealHashing).root wit₂)
  obtain ⟨hcommits, -, -, hagrees⟩ := hs.guest_agrees (idealHashing_tagInjective TAG_LEAF)
    (idealHashing_tagInjective TAG_NODE) knowsSpendable_opTrue validChain_firstBlocks
    coinsFit_firstBlocks (.refl _) hwits hrun.run.1
  exact ⟨_, _, s, hrun, hs, hcommits, hagrees⟩

end

end Bridge
end Hazync
