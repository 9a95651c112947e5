import Hazync.Bridge.GuestRuns

/-!
# The tip binds the coins

A range that is anchored at genesis and ends on the bridge's tip was proved from the bridge's
blocks, and no others: the last header names the one below it, down to genesis, each header has the
root of its transactions, and each txid stands for what its transaction spends and creates. So the
roots it commits to are those of the bridge's forest, wherever its witnesses came from
(`Replayed.tip_binds`), unless two of the headers, lists or transactions at hand have one hash.

## Going down

A range proof does not come with its blocks. What it commits to of them is the hash of the last
header, so the blocks are found from there: a header hash has one header, the header names the one
below and has a Merkle root, the root has one list of txids, and a txid has one transaction body.
Each of these steps is an injectivity that holds of the hashes in question or fails by a collision
at hand; `Apart` lists them, for the blocks of the bridge and the witnesses of the range only.

At the bottom the range begins at genesis (`isGenesisAnchored`), and no other header hashes to the
hash of genesis. So the two chains have the same length. From there on it is
`Replayed.guest_agrees`.
-/

namespace Hazync
namespace Bridge

open ByteStrings
open Guest (Accepts BIP30_OVERWRITE_A BIP30_OVERWRITE_B Boundary Checked Core GENESIS_HASH ImageId
  RangeProof RangeRun RangeState Run Zkvm genesisTip headerHash)

variable {H : Type}

/-! ## What a node knows of its chain -/

/-- What the node has checked of the blocks apart from the coins, and what the two blocks that
    overwrite a coinbase are. -/
structure Sealed (hs : Hashing H) (core : Core) (blocks : List Block) : Prop where
  linked : Linked hs blocks
  /-- Core's root of the transactions, without the mutation that CVE-2012-2459 is about. -/
  merkle : ∀ block ∈ blocks,
    core.computeMerkleRoot (block.txdata.map core.getHash) = (block.merkleRoot, false)
  /-- At the two heights stand the two blocks that the guest lets overwrite, by their hashes. -/
  overwrites : ∀ i block, blocks[i]? = some block →
    (overwrittenHeight (UInt32.ofNat (i + 1))).isSome →
      block.hash hs = BIP30_OVERWRITE_A ∨ block.hash hs = BIP30_OVERWRITE_B

/-- The transactions of a witness, as bytes. -/
def rawTxs (x : Checked H) : List Bytes := x.1.coinbaseTx :: x.1.txs.map Subtype.val

/-- What the block and the witness hash to one hash is the same. -/
structure ApartAt (hs : Hashing H) (core : Core) (block : Block) (x : Checked H) : Prop where
  /-- The header hash binds the header. -/
  header : x.1.blockHash hs = block.hash hs → x.1.header = block.header
  /-- The merkle root binds the list of txids. -/
  txids : ∀ root, core.computeMerkleRoot x.1.txids = (root, false) →
    core.computeMerkleRoot (block.txdata.map core.getHash) = (root, false) →
      x.1.txids = block.txdata.map core.getHash
  /-- And a txid binds the inputs and the outputs. -/
  txs : ∀ t ∈ block.txdata, ∀ raw ∈ rawTxs x, ∀ t', core.unserializeTx raw = some t' →
    core.getHash t' = core.getHash t → SameBody core t' t

/-- No two things that the blocks and the witnesses hash have one hash. -/
structure Apart (hs : Hashing H) (core : Core) (blocks : List Block) (checked : List (Checked H)) :
    Prop where
  /-- Nor does a header hash to the hash of genesis, where every run of the guest begins. -/
  genesis : ∀ block ∈ blocks, block.hash hs ≠ GENESIS_HASH
  anchor : ∀ x ∈ checked, x.1.blockHash hs ≠ GENESIS_HASH
  pairs : ∀ block ∈ blocks, ∀ x ∈ checked, ApartAt hs core block x

section

variable {hs : Hashing H} {core : Core} {blocks : List Block} {block : Block}
  {checked : List (Checked H)} {x : Checked H}

theorem Sealed.of_concat (h : Sealed hs core (blocks ++ [block])) : Sealed hs core blocks where
  linked := (linked_concat.mp h.linked).1
  merkle b hb := h.merkle b (List.mem_append_left _ hb)
  overwrites i b hget := by
    refine h.overwrites i b ?_
    rw [List.getElem?_append_left (List.getElem?_eq_some_iff.mp hget).1]
    exact hget

theorem Apart.of_concat (h : Apart hs core (blocks ++ [block]) (checked ++ [x])) :
    Apart hs core blocks checked where
  genesis b hb := h.genesis b (List.mem_append_left _ hb)
  anchor y hy := h.anchor y (List.mem_append_left _ hy)
  pairs b hb y hy := h.pairs b (List.mem_append_left _ hb) y (List.mem_append_left _ hy)

end

/-! ## The witness of a block -/

section

variable [DecidableEq H] {hs : Hashing H} {core : Core} {blocks : List Block} {block : Block}
  {checked : List (Checked H)} {x : Checked H} {b b' b₀ : Boundary H}

omit [DecidableEq H] in
theorem slice_merkleRoot (block : Block) :
    slice block.header 36 68 = block.merkleRoot.toList := by
  refine slice_of_header (le32 block.version.toUInt32 ++ block.prevBlockhash.toList)
    (le32 block.time ++ (le32 block.bits ++ le32 block.nonce)) ?_ ?_ ?_
  · unfold Block.header
    simp only [List.append_assoc]
  · simp
  · simp

theorem forall₂_of_map_eq {α β γ : Type} {f : α → γ} {g : β → γ} {r : α → β → Prop} {xs : List α}
    {ys : List β} (h : xs.map f = ys.map g) (hr : ∀ x ∈ xs, ∀ y ∈ ys, f x = g y → r x y) :
    List.Forall₂ r xs ys := by
  induction xs generalizing ys with
  | nil =>
    obtain rfl := List.map_eq_nil_iff.mp h.symm
    exact .nil
  | cons x xs ih =>
    obtain ⟨y, ys, rfl, hxy, hrest⟩ := List.map_eq_cons_iff.mp h.symm
    refine .cons (hr x List.mem_cons_self y List.mem_cons_self hxy.symm) (ih hrest.symm ?_)
    exact fun x' hx' y' hy' => hr x' (List.mem_cons_of_mem _ hx') y' (List.mem_cons_of_mem _ hy')

/-- An accepted block with the header of a block has its transactions: the guest has checked the
    Merkle root of its txids against the header, and that the list has no repetition at its end. -/
theorem witnessOf_of_header {height : UInt32} (h : Accepts hs core b x)
    (hheader : x.1.header = block.header) (hheight : x.1.height = height)
    (hmerkle : core.computeMerkleRoot (block.txdata.map core.getHash) = (block.merkleRoot, false))
    (hgrand : (overwrittenHeight height).isSome → x.1.isBip30Block hs = true)
    (hapart : ApartAt hs core block x) : WitnessOf hs core height block x.1 := by
  obtain ⟨hext, chunks, cb, views, s, stump, hval⟩ := h.validated
  have htxids : x.1.txids = block.txdata.map core.getHash := by
    refine hapart.txids block.merkleRoot ?_ hmerkle
    have hok := (Guest.blockValid_iff.mp hext.valid).2.2.1
    rw [hval.merkle, Guest.merkleOk, Guest.merkleRoot, hheader, slice_merkleRoot] at hok
    simp only [Bool.and_eq_true, decide_eq_true_eq, Bool.not_eq_true'] at hok
    exact Prod.ext (List.Vector.toList_injective hok.1) hok.2
  refine ⟨hheader, ?_, hgrand, hheight⟩
  rw [hval.txids] at htxids
  -- each of the witness's transactions, as bytes and read
  generalize hreads : ((x.1.coinbaseTx, cb) :: views.map fun v => (v.raw.1, v.tx)) = reads
  have hraws : x.1.txs = views.map (·.raw) := by
    have hviewed := hval.viewed.raws
    rwa [List.drop_zero] at hviewed
  have hfirst : x.1.coinbaseTx :: x.1.txs.map Subtype.val = reads.map Prod.fst := by
    rw [← hreads, hraws, List.map_cons, List.map_map, List.map_map]
    rfl
  have hread : ∀ p ∈ reads, core.unserializeTx p.1 = some p.2 := by
    rw [← hreads, List.forall_mem_cons]
    refine ⟨hval.coinbase, ?_⟩
    intro p hp
    obtain ⟨v, hv, rfl⟩ := List.mem_map.mp hp
    obtain ⟨ti, hfit⟩ := hval.viewed.fits v hv
    exact hfit.tx
  rw [hfirst, List.forall₂_map_left_iff]
  refine forall₂_of_map_eq (f := fun p => core.getHash p.2) (g := core.getHash) ?_ ?_
  · rw [← hreads, ← htxids, List.map_cons, List.map_map]
    rfl
  · intro p hp t ht hsame
    refine ⟨p.2, hread p hp, hapart.txs t ht p.1 ?_ p.2 (hread p hp) hsame⟩
    rw [rawTxs, hfirst]
    exact List.mem_map_of_mem hp

/-! ## Down from the tip -/

omit [DecidableEq H] in
theorem WitnessesOf.length (h : WitnessesOf hs core blocks checked) :
    checked.length = blocks.length := by
  induction h with
  | nil => rfl
  | snoc _ _ ih => rw [List.length_append, List.length_append, ih]; rfl

theorem mem_head?_append {α : Type} {as bs : List α} {a : α} (h : a ∈ as.head?) :
    a ∈ (as ++ bs).head? := by
  cases as with
  | nil => cases h
  | cons => exact h

/-- A run from height 1 on is at the height that it has blocks, since each block of it is one above
    the last. -/
theorem height_of_run (h : Run hs core b₀ checked b)
    (hfirst : ∀ x ∈ checked.head?, x.1.height = 1) :
    ∀ x ∈ checked.getLast?, x.1.height = UInt32.ofNat checked.length := by
  induction h with
  | nil => exact fun x hx => by cases hx
  | @snoc before c c' w r hrun hagrees haccepts hnext ih =>
    intro x hx
    rw [Guest.getLast?_eq_of_snoc hx, List.length_append, List.length_singleton]
    rcases List.eq_nil_or_concat before with rfl | ⟨before, last, rfl⟩
    · exact hfirst _ rfl
    · have hmem : last ∈ (before.concat last).getLast? := by
        rw [List.concat_eq_append, List.getLast?_concat]
        rfl
      have hlast := ih (fun y hy => hfirst y (mem_head?_append hy)) last hmem
      rw [hnext last hmem, hlast, UInt32.ofNat_add]
      rfl

/-- **A run that ends on the bridge's tip is of the bridge's blocks.** The induction takes the last
    block off both; neither can be at genesis before the other. -/
theorem witnessesOf_of_run (h : Run hs core b₀ checked b) (hanchor : b₀.tipHash = GENESIS_HASH)
    (hfirst : ∀ x ∈ checked.head?, x.1.height = 1) (hsealed : Sealed hs core blocks)
    (hapart : Apart hs core blocks checked)
    (htip : hashAt hs blocks blocks.length = some b.tipHash) :
    WitnessesOf hs core blocks checked := by
  induction h generalizing blocks with
  | nil =>
    rcases List.eq_nil_or_concat blocks with rfl | ⟨before, block, rfl⟩
    · exact .nil
    · rw [List.concat_eq_append] at htip hapart
      rw [List.length_append, List.length_singleton, hashAt_concat, hanchor] at htip
      exact absurd (Option.some.inj htip)
        (hapart.genesis block (List.mem_append_right _ (List.mem_singleton_self _)))
  | @snoc checked c c' w r hrun hagrees haccepts hnext ih =>
    have hheight := height_of_run (.snoc hrun hagrees haccepts hnext) hfirst (w, r)
      (by rw [List.getLast?_concat]; rfl)
    have hlast : (w, r) ∈ checked ++ [(w, r)] :=
      List.mem_append_right _ (List.mem_singleton_self _)
    obtain ⟨chunks, hscripts, hr, hext⟩ := haccepts
    obtain ⟨-, hhash, -⟩ := Guest.validateBlock_header hr
    have hend : hashAt hs blocks blocks.length = some (w.blockHash hs) :=
      htip.trans (congrArg some hhash)
    rcases List.eq_nil_or_concat blocks with rfl | ⟨before, block, rfl⟩
    · exact absurd (Option.some.inj hend).symm (hapart.anchor _ hlast)
    · rw [List.concat_eq_append] at hend hapart hsealed ⊢
      have hblock : block ∈ before ++ [block] :=
        List.mem_append_right _ (List.mem_singleton_self _)
      rw [List.length_append, List.length_singleton, hashAt_concat] at hend
      have hsame := Option.some.inj hend
      have hpair := hapart.pairs block hblock _ hlast
      have hheader := hpair.header hsame.symm
      -- the block below is the one that both name
      have hbelow : hashAt hs before before.length = some c.tipHash := by
        rw [(linked_concat.mp hsealed.linked).2, hagrees.1]
        have hnamed := hext.prevhash
        rw [hheader, slice_prevBlockhash] at hnamed
        exact congrArg some (List.Vector.toList_injective hnamed)
      have hbefore := ih (fun y hy => hfirst y (mem_head?_append hy)) hsealed.of_concat
        hapart.of_concat hbelow
      have hlength : w.height = UInt32.ofNat (before.length + 1) := by
        rw [hheight, List.length_append, List.length_singleton, hbefore.length]
      refine .snoc hbefore ?_
      refine witnessOf_of_header ⟨chunks, hscripts, hr, hext⟩ hheader hlength
        (hsealed.merkle block hblock) ?_ hpair
      intro hgrand
      rw [Guest.BlockWitness.isBip30Block, decide_eq_true_eq, ← hsame]
      exact hsealed.overwrites before.length block List.getElem?_concat_length hgrand

/-! ## From a tree of ranges -/

variable {zkvm : Zkvm H} {selfId : ImageId} {st : RangeState H} {s : Standing H} {coins : Utxo}

/-- A tree of `prove_range` and `fold_range` executions, and the blocks at its leaves. -/
inductive ProvedFrom (hs : Hashing H) (core : Core) (zkvm : Zkvm H) (selfId : ImageId) :
    List (Checked H) → RangeState H → Prop
  | block {before : Boundary H} {w : Guest.BlockWitness H} {r : Guest.BlockResult H}
      {st : RangeState H}
      (hr : Guest.validateBlock hs core w (Guest.medianTimePast before.recent) Guest.Chunks.none =
        some r)
      (h : Guest.proveRange hs core before w selfId = some st) :
      ProvedFrom hs core zkvm selfId [(w, r)] st
  | fold {lJournal rJournal : Bytes} {l r st : RangeState H} {ls rs : List (Checked H)}
      (hl : zkvm.decodeRange lJournal = some l) (hr : zkvm.decodeRange rJournal = some r)
      (hls : ProvedFrom hs core zkvm selfId ls l) (hrs : ProvedFrom hs core zkvm selfId rs r)
      (h : Guest.foldRange zkvm selfId lJournal rJournal = some st) :
      ProvedFrom hs core zkvm selfId (ls ++ rs) st

theorem ProvedFrom.rangeProof (h : ProvedFrom hs core zkvm selfId checked st) :
    RangeProof hs core zkvm selfId st := by
  induction h with
  | block _ h => exact .block h
  | fold hl hr _ _ h ihl ihr => exact .fold hl hr ihl ihr h

omit [DecidableEq H] in
theorem agrees_trans {c : Boundary H} (h : b.Agrees b') (h' : b'.Agrees c) : b.Agrees c := by
  obtain ⟨htip, hroots, hleaves, hnbits, htime, hepoch, hrecent⟩ := h
  obtain ⟨htip', hroots', hleaves', hnbits', htime', hepoch', hrecent'⟩ := h'
  exact ⟨htip.trans htip', hroots.trans hroots', hleaves.trans hleaves', hnbits.trans hnbits',
    htime.trans htime', hepoch.trans hepoch', hrecent.trans hrecent'⟩

/-- A run goes on where another ends, as a seam of two ranges lets it: in-boundary and out-boundary
    agree, and the heights follow. -/
theorem run_append {before after : List (Checked H)} {c c' d : Boundary H}
    (h : Run hs core b₀ before c) (hagrees : c.Agrees c') (h' : Run hs core c' after d)
    (hnext : ∀ x ∈ before.getLast?, ∀ y ∈ after.head?, y.1.height = x.1.height + 1) :
    ∃ e, Run hs core b₀ (before ++ after) e ∧ e.Agrees d ∧ (after ≠ [] → e = d) := by
  induction h' with
  | nil => exact ⟨c, by rwa [List.append_nil], hagrees, fun hne => absurd rfl hne⟩
  | @snoc after d d' w r hrun hagrees' haccepts hstep ih =>
    obtain ⟨e, hbefore, hsame, -⟩ := ih fun x hx y hy => hnext x hx y (mem_head?_append hy)
    refine ⟨_, ?_, .refl _, fun _ => rfl⟩
    rw [← List.append_assoc]
    refine .snoc hbefore (agrees_trans hsame hagrees') haccepts ?_
    intro x hx
    rcases List.eq_nil_or_concat after with rfl | ⟨front, last, rfl⟩
    · rw [List.append_nil] at hx
      exact hnext x hx _ rfl
    · rw [List.concat_eq_append, ← List.append_assoc, List.getLast?_concat] at hx
      refine hstep x ?_
      rwa [List.concat_eq_append, List.getLast?_concat]

/-- The blocks of a tree are a run, from left to right. -/
theorem ProvedFrom.run (h : ProvedFrom hs core zkvm selfId checked st) :
    Run hs core st.before checked st.after ∧ checked ≠ [] ∧
      (∀ x ∈ checked.head?, x.1.height = st.lo) ∧ ∀ x ∈ checked.getLast?, x.1.height = st.hi := by
  induction h with
  | @block before w r st hr h =>
    obtain ⟨r', hr', he, rfl⟩ := Guest.proveRange_eq_some.mp h
    obtain rfl := Option.some.inj (hr.symm.trans hr')
    refine ⟨?_, List.cons_ne_nil _ _, fun x hx => by cases hx; rfl, fun x hx => by cases hx; rfl⟩
    rw [← List.nil_append [_]]
    exact .snoc .nil (.refl _) ⟨_, fun pre _ => Guest.scriptsSound_none pre, hr, he⟩
      fun x hx => by cases hx
  | @fold lJournal rJournal l r st ls rs hl hr _ _ h ihl ihr =>
    obtain ⟨hrunl, hnel, hlo, hlhi⟩ := ihl
    obtain ⟨hrunr, hner, hrlo, hhi⟩ := ihr
    obtain ⟨l', r', -, -, hl', hr', -, -, hseam, rfl⟩ := Guest.foldRange_eq_some.mp h
    obtain rfl := Option.some.inj (hl.symm.trans hl')
    obtain rfl := Option.some.inj (hr.symm.trans hr')
    obtain ⟨hadjacent, hagrees, -⟩ := Guest.seamOk_iff.mp hseam
    obtain ⟨e, hrun, -, heq⟩ := run_append hrunl hagrees hrunr fun x hx y hy => by
      rw [hrlo y hy, hlhi x hx, hadjacent]
    obtain rfl := heq hner
    refine ⟨hrun, List.append_ne_nil_of_left_ne_nil hnel _, ?_, ?_⟩
    · intro x hx
      rw [List.head?_append_of_ne_nil _ hnel] at hx
      exact hlo x hx
    · intro x hx
      rw [List.getLast?_append_of_ne_nil _ hner] at hx
      exact hhi x hx

/-- **The tip binds the coins.** If a genesis-anchored range ends on the tip of the bridge's chain
    and nothing at hand collides, it was proved from the bridge's blocks, it ends at the bridge's
    height, and it commits to the leaves of the bridge's forest. -/
theorem Replayed.tip_binds (hreplayed : Replayed hs core blocks s)
    (h : ProvedFrom hs core zkvm selfId checked st) (hgenesis : st.isGenesisAnchored hs = .ok ())
    (hsealed : Sealed hs core blocks) (hchain : ValidChain core blocks coins)
    (hfit : CoinsFit core blocks) (hleaf : hs.LeafInjective) (hnode : hs.NodeInjective)
    (hscripts : KnowsSpendable core) (hapart : Apart hs core blocks checked)
    (htip : hashAt hs blocks blocks.length = some st.after.tipHash) :
    WitnessesOf hs core blocks checked ∧ st.hi = s.done ∧ Meets hs blocks s st.after := by
  obtain ⟨hlo, hbefore, -⟩ := Guest.isGenesisAnchored_iff.mp hgenesis
  obtain ⟨hrun, hne, hfirst, hlast⟩ := h.run
  rw [hlo] at hfirst
  have hwits := witnessesOf_of_run hrun hbefore.1 hfirst hsealed hapart htip
  refine ⟨hwits, ?_, hreplayed.meets hleaf hnode hscripts hchain hfit hbefore hwits hrun⟩
  have hx := List.getLast?_eq_some_getLast hne
  rw [← hlast _ hx, height_of_run hrun hfirst _ hx, hwits.length, ← hreplayed.exact.2,
    UInt32.ofNat_toNat]

end

/-! ## The first block -/

section

open Guest.OpTrue

theorem sealed_firstBlock : Sealed idealHashing core [firstBlock] where
  linked := by
    intro h block hget
    obtain ⟨rfl, rfl⟩ : h = 0 ∧ block = firstBlock := by
      obtain ⟨hlt, hget⟩ := List.getElem?_eq_some_iff.mp hget
      obtain rfl : h = 0 := Nat.lt_one_iff.mp hlt
      exact ⟨rfl, hget.symm⟩
    rfl
  merkle := by
    intro block hmem
    obtain rfl := List.mem_singleton.mp hmem
    decide +kernel
  overwrites := by
    intro i block hget hsome
    obtain rfl : i = 0 := Nat.lt_one_iff.mp (List.getElem?_eq_some_iff.mp hget).1
    exact absurd hsome (by decide)

theorem hash_firstBlock : firstBlock.hash idealHashing = nullHash := by decide +kernel

theorem apart_firstBlock (root : Bytes) (wit : Guest.SmtWitness Bytes)
    (r : Guest.BlockResult Bytes) :
    Apart idealHashing core [firstBlock] [(block1.withSmt root wit, r)] where
  genesis := by
    intro block hmem
    obtain rfl := List.mem_singleton.mp hmem
    rw [hash_firstBlock]
    decide +kernel
  anchor := by
    intro x hmem
    obtain rfl := List.mem_singleton.mp hmem
    exact (by decide +kernel : block1.blockHash idealHashing ≠ GENESIS_HASH)
  pairs := by
    intro block hblock x hx
    obtain rfl := List.mem_singleton.mp hblock
    obtain rfl := List.mem_singleton.mp hx
    refine ⟨fun _ => rfl, fun _ _ _ => rfl, ?_⟩
    intro t ht raw hraw t' hread _
    obtain rfl := List.mem_singleton.mp ht
    obtain rfl : raw = firstCoinbase.serialize := List.mem_singleton.mp hraw
    obtain rfl := Option.some.inj (unserialize_firstCoinbase.symm.trans hread)
    exact ⟨rfl, rfl, rfl⟩

theorem coinsFit_firstBlock : CoinsFit core [firstBlock] := fun pre coins hle =>
  coinsFit_firstBlocks pre coins (hle.trans (List.prefix_append [firstBlock] [laterBlock]))

theorem validChain_firstBlock : ValidChain core [firstBlock] firstCoins :=
  .connect .genesis firstBlock_connects

/-- The bridge and the guest go through the first block. -/
theorem exists_firstRange : ∃ checked st s,
    ProvedFrom idealHashing core zkvm (.replicate 8 0) checked st ∧
      st.isGenesisAnchored idealHashing = .ok () ∧ Apart idealHashing core [firstBlock] checked ∧
      Replayed idealHashing core [firstBlock] s ∧
      hashAt idealHashing [firstBlock] 1 = some st.after.tipHash := by
  obtain ⟨wit, st, h, hlo, -, hbefore, hin, -, hafter⟩ := proveRange_block1
  obtain ⟨r, hr, -⟩ := Guest.proveRange_eq_some.mp h
  obtain ⟨s, hs, -⟩ : ∃ s, Replayed idealHashing core [firstBlock] s ∧ s.win ≠ [] := by
    refine exists_replayed ?_ (by decide)
    intro block hmem
    exact ⟨firstCoinbase, congrArg Block.txdata (List.mem_singleton.mp hmem)⟩
  refine ⟨_, st, s, .block hr h, ?_, apart_firstBlock _ wit r, hs, ?_⟩
  · exact Guest.isGenesisAnchored_iff.mpr ⟨hlo, hbefore ▸ .refl _, hin⟩
  · rw [hafter]
    exact congrArg some hash_firstBlock

theorem tip_binds_firstBlock : ∃ checked st s,
    ProvedFrom idealHashing core zkvm (.replicate 8 0) checked st ∧
      Replayed idealHashing core [firstBlock] s ∧ st.hi = s.done ∧
      Meets idealHashing [firstBlock] s st.after := by
  obtain ⟨checked, st, s, hproved, hgenesis, hapart, hs, htip⟩ := exists_firstRange
  obtain ⟨-, hhi, hmeets⟩ := hs.tip_binds hproved hgenesis sealed_firstBlock validChain_firstBlock
    coinsFit_firstBlock (idealHashing_tagInjective TAG_LEAF) (idealHashing_tagInjective TAG_NODE)
    knowsSpendable_opTrue hapart htip
  exact ⟨checked, st, s, hproved, hs, hhi, hmeets⟩

end

end Bridge
end Hazync
