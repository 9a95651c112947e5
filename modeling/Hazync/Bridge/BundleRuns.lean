import Hazync.Bridge.GetsThrough
import Hazync.Bridge.TipBinds
import Hazync.Host.GenesisAnchored
import Hazync.Verifier.Verify

/-!
# What is proved of the bundles of a chain

The bundles of a chain are proved one by one, in any order, and folded along any tree. Each is
accepted, each range ends where the next one begins, and what is left at the root is a range from
genesis to the state the bridge is in, which the verifier takes (`Emitted.verified`).

## How it is put together

`Emitted` is the walk with its bundles. `ValidChain.exists_emitted` says that there is one for every
valid chain: the bridge fails nowhere on it (`Hazync.Bridge.GetsThrough`). `Emitted.ranges` says
what `prove_range` makes of the bundles, by induction on the walk: the new range begins where the
last one ends, since both ends are the bridge's own boundary. `Emitted.verified` folds them, in any
order, and asks the verifier.

The folding needs a zkVM that proves what its guests compute, and a commitment of the journals that
can be read back; both are taken as they are in `Hazync.Guest.RangeTree`. The example at the end is
a chain of two blocks of a coinbase each.
-/

namespace Hazync
namespace Bridge

open ByteStrings
open Guest (BlockRules BlockWitness Boundary Commit Core ImageId RangeProof RangeState Transaction
  Zkvm foldJournals foldl_join_front genesisTip proveRange seamOk seamOk_iff seamed)

variable {H : Type}

/-- The walk over blocks that keep the rules, with the bundles it writes. -/
inductive Emitted [DecidableEq H] (hs : Hashing H) (core : Core) (ser : Serializer) :
    List Block → List (Boundary H × BlockWitness H) → Standing H → Prop
  | genesis : Emitted hs core ser [] [] (.genesis hs)
  | block {blocks : List Block} {bundles : List (Boundary H × BlockWitness H)} {s s' : Standing H}
      {block : Block} {hash : String} {u : BlockUndo H} {b : Boundary H × BlockWitness H}
      (h : Emitted hs core ser blocks bundles s)
      (hadvance : s.advance hs core hash block = some (s', u))
      (hbundle : s.bundle hs core ser block = some b)
      (hlaw : Lawful hs core ser s block b.1 b.2) :
      Emitted hs core ser (blocks ++ [block]) (bundles ++ [b]) s'

/-- The state `st` is where the bridge is: at its height, with its tree's root, and on the boundary
    that its next bundle begins with. -/
structure Arrives (hs : Hashing H) (blocks : List Block) (s : Standing H) (st : RangeState H) :
    Prop where
  hi : st.hi = s.done
  root : st.outSmtRoot = s.smt.root
  /-- The out-boundary is what the bridge would write into the next bundle. -/
  boundary : ∃ tip b, hashAt hs blocks blocks.length = some tip ∧ s.inBoundary tip = some b ∧
    st.after.Agrees b

section

variable [DecidableEq H] {hs : Hashing H} {core : Core} {ser : Serializer} {blocks : List Block}
  {bundles : List (Boundary H × BlockWitness H)} {s : Standing H} {coins : Utxo}
  {selfId : ImageId} {states : List (RangeState H)}

/-- The ranges of the bundles of a chain: `prove_range` takes every bundle, and what it makes of
    them fits together from genesis to the bridge's own state. -/
structure Ranges (hs : Hashing H) (core : Core) (selfId : ImageId) (blocks : List Block)
    (bundles : List (Boundary H × BlockWitness H)) (s : Standing H)
    (states : List (RangeState H)) : Prop where
  /-- A range for each bundle, in the order of the blocks. -/
  proved : List.Forall₂ (fun b st => proveRange hs core b.1 b.2 selfId = some st) bundles states
  /-- Each one ends where the next begins. -/
  seams : states.IsChain seamOk
  /-- Without a block there is none, and the bridge is where it started. -/
  empty : states = [] → blocks = [] ∧ s = .genesis hs
  /-- The first begins at genesis, as the verifiers ask. -/
  first : ∀ st ∈ states.head?, st.isGenesisAnchored hs = .ok ()
  /-- And the last ends where the bridge is. -/
  last : ∀ st ∈ states.getLast?, Arrives hs blocks s st

theorem Emitted.replayed (h : Emitted hs core ser blocks bundles s) :
    Replayed hs core blocks s := by
  induction h with
  | genesis => exact .genesis
  | block _ hadvance _ _ ih => exact .block ih hadvance

/-- What is known of the blocks of a chain beside their coins: each keeps the rules, wherever the
    bridge stands before it, and fits into a bundle. -/
structure Keeps (hs : Hashing H) (core : Core) (ser : Serializer) (blocks : List Block) : Prop where
  /-- The bridge gets to the block on the blocks below it, and there the block and its bundle keep
      the rules. -/
  lawful : ∀ pre block s before w, pre ++ [block] <+: blocks → Replayed hs core pre s →
    s.bundle hs core ser block = some (before, w) → Lawful hs core ser s block before w
  /-- Sizes that a guest of 32 bits can take. -/
  fits : ∀ pre block coins, pre ++ [block] <+: blocks → ValidChain core pre coins →
    BundleFits core ser coins (UInt32.ofNat (pre.length + 1)) block
  /-- What is overwritten at the two heights is a repeated coinbase whose coins are unspent. -/
  repeats : RepeatsAll core blocks

theorem Keeps.of_concat {block : Block} (h : Keeps hs core ser (blocks ++ [block])) :
    Keeps hs core ser blocks where
  lawful pre b s before w hle := h.lawful pre b s before w (hle.trans (List.prefix_append _ _))
  fits pre b coins hle := h.fits pre b coins (hle.trans (List.prefix_append _ _))
  repeats pre b coins hle := h.repeats pre b coins (hle.trans (List.prefix_append _ _))

/-- One block further. The bridge gets through the block, its bundle can be written, and the block
    keeps the rules there. -/
theorem Emitted.exists_next {block : Block} {coins' : Utxo}
    (h : Emitted hs core ser blocks bundles s) (hleaf : hs.LeafInjective)
    (hchain : ValidChain core (blocks ++ [block]) coins') (hfit : CoinsFit core (blocks ++ [block]))
    (htell : CoinbasesTell core (blocks ++ [block]))
    (hkeeps : Keeps hs core ser (blocks ++ [block])) (hlen : blocks.length + 1 < 2 ^ 32) :
    ∃ b s', Emitted hs core ser (blocks ++ [block]) (bundles ++ [b]) s' := by
  obtain ⟨coins, hbefore, hblock⟩ := hchain.last
  have hpre : CoinsFit core blocks := fun pre coins hle =>
    hfit pre coins (hle.trans (List.prefix_append _ _))
  obtain ⟨hutxo, hdone⟩ := h.replayed.utxo_eq hbefore
  have hheight : UInt32.ofNat (blocks.length + 1) = s.done + 1 := by
    rw [hdone, UInt32.ofNat_add]
    rfl
  have hfits := hkeeps.fits blocks block coins (List.prefix_refl _) hbefore
  have hrepeats := hkeeps.repeats blocks block coins (List.prefix_refl _) hbefore
  rw [← hutxo] at hblock hfits hrepeats
  obtain ⟨s', u, hadvance⟩ :=
    h.replayed.exists_advance hleaf hchain hfit htell hrepeats hlen ""
  have hinv := h.replayed.walked.inv hleaf hbefore hpre
  rw [hheight] at hblock hfits
  obtain ⟨before, w, hbundle⟩ :=
    Standing.exists_bundle hadvance ⟨rfl, hinv.tracks.cache.cache⟩ hblock hfits
  exact ⟨_, s', h.block hadvance hbundle
    (hkeeps.lawful blocks block s before w (List.prefix_refl _) h.replayed hbundle)⟩

/-- **The bridge gets to the end of every valid chain**, with a bundle for each block. So a bridge
    that stops has met a block that is not valid, or one that a guest of 32 bits cannot hold. -/
theorem ValidChain.exists_emitted (h : ValidChain core blocks coins) (hleaf : hs.LeafInjective)
    (hfit : CoinsFit core blocks) (htell : CoinbasesTell core blocks)
    (hkeeps : Keeps hs core ser blocks) (hlen : blocks.length < 2 ^ 32) :
    ∃ bundles s, Emitted hs core ser blocks bundles s ∧ bundles.length = blocks.length := by
  induction h with
  | genesis => exact ⟨[], _, .genesis, rfl⟩
  | @connect blocks coins coins' block hchain hblock ih =>
    rw [List.length_append, List.length_singleton] at hlen
    obtain ⟨bundles, s, hemitted, hlength⟩ :=
      ih (fun pre coins hle => hfit pre coins (hle.trans (List.prefix_append _ _))) htell.of_append
        hkeeps.of_concat (by omega)
    obtain ⟨b, s', hnext⟩ :=
      hemitted.exists_next hleaf (hchain.connect hblock) hfit htell hkeeps hlen
    refine ⟨bundles ++ [b], s', hnext, ?_⟩
    rw [List.length_append, List.length_append, hlength, List.length_singleton,
      List.length_singleton]

/-- **Every bundle is accepted and every seam is met**, from genesis to where the bridge is. Nothing
    is asked of the order in which the bundles are proved: a bundle is proved from its own
    in-boundary. -/
theorem Emitted.ranges (h : Emitted hs core ser blocks bundles s) (hleaf : hs.LeafInjective)
    (hscripts : KnowsSpendable core) (hchain : ValidChain core blocks coins)
    (hfit : CoinsFit core blocks) (htell : CoinbasesTell core blocks) (hlinked : Linked hs blocks)
    (selfId : ImageId) : ∃ states, Ranges hs core selfId blocks bundles s states := by
  induction h generalizing coins with
  | genesis => exact ⟨[], .nil, .nil, fun _ => ⟨rfl, rfl⟩, nofun, nofun⟩
  | @block blocks bundles s s' block hash u b h hadvance hbundle hlaw ih =>
    obtain ⟨before, hbefore, -⟩ := hchain.last
    obtain ⟨hlinked, hnamed⟩ := linked_concat.mp hlinked
    have hpre : CoinsFit core blocks := fun pre coins hle =>
      hfit pre coins (hle.trans (List.prefix_append _ _))
    obtain ⟨states, hstates⟩ := ih hbefore hpre htell.of_append hlinked
    have hdone := (h.replayed.utxo_eq hbefore).2
    have hdone' := ((h.replayed.block hadvance).utxo_eq hchain).2
    obtain ⟨st, b', hst, hin, hnext, hfrom, hagrees, hlo, hhi, hroot, hroot'⟩ :=
      h.replayed.bundle_passes hleaf hscripts hchain hfit htell hadvance hbundle hlaw selfId
    refine ⟨states ++ [st], ?_, ?_, ?_, ?_, ?_⟩
    · exact List.rel_append hstates.proved (.cons hst .nil)
    · -- the seam with the range before
      refine List.isChain_append.mpr ⟨hstates.seams, List.isChain_singleton _, ?_⟩
      intro l hl r hr
      obtain rfl := Option.some.inj hr
      obtain ⟨hlast, hsmt, tip, c, htip, hc, hmeets⟩ := hstates.last l hl
      obtain rfl := Option.some.inj (htip.symm.trans hnamed)
      obtain rfl := Option.some.inj (hc.symm.trans hin)
      refine seamOk_iff.mpr ⟨?_, hfrom ▸ hmeets, hsmt.trans hroot.symm⟩
      rw [hlast, hlo, hdone, UInt32.ofNat_add]
      rfl
    · intro hnil
      exact absurd hnil (List.append_ne_nil_of_right_ne_nil _ (List.cons_ne_nil _ _))
    · intro x hx
      cases hcase : states with
      | nil =>
        -- the first block, on genesis
        rw [hcase] at hx
        obtain rfl := Option.some.inj hx
        obtain ⟨rfl, rfl⟩ := hstates.empty hcase
        have hgenesis : Guest.GENESIS_HASH = block.prevBlockhash := Option.some.inj hnamed
        rw [← hgenesis] at hin
        have hmeets : Meets hs [] (.genesis hs) genesisTip := Meets.genesis
        obtain ⟨c, hc, hagree⟩ := hmeets.inBoundary Accumulator.Forest.Kept.new
        obtain rfl := Option.some.inj (hc.symm.trans hin)
        exact Guest.isGenesisAnchored_iff.mpr ⟨hlo, hfrom ▸ hagree.symm, hroot⟩
      | cons first rest =>
        rw [hcase] at hx
        exact hstates.first x (by rw [hcase]; exact hx)
    · intro x hx
      rw [List.getLast?_concat] at hx
      obtain rfl := Option.some.inj hx
      refine ⟨?_, hroot', block.hash hs, b', ?_, hnext, hagrees⟩
      · rw [hhi, hdone', List.length_append, List.length_singleton]
      · rw [List.length_append, List.length_singleton]
        exact hashAt_concat

/-! ## Folded and verified -/

omit [DecidableEq H] in
/-- A run of joins ends where its last range does. -/
theorem foldl_join_back (st : RangeState H) (ranges : List (RangeState H)) :
    ∃ last ∈ (st :: ranges).getLast?, (ranges.foldl RangeState.join st).hi = last.hi ∧
      (ranges.foldl RangeState.join st).after = last.after ∧
      (ranges.foldl RangeState.join st).outSmtRoot = last.outSmtRoot := by
  induction ranges using List.reverseRecOn with
  | nil => exact ⟨st, rfl, rfl, rfl, rfl⟩
  | append_singleton ranges next _ =>
    refine ⟨next, ?_, ?_⟩
    · rw [← List.cons_append, List.getLast?_concat]
      rfl
    · rw [List.foldl_append]
      exact ⟨rfl, rfl, rfl⟩

/-- **The chain is proved.** Along whichever tree the ranges of its bundles are folded, the root is
    a range from genesis to the state the bridge is in, and the verifier takes every receipt for
    it. -/
theorem Emitted.verified {zkvm : Zkvm H} (h : Emitted hs core ser blocks bundles s)
    (hleaf : hs.LeafInjective) (hscripts : KnowsSpendable core)
    (hchain : ValidChain core blocks coins) (hfit : CoinsFit core blocks)
    (htell : CoinbasesTell core blocks) (hlinked : Linked hs blocks) (commit : Commit zkvm)
    (hranges : ∀ st, RangeProof hs core zkvm selfId st →
      zkvm.verify selfId (commit.range st) = true)
    (hself : VerifierFfi.methodIdWords = some selfId) :
    ∃ states, Ranges hs core selfId blocks bundles s states ∧
      ∀ t : FoldTree (RangeState H), t.leaves = states →
        ∃ st, t.eval (foldJournals selfId commit) = some st ∧
          RangeProof hs core zkvm selfId st ∧ Arrives hs blocks s st ∧
          ∀ (receipts : VerifierFfi.Receipts) (bytes : Bytes) (receipt : receipts.Receipt),
            receipts.deserialize bytes = some receipt → receipts.verify receipt selfId = true →
            receipts.journal receipt = commit.range st →
            Verifier.verify hs zkvm receipts bytes =
              .ok (Verifier.verified hs st bytes.length) := by
  obtain ⟨states, hstates⟩ := h.ranges hleaf hscripts hchain hfit htell hlinked selfId
  refine ⟨states, hstates, ?_⟩
  intro t ht
  -- each bundle is the witness of a proof of its block
  have hproofs : ∀ x ∈ states, RangeProof hs core zkvm selfId x := by
    intro x hx
    obtain ⟨b, -, hb⟩ := Parallel.exists_of_mem hstates.proved.flip hx
    exact .block hb
  obtain ⟨a, as, hleaves⟩ := t.exists_leaves
  have hcons : states = a :: as := ht.symm.trans hleaves
  have hmeets := hstates.seams
  rw [← ht] at hproofs
  -- the ranges meet, so every tree over them has the value that the fold from the left has
  have heval := ((seamed commit hranges).eval_eq_some hleaves hproofs).mpr ⟨ht ▸ hmeets, rfl⟩
  rw [hleaves] at hproofs
  rw [hcons] at hmeets
  have hproof := (seamed commit hranges).closed_foldl hproofs hmeets
  obtain ⟨hkind, hid⟩ := hproof.tags
  refine ⟨_, heval, hproof, ?_, ?_⟩
  · obtain ⟨last, hlast, hhi, hafter, hroot⟩ := foldl_join_back a as
    rw [← hcons] at hlast
    obtain ⟨hdone, hsmt, hboundary⟩ := hstates.last last hlast
    exact ⟨hhi.trans hdone, hroot.trans hsmt, hafter ▸ hboundary⟩
  -- the verifier looks at the front of the range, which is that of the first bundle
  · intro receipts bytes receipt hparse hverify hjournal
    have hfirst := hstates.first a (by rw [hcons]; rfl)
    obtain ⟨hlo, hbefore, hin⟩ := foldl_join_front a as
    have hgenesis : (as.foldl RangeState.join a).isGenesisAnchored hs = .ok () := by
      rw [Guest.isGenesisAnchored_iff, hlo, hbefore, hin]
      exact Guest.isGenesisAnchored_iff.mp hfirst
    unfold Verifier.verify
    simp only [hparse, hself, hverify, hjournal, commit.decode_range]
    exact (Verifier.verifyJournal_eq_ok hself).mpr ⟨⟨hid, hkind, hgenesis⟩, rfl⟩

end

/-! ## The first two blocks -/

section

open Guest.OpTrue
open Guest (Transaction TxOut)

def serializer : Serializer where
  tx := Transaction.serialize
  outs outs := UInt8.ofNat outs.length :: outs.flatMap TxOut.serialize

theorem rules_block1 : BlockRules idealHashing core block1 genesisTime where
  version := by decide +kernel
  pow := by decide +kernel
  merkle := by decide +kernel
  cbCheck := ⟨0, by decide +kernel⟩
  cbIsCoinbase := by decide +kernel
  cbFinal := by decide +kernel
  bip34 := by decide +kernel
  witness := ⟨_, _, rfl, by decide +kernel⟩
  costs := ⟨_, _, rfl, by decide +kernel⟩
  subsidy := ⟨_, rfl, by decide +kernel⟩

theorem rules_block2 : BlockRules idealHashing core block2 spendMtp where
  version := by decide +kernel
  pow := by decide +kernel
  merkle := by decide +kernel
  cbCheck := ⟨0, by decide +kernel⟩
  cbIsCoinbase := by decide +kernel
  cbFinal := by decide +kernel
  bip34 := by decide +kernel
  witness := ⟨_, _, rfl, by decide +kernel⟩
  costs := ⟨_, _, rfl, by decide +kernel⟩
  subsidy := ⟨_, rfl, by decide +kernel⟩

/-- A block of a coinbase alone keeps the rules that a witness of it keeps. -/
theorem lawful_of_coinbase {block : Block} {coinbase : Transaction} {w w' : BlockWitness Bytes}
    {before : Boundary Bytes} {s : Standing Bytes} (htxdata : block.txdata = [coinbase])
    (hcb : core.unserializeTx coinbase.serialize = some coinbase)
    (hbundle : s.bundle idealHashing core serializer block = some (before, w'))
    (hrules : BlockRules idealHashing core w (Guest.medianTimePast s.win))
    (header : w.header = block.header) (height : w.height = s.done + 1)
    (coinbaseTx : w.coinbaseTx = coinbase.serialize) (txids : w.txids = [core.getHash coinbase])
    (txs : w.txs = []) (txPrevouts : w.txPrevouts = []) (inputs : w.inputs = [])
    (hnbits : block.bits = s.nbits) (hheight : (s.done + 1) % Guest.RETARGET_INTERVAL ≠ 0)
    (htime : Guest.medianTimePast s.win < block.time) (hbip30 : w.isBip30Block idealHashing = false)
    (hearly : overwrittenHeight (s.done + 1) = none)
    (hroom : (block.outputs core (s.done + 1)).length ≤ Guest.vecCapacity32) :
    Lawful idealHashing core serializer s block before w' := by
  obtain ⟨hin, blockMtp, carried, first, hbuild, hhead, hwit⟩ := Standing.witness_of_bundle hbundle
  rw [htxdata, List.head?_cons] at hhead
  obtain rfl := Option.some.inj hhead
  obtain ⟨-, -, hids⟩ := buildBlockCarried_stumps hbuild
  obtain ⟨stump, -, heq⟩ := Option.bind_eq_some_iff.mp hin
  obtain rfl := Option.some.inj heq
  -- beside the coinbase there is no transaction, so nothing is spent
  have hnone : carried.inputs = [] := by
    unfold buildBlockCarried at hbuild
    simp only [Option.bind_eq_bind, Option.bind_eq_some_iff, Option.some.injEq] at hbuild
    obtain ⟨-, -, spends, hspends, -, -, acc, hacc, -, -, -, -, rfl⟩ := hbuild
    obtain rfl : spends = [] := by
      unfold Block.spends at hspends
      rw [htxdata] at hspends
      exact (Option.some.inj hspends).symm
    rw [← Option.some.inj hacc]
  have hlength := hwit.length
  rw [htxdata] at hlength
  have htxs : w'.txs = [] := List.eq_nil_of_length_eq_zero hlength
  have hprevouts : w'.txPrevouts = [] :=
    List.eq_nil_of_length_eq_zero (hwit.prevouts.trans hlength)
  have hw : w'.header = w.header := hwit.header.trans header.symm
  exact
    { coinbase := by
        intro c hc
        rw [htxdata] at hc
        obtain rfl := Option.some.inj hc
        exact hcb
      txs := by
        intro t ht
        rw [htxdata] at ht
        exact absurd ht List.not_mem_nil
      rules := hrules.congr hw (hwit.at_height.trans height.symm)
        (hwit.coinbaseTx.trans coinbaseTx.symm)
        (by rw [hwit.txids, hids, htxdata, txids]; rfl) (htxs.trans txs.symm)
        (hprevouts.trans txPrevouts.symm) (by rw [hwit.inputs, hnone, inputs])
      nbits := by
        rw [hwit.at_height, Guest.expectedNbits, if_pos hheight]
        exact hnbits
      time := htime
      known := by
        rw [hwit.at_height, hearly, Option.isSome_none, ← hbip30]
        unfold BlockWitness.isBip30Block BlockWitness.blockHash
        rw [hw]
      room := hwit.at_height ▸ hroom }

theorem snoc_prefix {pre : List Block} {block : Block}
    (h : pre ++ [block] <+: [firstBlock, laterBlock]) :
    (pre = [] ∧ block = firstBlock) ∨ (pre = [firstBlock] ∧ block = laterBlock) := by
  cases pre with
  | nil => exact .inl ⟨rfl, (List.cons_prefix_cons.mp h).1⟩
  | cons b pre =>
    obtain ⟨hfirst, hrest⟩ := List.cons_prefix_cons.mp h
    cases pre with
    | nil => exact .inr ⟨congrArg (· :: []) hfirst, (List.cons_prefix_cons.mp hrest).1⟩
    | cons c pre =>
      have hnil := List.prefix_nil.mp (List.cons_prefix_cons.mp hrest).2
      exact absurd hnil (List.append_ne_nil_of_right_ne_nil _ (List.cons_ne_nil _ _))

theorem replayed_nil {s : Standing Bytes} (h : Replayed idealHashing core [] s) :
    s = .genesis idealHashing := by
  generalize hnil : ([] : List Block) = blocks at h
  cases h with
  | genesis => rfl
  | block => exact absurd hnil.symm (List.append_ne_nil_of_right_ne_nil _ (List.cons_ne_nil _ _))

/-- Where the bridge is after the first block. -/
theorem replayed_firstBlock {s : Standing Bytes} (h : Replayed idealHashing core [firstBlock] s) :
    s.done = 1 ∧ s.nbits = firstBlock.bits ∧ s.win = [genesisTime, spendMtp] := by
  have hdone := (h.utxo_eq validChain_firstBlock).2
  generalize hone : [firstBlock] = blocks at h
  cases h with
  | genesis => exact absurd hone (List.cons_ne_nil _ _)
  | @block pre s₀ s' hash block u h₀ hadvance =>
    obtain ⟨hpre, hlast⟩ := List.append_inj' ((List.nil_append _).trans hone) rfl
    obtain rfl := hpre
    obtain rfl := (List.cons.inj hlast).1
    obtain rfl := replayed_nil h₀
    obtain ⟨hnbits, -, -, hwin, -⟩ := Standing.advance_fields hadvance
    exact ⟨hdone, hnbits, hwin⟩

theorem keeps_firstBlocks : Keeps idealHashing core serializer [firstBlock, laterBlock] where
  lawful pre block s before w hle hreplayed hbundle := by
    rcases snoc_prefix hle with ⟨rfl, rfl⟩ | ⟨rfl, rfl⟩
    · obtain rfl := replayed_nil hreplayed
      exact lawful_of_coinbase rfl unserialize_firstCoinbase hbundle rules_block1 rfl rfl rfl rfl
        rfl rfl rfl rfl (by decide) (by decide) block1_sampled.isBip30Block (by decide) (by decide)
    · obtain ⟨hdone, hnbits, hwin⟩ := replayed_firstBlock hreplayed
      refine lawful_of_coinbase (w := block2) rfl unserialize_laterCoinbase hbundle ?_ rfl ?_ rfl
        rfl rfl rfl rfl ?_ ?_ ?_ block2_sampled.isBip30Block ?_ ?_
      · rw [hwin]
        exact rules_block2
      · rw [hdone]
        rfl
      · rw [hnbits]
        rfl
      · rw [hdone]
        decide
      · rw [hwin]
        decide
      · rw [hdone]
        decide
      · rw [hdone]
        decide
  fits pre block coins hle _ := by
    have htail : block.txdata.tail = [] ∧ block.spent = [] := by
      rcases snoc_prefix hle with ⟨rfl, rfl⟩ | ⟨rfl, rfl⟩
      · exact ⟨rfl, rfl⟩
      · exact ⟨rfl, rfl⟩
    refine ⟨?_, ?_, ?_⟩
    · intro t ht
      rw [htail.1] at ht
      exact absurd ht List.not_mem_nil
    · intro t ht
      rw [htail.1] at ht
      exact absurd ht List.not_mem_nil
    · rw [htail.2]
      exact Nat.two_pow_pos 32
  repeats pre block coins hle _ := by
    intro old coinbase hold
    rcases snoc_prefix hle with ⟨rfl, rfl⟩ | ⟨rfl, rfl⟩
    · cases hold
    · cases hold

theorem linked_firstBlocks : Linked idealHashing [firstBlock, laterBlock] := by
  have h : Linked idealHashing ([firstBlock] ++ [laterBlock]) :=
    linked_concat.mpr ⟨sealed_firstBlock.linked, congrArg some hash_firstBlock⟩
  exact h

theorem exists_emitted_firstBlocks : ∃ bundles s,
    Emitted idealHashing core serializer [firstBlock, laterBlock] bundles s ∧ bundles.length = 2 :=
  validChain_firstBlocks.exists_emitted (idealHashing_tagInjective TAG_LEAF) coinsFit_firstBlocks
    tell_firstBlocks keeps_firstBlocks (by decide)

/-- A zkVM like the other, for the guest that the verifier knows. -/
def ownZkvm (words : ImageId) : Zkvm Bytes := { zkvm with verify := fun id _ => id = words }

def ownCommit (words : ImageId) : Commit (ownZkvm words) where
  range := commit.range
  chain := commit.chain
  decode_range := commit.decode_range
  decode_chain := commit.decode_chain

theorem emitted_firstBlocks : ∃ b₁ b₂ s,
    Emitted idealHashing core serializer [firstBlock, laterBlock] [b₁, b₂] s := by
  have hleaf := idealHashing_tagInjective TAG_LEAF
  have hkeeps : Keeps idealHashing core serializer ([firstBlock] ++ [laterBlock]) :=
    keeps_firstBlocks
  have htell : CoinbasesTell core ([firstBlock] ++ [laterBlock]) := tell_firstBlocks
  obtain ⟨b₁, s₁, h₁⟩ : ∃ b s, Emitted idealHashing core serializer [firstBlock] [b] s :=
    Emitted.genesis.exists_next hleaf validChain_firstBlock coinsFit_firstBlock htell.of_append
      hkeeps.of_concat (by decide)
  obtain ⟨b₂, s₂, h₂⟩ : ∃ b s,
      Emitted idealHashing core serializer ([firstBlock] ++ [laterBlock]) ([b₁] ++ [b]) s :=
    h₁.exists_next hleaf validChain_firstBlocks coinsFit_firstBlocks htell hkeeps (by decide)
  exact ⟨b₁, b₂, s₂, h₂⟩

theorem exists_receipts (journal : Bytes) (words : ImageId) :
    ∃ (receipts : VerifierFfi.Receipts) (bytes : Bytes) (receipt : receipts.Receipt),
      receipts.deserialize bytes = some receipt ∧ receipts.verify receipt words = true ∧
        receipts.journal receipt = journal := by
  refine ⟨Host.heldReceipt journal words, 0 :: journal, journal, ?_, ?_, rfl⟩
  · simp [Host.heldReceipt]
  · simp [Host.heldReceipt]

/-- The first two blocks, proved and folded: the verifier reports height 2. -/
theorem verified_firstBlocks : ∃ words receipts bytes v,
    Verifier.verify idealHashing (ownZkvm words) receipts bytes = .ok v ∧ v.height = 2 := by
  obtain ⟨words, hwords⟩ : ∃ words, VerifierFfi.methodIdWords = some words :=
    Option.isSome_iff_exists.mp (by decide)
  obtain ⟨b₁, b₂, s, hemitted⟩ := emitted_firstBlocks
  obtain ⟨states, hstates, htrees⟩ := hemitted.verified (idealHashing_tagInjective TAG_LEAF)
    knowsSpendable_opTrue validChain_firstBlocks coinsFit_firstBlocks tell_firstBlocks
    linked_firstBlocks (ownCommit words) (fun _ _ => decide_eq_true rfl) hwords
  obtain ⟨a, b, rfl⟩ := List.length_eq_two.mp hstates.proved.length_eq.symm
  obtain ⟨st, -, -, harrives, hverify⟩ := htrees (.node (.leaf a) (.leaf b)) rfl
  obtain ⟨receipts, bytes, receipt, hparse, hholds, hjournal⟩ :=
    exists_receipts ((ownCommit words).range st) words
  have hok := hverify receipts bytes receipt hparse hholds hjournal
  have hdone : s.done = 2 := (hemitted.replayed.utxo_eq validChain_firstBlocks).2
  exact ⟨words, _, _, _, hok, harrives.hi.trans hdone⟩

end

end Bridge
end Hazync
