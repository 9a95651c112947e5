import Hazync.Guest.BlockValue
import Hazync.Guest.MedianTime
import Hazync.Guest.RangeTree
import Hazync.Guest.Run
import Hazync.Lib.Residues

/-!
# No run mints value

From the empty accumulator on, what is held is worth no more than the subsidies of the heights that
were accepted. The sums of a block are exact as long as what is held is worth no more than 2^62, so
the subsidies need a bound of their own. A range may begin at any height, and heights wrap; but the
median time allows no more than eleven times 2^32 blocks, and so no height comes more often than
eleven times.

## Why the subsidies must be bounded

`Extends.value` says of one block that no sum runs over while the fees are below 2⁶³, and the fees
are no more than what is held. So one needs that what is held stays well below that along a run,
which is what is to be proved: both go through the induction together (`Run.value`). What is held is
at most the subsidies of the blocks so far. One cannot say that these are at most 21 million coins,
since a run may begin anywhere and the heights wrap. But each height has the subsidy of its era, and
from block 13440000 on there is none; and a height can come back only after 2³² blocks, of which the
median time leaves room for eleven. So the bound is eleven times what it should be, which is still
below 2⁶².

The theorem is about both tracks, ranges that meet and the chain from genesis, and about any
parameters. What it needs of Core stands in its hypotheses.
-/

namespace Hazync
namespace Guest

open ByteStrings
open Accumulator (Stump normalize)

variable {H : Type}

/-- The subsidies of the blocks' heights, added up. -/
def subsidies (core : Core) (blocks : List (Checked H)) : ℤ :=
  sumInts (blocks.map fun x => blockSubsidy core x.1.height)

/-- The leaves of the accumulator are of coins that are worth no more than the subsidies. -/
def Backed (hs : Hashing H) (core : Core) (s : Stump H) (blocks : List (Checked H)) : Prop :=
  (∃ coins : List Coin, Stump.Holds hs s coins) ∧
    ∀ coins : List Coin, Stump.Holds hs s coins → worth ↑coins ≤ subsidies core blocks

/-! ## The length of a run -/

/-- The timestamps of the blocks. -/
def blockTimes (blocks : List (Checked H)) : List UInt32 := blocks.map fun x => x.2.blockTime

section

variable [DecidableEq H] {hs : Hashing H} {core : Core} {b b₀ : Boundary H}
  {blocks : List (Checked H)}

/-- The blocks' timestamps follow those the run starts with, each after the median before it. -/
theorem Run.rising (h : Run hs core b₀ blocks b) :
    (blocks ≠ [] → b.recent = lastEleven (b₀.recent ++ blockTimes blocks)) ∧
      RisingFrom b₀.recent.length (b₀.recent ++ blockTimes blocks) := by
  induction h with
  | nil =>
    refine ⟨fun h => absurd rfl h, fun k t hk hget => ?_⟩
    have hlt := (List.getElem?_eq_some_iff.mp hget).1
    rw [blockTimes, List.map_nil, List.append_nil] at hlt
    omega
  | @snoc blocks b b' w r hrun hagrees haccepts _ ih =>
    obtain ⟨hrecent, hrising⟩ := ih
    obtain ⟨he, -⟩ := haccepts.validated
    have htimes : b₀.recent ++ blockTimes (blocks ++ [(w, r)]) =
        (b₀.recent ++ blockTimes blocks) ++ [r.blockTime] := by
      rw [blockTimes, List.map_append, ← List.append_assoc]
      rfl
    -- a block extends a boundary that agrees with the one before it
    have hsame : b.recent = b'.recent := hagrees.2.2.2.2.2.2
    rw [htimes]
    constructor
    · intro _
      rw [Boundary.next, ← hsame]
      cases blocks with
      | nil =>
        obtain rfl := hrun.eq_of_nil
        rw [blockTimes, List.map_nil, List.append_nil]
        rfl
      | cons x xs =>
        rw [hrecent (List.cons_ne_nil _ _)]
        exact pushTime_lastEleven _ _
    -- an earlier time was above its median already
    · intro k t hk hget
      have hlt := (List.getElem?_eq_some_iff.mp hget).1
      rw [List.length_append, List.length_singleton] at hlt
      have htake : ((b₀.recent ++ blockTimes blocks) ++ [r.blockTime]).take (k + 1) =
          (b₀.recent ++ blockTimes blocks).take (k + 1) :=
        List.take_append_of_le_length (Nat.le_of_lt_succ hlt)
      rw [medianAt, htake]
      rcases Nat.lt_or_ge (k + 1) (b₀.recent ++ blockTimes blocks).length with hin | hlast
      · rw [List.getElem?_append_left hin] at hget
        exact hrising k t hk hget
      · -- the last one, which came after the median of the state before it
        have hend : k + 1 = (b₀.recent ++ blockTimes blocks).length := by omega
        rw [hend, List.getElem?_concat_length] at hget
        obtain rfl := Option.some.inj hget
        have hne : blocks ≠ [] := by
          rintro rfl
          rw [blockTimes, List.map_nil, List.append_nil] at hend
          omega
        rw [hend, List.take_length, ← hrecent hne, hsame]
        exact he.time

/-- A run has at most 11 · 2³² blocks. -/
theorem Run.length_le (h : Run hs core b₀ blocks b) : blocks.length ≤ 11 * 2 ^ 32 := by
  have hle := h.rising.2.length_le
  rw [List.length_append, blockTimes, List.length_map] at hle
  exact Nat.le_of_add_le_add_left hle

/-! ## The subsidies of a run -/

/-- The heights go up by one, and wrap. -/
theorem Run.heights (h : Run hs core b₀ blocks b) : ∃ first : UInt32,
    blocks.map (fun x => x.1.height) =
      (List.range blocks.length).map fun i => first + UInt32.ofNat i := by
  induction h with
  | nil => exact ⟨0, rfl⟩
  | @snoc blocks b b' w r _ _ _ hlast ih =>
    obtain ⟨first, hheights⟩ := ih
    rcases List.eq_nil_or_concat' blocks with rfl | ⟨init, x, rfl⟩
    · refine ⟨w.height, ?_⟩
      show [w.height] = [w.height + UInt32.ofNat 0]
      rw [show UInt32.ofNat 0 = 0 from rfl, UInt32.add_zero]
    · refine ⟨first, ?_⟩
      have hsplit := hheights
      rw [List.map_append, List.length_append, List.length_singleton, List.range_succ,
        List.map_append] at hsplit
      have hx : x.1.height = first + UInt32.ofNat init.length :=
        (List.cons.inj (List.append_inj' hsplit rfl).2).1
      have hnext : w.height = first + UInt32.ofNat (init.length + 1) := by
        rw [hlast x (by rw [List.getLast?_concat]; rfl), hx, UInt32.ofNat_add, UInt32.add_assoc]
        rfl
      have hlen : (init ++ [x]).length = init.length + 1 := by
        rw [List.length_append, List.length_singleton]
      rw [List.map_append, hheights, @List.length_append _ (init ++ [x]) [(w, r)], hlen,
        List.length_singleton]
      conv_rhs => rw [List.range_succ, List.map_append]
      exact congrArg (_ ++ [·]) hnext

/-- Below this height there is a subsidy. -/
def SUBSIDY_END : ℕ := 64 * 210000

/-- A block's subsidy is at most 50 coins, and there is none from the 64th halving on. -/
theorem blockSubsidy_le (hhalving : core.MainnetHalving) (height : UInt32) :
    (blockSubsidy core height).toInt ≤ if height.toNat < SUBSIDY_END then 5000000000 else 0 := by
  have hshift : ∀ k : Fin 64, ((50 * 100000000 : Int64) >>> Int64.ofNat k).toInt ≤ 5000000000 := by
    decide
  have hdiv : (height / 210000).toNat = height.toNat / 210000 := UInt32.toNat_div _ _
  rw [blockSubsidy, hhalving]
  split
  · split
    · decide
    · decide
  · rename_i hlt
    rw [UInt32.le_iff_toNat_le, hdiv] at hlt
    have hsmall : height.toNat / 210000 < 64 := Nat.not_le.mp hlt
    rw [if_pos (by unfold SUBSIDY_END; omega), hdiv]
    exact hshift ⟨_, hsmall⟩

/-- **The subsidies of a run are bounded.** -/
theorem Run.subsidies_le (hhalving : core.MainnetHalving) (h : Run hs core b₀ blocks b) :
    subsidies core blocks ≤ 2 ^ 62 := by
  obtain ⟨first, hheights⟩ := h.heights
  have hmap : subsidies core blocks = ((List.range blocks.length).map fun i =>
      (blockSubsidy core (first + UInt32.ofNat i)).toInt).sum := by
    have hsub := congrArg (List.map fun h => (blockSubsidy core h).toInt) hheights
    rw [List.map_map, List.map_map] at hsub
    rw [subsidies, sumInts, List.map_map]
    exact congrArg List.sum hsub
  have hsum := Residues.sum_window_le (r := SUBSIDY_END) (a := 2 ^ 32) (m := 5000000000)
    (by decide) first.toNat h.length_le (by decide)
    (f := fun i => (blockSubsidy core (first + UInt32.ofNat i)).toInt) (fun i _ => by
      have hle := blockSubsidy_le hhalving (first + UInt32.ofNat i)
      rwa [UInt32.toNat_add, UInt32.toNat_ofNat', Nat.add_mod_mod] at hle)
  rw [hmap]
  refine hsum.trans ?_
  unfold SUBSIDY_END
  norm_num

/-! ## What is held -/

omit [DecidableEq H] in
/-- The coins behind the leaves are determined. -/
theorem Stump.Holds.unique (hleaf : hs.LeafInjective) (hnode : hs.NodeInjective) {s : Stump H}
    {coins coins' : List Coin} (h : Stump.Holds hs s coins) (h' : Stump.Holds hs s coins') :
    coins = coins' := by
  obtain ⟨t, hbelow, hcommits⟩ := h
  obtain ⟨t', hbelow', hcommits'⟩ := h'
  have hlen : (coins.map (Coin.leaf hs)).length = (coins'.map (Coin.leaf hs)).length := by
    rw [← hcommits.numLeaves, ← hcommits'.numLeaves, hbelow.numLeaves, hbelow'.numLeaves]
  apply List.map_injective_iff.mpr (Coin.leaf_injective hleaf)
  apply MerkleForest.eq_of_peak_eq hnode.parent hlen
  intro k
  rcases Nat.lt_or_ge k 64 with hk | hk
  · rw [← hcommits.rootAt k, ← hcommits'.rootAt k, hbelow.rootAt k hk, hbelow'.rootAt k hk]
  · rw [Accumulator.peak_of_large hcommits.length_lt hk,
      Accumulator.peak_of_large hcommits'.length_lt hk]

/-- The state before the run has the empty accumulator. -/
def Boundary.Empty (b : Boundary H) : Prop := b.leaves = 0 ∧ normalize b.roots = []

omit [DecidableEq H] in
theorem Boundary.Empty.holds (h : b.Empty) : Stump.Holds hs b.stump [] := by
  refine ⟨Stump.empty, ⟨h.1.symm, fun k _ => ?_⟩, Accumulator.Stump.Commits.empty⟩
  have hroots : normalize b.roots = normalize ([] : List (Option H)) := h.2
  rw [Boundary.stump, Stump.rootAt, Stump.rootAt, Accumulator.normalize_eq_iff.mp hroots k]
  rfl

/-- What a run from the empty accumulator holds, and that every sum of its blocks is exact. -/
theorem Run.value (hleaf : hs.LeafInjective) (hnode : hs.NodeInjective)
    (hshape : core.CoinbaseShape) (houts : core.ChecksOutputs) (hhalving : core.MainnetHalving)
    (hempty : b₀.Empty) (h : Run hs core b₀ blocks b) :
    (∃ coins : List Coin, Stump.Holds hs b.stump coins ∧ (∀ c ∈ coins, c.Sound) ∧
      worth ↑coins ≤ subsidies core blocks) ∧
      ∀ x ∈ blocks, NoneOverflows (moneyAdditions core x.1 x.2) := by
  induction h with
  | nil =>
    refine ⟨⟨[], hempty.holds, ?_, le_refl _⟩, ?_⟩
    · intro c hc
      cases hc
    · intro x hx
      cases hx
  | @snoc blocks b b' w r hrun hagrees haccepts _ ih =>
    obtain ⟨⟨coins, hcoins, hsound, hworth⟩, hexact⟩ := ih
    obtain ⟨he, chunks, cb, views, s, stump, hval⟩ := haccepts.validated
    have hbound := hworth.trans (hrun.subsidies_le hhalving)
    obtain ⟨coins', hcoins', hsound', hworth', hno⟩ :=
      he.value hleaf hnode hshape houts hval (hagrees.below hcoins) hsound hbound
    have hsum : subsidies core (blocks ++ [(w, r)]) =
        subsidies core blocks + (blockSubsidy core w.height).toInt := by
      rw [subsidies, sumInts, List.map_append, List.map_append, List.sum_append]
      simp [subsidies, sumInts]
    constructor
    · refine ⟨coins', hcoins', hsound', hsum ▸ hworth'.trans ?_⟩
      exact add_le_add_left hworth _
    · intro x hx
      rcases List.mem_append.mp hx with hx | hx
      · exact hexact x hx
      · obtain rfl := List.mem_singleton.mp hx
        exact hno

/-- What a run from the empty accumulator holds is backed by its subsidies. -/
theorem Run.backed (hleaf : hs.LeafInjective) (hnode : hs.NodeInjective)
    (hshape : core.CoinbaseShape) (houts : core.ChecksOutputs) (hhalving : core.MainnetHalving)
    (hempty : b₀.Empty) (h : Run hs core b₀ blocks b) :
    Backed hs core b.stump blocks ∧ ∀ x ∈ blocks, NoneOverflows (moneyAdditions core x.1 x.2) := by
  obtain ⟨⟨coins, hcoins, -, hworth⟩, hexact⟩ := h.value hleaf hnode hshape houts hhalving hempty
  refine ⟨⟨⟨coins, hcoins⟩, fun coins' hcoins' => ?_⟩, hexact⟩
  rwa [hcoins'.unique hleaf hnode hcoins]

end

/-- **No run mints value**: neither ranges that meet, from the empty accumulator on, nor the chain
from the genesis anchor. What their blocks leave is worth no more than their subsidies, and no sum
in their checks runs over. -/
theorem no_value_minted [DecidableEq H] {hs : Hashing H} {core : Core} (hleaf : hs.LeafInjective)
    (hnode : hs.NodeInjective) (hshape : core.CoinbaseShape) (houts : core.ChecksOutputs)
    (hhalving : core.MainnetHalving) :
    (∀ (b₀ : Boundary H) (selfId : ImageId) (blocks : List (Checked H)) (st : RangeState H),
      b₀.Empty → RangeRun hs core b₀ selfId blocks st →
        Backed hs core st.after.stump blocks ∧
          ∀ x ∈ blocks, NoneOverflows (moneyAdditions core x.1 x.2)) ∧
    ∀ (zkvm : Zkvm H) (methodId : ImageId) (blocks : List (Checked H)) (st : ChainState H),
      Function.Injective hs.dsha256 → zkvm.ChunksSound hs core methodId →
      ChainRun hs core zkvm methodId blocks st →
        Backed hs core st.tip.stump blocks ∧
          ∀ x ∈ blocks, NoneOverflows (moneyAdditions core x.1 x.2) := by
  constructor
  · intro b₀ selfId blocks st hempty hrun
    exact hrun.run.1.backed hleaf hnode hshape houts hhalving hempty
  · intro zkvm methodId blocks st hinj hchunks hrun
    have hempty : (genesisTip : Boundary H).Empty := ⟨rfl, rfl⟩
    exact (hrun.run hinj hchunks).1.backed hleaf hnode hshape houts hhalving hempty

namespace OpTrue

/-- A block that is accepted on the state of a chain is a step of it. -/
theorem chainRun_step {blocks : List (Checked Bytes)} {prev : ChainState Bytes}
    {w : BlockWitness Bytes} {r : BlockResult Bytes}
    (h : ChainRun idealHashing core zkvm (.replicate 8 0) blocks prev)
    (hkind : prev.kind = KIND_CHAIN) (hself : prev.selfId = .replicate 8 0)
    (hheight : w.height = prev.height + 1)
    (hr : validateBlock idealHashing core w (medianTimePast prev.tip.recent) Chunks.none = some r)
    (he : Extends core prev.tip w.height w r) :
    ∃ st, ChainRun idealHashing core zkvm (.replicate 8 0) (blocks ++ [(w, r)]) st ∧
      st.kind = KIND_CHAIN ∧ st.selfId = .replicate 8 0 ∧ st.height = w.height ∧
      st.tip = prev.tip.next w.height r := by
  have hstep := extendChain_eq_some.mpr ⟨prev, r, fun _ : (0 : UInt32) = 0 => verify_zkvm _,
    decode_encodeJournal prev, hkind, fun _ => hself, hheight, hr, he, rfl⟩
  exact ⟨_, .step h (decode_encodeJournal prev) hr hstep, rfl, rfl, rfl, rfl⟩

/-- The first two blocks as ranges that meet, and the first one as a step of the chain. -/
theorem no_value_minted_blocks : ∃ blocks st chain final,
    RangeRun idealHashing core genesisTip (.replicate 8 0) blocks st ∧ blocks.length = 2 ∧
      Backed idealHashing core st.after.stump blocks ∧
      (∀ x ∈ blocks, NoneOverflows (moneyAdditions core x.1 x.2)) ∧
      ChainRun idealHashing core zkvm (.replicate 8 0) chain final ∧ chain.length = 1 ∧
      Backed idealHashing core final.tip.stump chain := by
  obtain ⟨hranges, hchain⟩ := no_value_minted (idealHashing_tagInjective TAG_LEAF)
    (idealHashing_tagInjective TAG_NODE) coinbaseShape checksOutputs mainnetHalving
  obtain ⟨wit₁, st₁, h₁, -, hhi₁, -, -, hout₁, hafter₁⟩ := proveRange_block1
  obtain ⟨wit₂, st₂, h₂, hlo₂, -, hbefore₂, hin₂, -⟩ := proveRange_block2
  obtain ⟨r₁, hr₁, he₁, -⟩ := proveRange_eq_some.mp h₁
  obtain ⟨r₂, hr₂, -⟩ := proveRange_eq_some.mp h₂
  have hseam : seamOk st₁ st₂ := by
    refine seamOk_iff.mpr ⟨?_, ?_, ?_⟩
    · rw [hhi₁, hlo₂]
      rfl
    · rw [hafter₁, hbefore₂]
      exact .refl _
    · rw [hout₁, hin₂]
  have hrun : RangeRun idealHashing core genesisTip (.replicate 8 0) _ st₂ :=
    .next (.first hr₁ h₁) hr₂ h₂ hseam
  obtain ⟨hbacked, hexact⟩ := hranges _ _ _ _ ⟨rfl, rfl⟩ hrun
  obtain ⟨final, hsteps, -⟩ := chainRun_step .genesis rfl rfl rfl hr₁ he₁
  have hnone : zkvm.ChunksSound idealHashing core (.replicate 8 0) := by
    intro journal out _ hout
    cases hout
  obtain ⟨hbacked', -⟩ := hchain _ _ _ _ idealHashing_dsha256_injective hnone hsteps
  exact ⟨_, st₂, _, final, hrun, rfl, hbacked, hexact, hsteps, rfl, hbacked'⟩

end OpTrue
end Guest
end Hazync
