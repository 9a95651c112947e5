import Hazync.Guest.Counted
import Hazync.Guest.RangeTree

/-!
# The headers behind a genesis-anchored range

Every block of a range is proved on a state that the host makes up, and the folds only compare
neighbours. With the first state that of block 0 this is enough: all the states are determined by
one list of headers, and every header keeps the rules as that list has them.

## From states to one list

A block is proved on a state that comes with it: tip hash, target, times, the start of the epoch,
the last eleven timestamps. All of it is claimed, and only the fold looks whether it is the state
that the block before came to. A rule such as the median of the last eleven times is then checked
against the claimed eleven. To say that the rule is kept one needs a list to which the eleven
belong, and there is none in the receipts.

It is built here by induction along the ranges. `StateAfter` says that a state is what a list of
headers comes to, and `StateAfter.next` that a block which is accepted on such a state keeps the
rules as the list has them, and leads to the state after one header more. With the genesis state as
the start the list begins at block 1. Apart from collisions there is only one such list for a tip
(`Rules.unique`).

The heights are 32-bit words, and the guest computes with them. The retarget is at the multiples of
2016 of the word; up to 2³² this is the height.
-/

namespace Hazync
namespace Guest

open ByteStrings
open Accumulator (normalize)
open MerkleForest (PairInjective)

variable {H : Type}

/-! ## What the rules read in a list of headers -/

/-- The timestamp in a header. -/
def headerTime (header : Bytes) : UInt32 := UInt32.ofNat (ofLe (slice header 68 72))
/-- The target in a header, as it is encoded. -/
def headerBits (header : Bytes) : UInt32 := UInt32.ofNat (ofLe (slice header 72 76))
/-- The hash of a header. -/
def headerHash (hs : Hashing H) (header : Bytes) : Bytes32 := hs.digest (hs.dsha256 header)

/-- The timestamps from block 0 on: `times[h]` is that of height `h`. -/
def timesOf (headers : List Bytes) : List UInt32 := GENESIS_TIME :: headers.map headerTime

/-- The time of the last header, or of block 0. -/
def lastTime (headers : List Bytes) : UInt32 :=
  (headers.map headerTime).getLast?.getD GENESIS_TIME

/-- The target of the last header, or of block 0. -/
def lastBits (headers : List Bytes) : UInt32 :=
  (headers.map headerBits).getLast?.getD GENESIS_BITS

/-- The hash of the last header, or of block 0. -/
def lastHash (hs : Hashing H) (headers : List Bytes) : Bytes32 :=
  (headers.map (headerHash hs)).getLast?.getD GENESIS_HASH

/-- The last eleven of them, or all. -/
def lastEleven (times : List UInt32) : List UInt32 := times.drop (times.length - 11)

/-- The first timestamp of the epoch that the list ends in: the last one at a multiple of 2016. -/
def epochFirst (times : List UInt32) : UInt32 :=
  ((times.zipIdx.filter fun p => UInt32.ofNat p.2 % RETARGET_INTERVAL = 0).getLast?.map
    Prod.fst).getD GENESIS_TIME

/-- The difficulty bits after a list of headers. -/
def nextBits (core : Core) (headers : List Bytes) : UInt32 :=
  if UInt32.ofNat (headers.length + 1) % RETARGET_INTERVAL ≠ 0 then lastBits headers
  else calcNextBits core (lastBits headers) (epochFirst (timesOf headers)) (lastTime headers)

/-- What a header owes to the headers before it. -/
structure HeaderOk (hs : Hashing H) (core : Core) (headers : List Bytes) (header : Bytes) : Prop where
  size : header.length = 80
  /-- It names the hash of the one before it. -/
  prevhash : slice header 4 36 = (lastHash hs headers).toList
  /-- Its time is later than the median of the last eleven. -/
  time : medianTimePast (lastEleven (timesOf headers)) < headerTime header
  /-- Its target is the one that the difficulty rule gives at this height. -/
  nbits : headerBits header = nextBits core headers

/-- The state after a list of headers, apart from its coins. -/
structure StateAfter (hs : Hashing H) (headers : List Bytes) (b : Boundary H) : Prop where
  tipHash : b.tipHash = lastHash hs headers
  nbits : b.nbits = lastBits headers
  time : b.time = lastTime headers
  /-- The time of the first block since the last retarget. -/
  epochStart : b.epochStart = epochFirst (timesOf headers)
  recent : b.recent = lastEleven (timesOf headers)

/-! ## One header more -/

section

variable {hs : Hashing H} {core : Core} {headers : List Bytes}

theorem timesOf_append (header : Bytes) :
    timesOf (headers ++ [header]) = timesOf headers ++ [headerTime header] := by
  rw [timesOf, timesOf, List.map_append, List.cons_append]
  rfl

theorem length_timesOf (headers : List Bytes) : (timesOf headers).length = headers.length + 1 := by
  rw [timesOf, List.length_cons, List.length_map]

/-- What the guest keeps of the times are the last eleven. -/
theorem pushTime_lastEleven (times : List UInt32) (t : UInt32) :
    pushTime (lastEleven times) t = lastEleven (times ++ [t]) := by
  rw [pushTime, lastEleven, lastEleven, ← List.drop_append_of_le_length (Nat.sub_le _ _),
    List.drop_drop, List.length_drop, List.length_append, List.length_singleton]
  congr 1
  omega

/-- A time at a multiple of 2016 begins an epoch. -/
theorem epochFirst_append (times : List UInt32) (t : UInt32) :
    epochFirst (times ++ [t]) =
      if UInt32.ofNat times.length % RETARGET_INTERVAL = 0 then t else epochFirst times := by
  rw [epochFirst, List.zipIdx_append, List.filter_append]
  split
  · rename_i h
    simp [h]
  · rename_i h
    simp [h, epochFirst]

/-- Times between two multiples leave the epoch's first as it was. -/
theorem epochFirst_skip {times more : List UInt32}
    (h : ∀ i, times.length ≤ i → i < times.length + more.length →
      UInt32.ofNat i % RETARGET_INTERVAL ≠ 0) : epochFirst (times ++ more) = epochFirst times := by
  induction more using List.reverseRecOn with
  | nil => rw [List.append_nil]
  | append_singleton more t ih =>
    rw [List.length_append, List.length_singleton] at h
    have hlast := h (times ++ more).length (by rw [List.length_append]; exact Nat.le_add_right _ _)
      (by rw [List.length_append]; exact Nat.lt_succ_self _)
    rw [← List.append_assoc, epochFirst_append, if_neg hlast]
    exact ih fun i hi hlt => h i hi (Nat.lt_succ_of_lt hlt)

theorem ofNat_mod_retarget {i : ℕ} (hi : i < 2 ^ 32) :
    UInt32.ofNat i % RETARGET_INTERVAL = 0 ↔ i % 2016 = 0 := by
  rw [← UInt32.toNat_inj, UInt32.toNat_mod, UInt32.toNat_ofNat', Nat.mod_eq_of_lt hi]
  rfl

/-- A retarget reads the first timestamp of the epoch that ends, 2016 heights back. -/
theorem epochFirst_eq {times : List UInt32} (hlen : times.length ≤ 2 ^ 32) (hpos : 0 < times.length)
    (hmod : times.length % 2016 = 0) : times[times.length - 2016]? = some (epochFirst times) := by
  have hge : 2016 ≤ times.length := Nat.le_of_dvd hpos (Nat.dvd_of_mod_eq_zero hmod)
  obtain ⟨t, ht⟩ : ∃ t, times[times.length - 2016]? = some t :=
    ⟨_, List.getElem?_eq_getElem (by omega)⟩
  have hsplit : times = times.take (times.length - 2016) ++ [t] ++
      times.drop (times.length - 2016 + 1) := by
    rw [List.append_assoc, List.singleton_append, ← drop_of_getElem? ht, List.take_append_drop]
  have htake : (times.take (times.length - 2016)).length = times.length - 2016 :=
    List.length_take_of_le (Nat.sub_le _ _)
  rw [ht]
  conv_rhs => rw [hsplit]
  rw [epochFirst_skip, epochFirst_append, htake,
    if_pos ((ofNat_mod_retarget (by omega)).mpr (by omega))]
  intro i hi hlt
  rw [List.length_append, htake, List.length_singleton] at hi hlt
  rw [List.length_drop] at hlt
  exact (ofNat_mod_retarget (by omega)).not.mpr (by omega)

/-- The state after block 0 is what no header comes to. -/
theorem stateAfter_genesisTip : StateAfter hs [] (genesisTip : Boundary H) where
  tipHash := rfl
  nbits := rfl
  time := rfl
  epochStart := rfl
  recent := rfl

variable [DecidableEq H] {b before : Boundary H} {w : BlockWitness H} {mtp : UInt32}
  {chunks : Chunks H} {r : BlockResult H} {zkvm : Zkvm H} {selfId : ImageId} {st : RangeState H}

omit [DecidableEq H] in
theorem StateAfter.congr (h : StateAfter hs headers b) (hagrees : b.Agrees before) :
    StateAfter hs headers before where
  tipHash := hagrees.1 ▸ h.tipHash
  nbits := hagrees.2.2.2.1 ▸ h.nbits
  time := hagrees.2.2.2.2.1 ▸ h.time
  epochStart := hagrees.2.2.2.2.2.1 ▸ h.epochStart
  recent := hagrees.2.2.2.2.2.2 ▸ h.recent

/-- A block on the state after a list of headers keeps the rules as the list has them, and leads to
the state after its own header too. -/
theorem StateAfter.next (h : StateAfter hs headers b)
    (hr : validateBlock hs core w mtp chunks = some r)
    (he : Extends core b (UInt32.ofNat (headers.length + 1)) w r) :
    HeaderOk hs core headers w.header ∧
      StateAfter hs (headers ++ [w.header]) (b.next (UInt32.ofNat (headers.length + 1)) r) := by
  obtain ⟨hsize, htip, hnbits, htime⟩ := validateBlock_header hr
  have hlast {α : Type} (f : Bytes → α) (d : α) :
      ((headers ++ [w.header]).map f).getLast?.getD d = f w.header := by
    rw [List.map_append, List.map_singleton, List.getLast?_concat, Option.getD_some]
  constructor
  · exact
      { size := hsize
        prevhash := h.tipHash ▸ he.prevhash
        time := by
          have htm := he.time
          rw [htime, h.recent] at htm
          exact htm
        nbits := by
          have hnb := he.nbits
          rw [hnbits, expectedNbits, h.nbits, h.epochStart, h.time] at hnb
          exact hnb }
  · exact
      { tipHash := htip.trans (hlast (headerHash hs) _).symm
        nbits := hnbits.trans (hlast headerBits _).symm
        time := htime.trans (hlast headerTime _).symm
        epochStart := by
          rw [timesOf_append, epochFirst_append, length_timesOf, Boundary.next, htime, h.epochStart]
          rfl
        recent := by
          rw [timesOf_append, ← pushTime_lastEleven, Boundary.next, htime, h.recent]
          rfl }

/-- Every header keeps the rules, and is of a block that was accepted at its height. -/
structure Rules (hs : Hashing H) (core : Core) (headers : List Bytes) : Prop where
  header : ∀ pre header, pre ++ [header] <+: headers → HeaderOk hs core pre header
  block : ∀ pre header, pre ++ [header] <+: headers → ∃ w mtp r, w.header = header ∧
    w.height = UInt32.ofNat (pre.length + 1) ∧
    validateBlock hs core w mtp Chunks.none = some r ∧ r.blockValid = true

theorem Rules.nil : Rules hs core [] where
  header pre header h := by simp at h
  block pre header h := by simp at h

/-- A header that keeps the rules, of a block that was accepted, makes the list longer. -/
theorem Rules.append (h : Rules hs core headers) (hok : HeaderOk hs core headers w.header)
    (hheight : w.height = UInt32.ofNat (headers.length + 1))
    (hr : validateBlock hs core w mtp Chunks.none = some r) (hvalid : r.blockValid = true) :
    Rules hs core (headers ++ [w.header]) where
  header pre header hpre := by
    rcases List.prefix_concat_iff.mp hpre with heq | hpre
    · obtain ⟨rfl, hsingle⟩ := List.append_inj' heq rfl
      obtain rfl := List.singleton_inj.mp hsingle
      exact hok
    · exact h.header pre header hpre
  block pre header hpre := by
    rcases List.prefix_concat_iff.mp hpre with heq | hpre
    · obtain ⟨rfl, hsingle⟩ := List.append_inj' heq rfl
      obtain rfl := List.singleton_inj.mp hsingle
      exact ⟨w, mtp, r, rfl, hheight, hr, hvalid⟩
    · exact h.block pre header hpre

/-- What a list of headers from block 1 on says of a range over their blocks. -/
structure History (hs : Hashing H) (core : Core) (headers : List Bytes) (st : RangeState H) :
    Prop where
  hi : st.hi = UInt32.ofNat headers.length
  /-- Each header keeps the rules on the ones before it, from genesis on. -/
  rules : Rules hs core headers
  /-- The range's out-boundary is what they come to. -/
  after : StateAfter hs headers st.after
  /-- Their work, modulo the word that it is kept in. -/
  work : st.rangeWork = (headers.map fun h => blockProof core (headerBits h)).sum % 2 ^ 256

/-- A block that is proved as a range on the state after some headers. -/
theorem StateAfter.range (h : StateAfter hs headers before) (hrules : Rules hs core headers)
    (hst : proveRange hs core before w selfId = some st)
    (hlo : st.lo = UInt32.ofNat (headers.length + 1)) :
    st.hi = UInt32.ofNat (headers.length + 1) ∧ Rules hs core (headers ++ [w.header]) ∧
      StateAfter hs (headers ++ [w.header]) st.after := by
  obtain ⟨r, hr, he, rfl⟩ := proveRange_eq_some.mp hst
  have hlo : w.height = UInt32.ofNat (headers.length + 1) := hlo
  rw [hlo] at he
  obtain ⟨hok, hafter⟩ := h.next hr he
  refine ⟨hlo, hrules.append hok hlo hr he.valid, ?_⟩
  dsimp only
  rw [hlo]
  exact hafter

/-- Ranges of single blocks that meet, the first of them block 1 on the state after block 0. -/
theorem history_of_blocks {first : RangeState H} {rest : List (RangeState H)}
    (hblocks : ∀ x ∈ first :: rest, ∃ before w, proveRange hs core before w selfId = some x)
    (hmeets : (first :: rest).IsChain seamOk) (hlo : first.lo = 1)
    (hbefore : first.before.Agrees genesisTip) :
    ∃ headers, headers.length = rest.length + 1 ∧
      History hs core headers (rest.foldl RangeState.join first) := by
  induction rest using List.reverseRecOn with
  | nil =>
    obtain ⟨before, w, hfirst⟩ := hblocks first List.mem_cons_self
    obtain ⟨-, -, -, rfl, -⟩ := proveRange_ok hfirst
    have hgenesis : StateAfter hs [] first.before := stateAfter_genesisTip.congr hbefore.symm
    obtain ⟨hhi, hrules, hafter⟩ := hgenesis.range Rules.nil hfirst hlo
    refine ⟨[w.header], rfl, hhi, hrules, hafter, ?_⟩
    rw [List.foldl_nil, rangeWork_of_proveRange hfirst, List.map_singleton, List.sum_singleton]
    rfl
  | append_singleton rest x ih =>
    obtain ⟨hinit, -, hseam⟩ := (seams.isChain_append first x rest []).mp hmeets
    obtain ⟨headers, hlen, hhist⟩ := ih
      (fun y hy => hblocks y (by rw [← List.cons_append]; exact List.mem_append_left _ hy)) hinit
    obtain ⟨before, w, hx⟩ := hblocks x (by simp)
    obtain ⟨-, -, -, rfl, -⟩ := proveRange_ok hx
    obtain ⟨hadjacent, hagrees, -⟩ := seamOk_iff.mp hseam
    have hstate : StateAfter hs headers x.before := hhist.after.congr hagrees
    have hheight : x.lo = UInt32.ofNat (headers.length + 1) := by
      rw [UInt32.ofNat_add, ← hhist.hi]
      exact hadjacent.symm
    obtain ⟨hhi, hrules, hafter⟩ := hstate.range hhist.rules hx hheight
    refine ⟨headers ++ [w.header], by rw [List.length_append, List.length_append, hlen]; rfl, ?_⟩
    rw [List.foldl_concat]
    refine ⟨?_, hrules, hafter, ?_⟩
    · rw [List.length_append]
      exact hhi
    · rw [RangeState.join, add256, hhist.work, rangeWork_of_proveRange hx, List.map_append,
        List.sum_append, ← Nat.add_mod, List.map_singleton, List.sum_singleton]
      rfl

/-! ## The shape of the accumulator -/

omit [DecidableEq H] in
theorem commitsBelow_genesisTip {K : Type} {n : ℕ} {f : H → K} {parent' : K → K → K} :
    Stump.CommitsBelow n f parent' (genesisTip : Boundary H).stump [] := by
  refine ⟨Accumulator.Stump.empty, ⟨rfl, fun k _ => ?_⟩, Accumulator.Stump.Commits.empty⟩
  cases k with
  | zero => rfl
  | succ k => rfl

section

variable {K : Type} [DecidableEq K] {f : H → K} {parent' : K → K → K}

/-- A block leads from leaves to leaves, and adds at most as many as the guest has room for. -/
theorem below_of_range (hinj : PairInjective parent')
    (hf : ∀ a b, f (hs.parent a b) = parent' (f a) (f b)) {n : ℕ} (hn : 64 ≤ n) {L : List K}
    (hst : proveRange hs core before w selfId = some st)
    (hroom : n = 64 ∨ L.length + vecCapacity32 < 2 ^ 64)
    (hL : Stump.CommitsBelow n f parent' before.stump L) :
    ∃ L', L'.length ≤ L.length + vecCapacity32 ∧
      Stump.CommitsBelow n f parent' st.after.stump L' := by
  obtain ⟨r, hr, he, rfl⟩ := proveRange_eq_some.mp hst
  obtain ⟨cb, views, s, stump, hval⟩ := validateBlock_ok (fun pre _ => scriptsSound_none pre) hr
    (blockValid_iff.mp he.valid).1.1
  obtain ⟨D, L', hsplit, hle, hL'⟩ := he.below hinj hf hn hval hroom hL
  refine ⟨L', ?_, hL'⟩
  have hD := congrArg Multiset.card hsplit
  have hcard := Multiset.card_le_card hle
  rw [Multiset.card_add, Multiset.coe_card, Multiset.coe_card] at hD
  rw [Multiset.coe_card, Multiset.coe_card, List.length_append, List.length_map] at hcard
  exact hcard.trans (Nat.add_le_add (hD ▸ Nat.le_add_left _ _) hval.keptLeaves_length)

/-- The roots of a run of blocks are an accumulator's, as far as the leaf count reaches. -/
theorem below_of_blocks (hinj : PairInjective parent')
    (hf : ∀ a b, f (hs.parent a b) = parent' (f a) (f b)) {n : ℕ} (hn : 64 ≤ n)
    {first : RangeState H} {rest : List (RangeState H)}
    (hblocks : ∀ x ∈ first :: rest, ∃ before w, proveRange hs core before w selfId = some x)
    (hmeets : (first :: rest).IsChain seamOk) (hbefore : first.before.Agrees genesisTip)
    (hroom : n = 64 ∨ rest.length + 1 < 2 ^ 36) :
    ∃ L, L.length ≤ (rest.length + 1) * vecCapacity32 ∧
      Stump.CommitsBelow n f parent' (rest.foldl RangeState.join first).after.stump L := by
  -- so few blocks do not fill a 64-bit count
  have hcap {m : ℕ} (hm : m < 2 ^ 36) : m * vecCapacity32 + vecCapacity32 < 2 ^ 64 := by
    have hle : m * vecCapacity32 ≤ 2 ^ 36 * vecCapacity32 := Nat.mul_le_mul_right _ hm.le
    refine lt_of_le_of_lt (Nat.add_le_add_right hle _) (by decide)
  induction rest using List.reverseRecOn with
  | nil =>
    obtain ⟨before, w, hfirst⟩ := hblocks first List.mem_cons_self
    obtain ⟨-, -, -, rfl, -⟩ := proveRange_ok hfirst
    obtain ⟨L, hlen, hL⟩ := below_of_range hinj hf hn (L := []) hfirst
      (.inr (show 0 + vecCapacity32 < 2 ^ 64 by decide))
      (hbefore.symm.below commitsBelow_genesisTip)
    exact ⟨L, by simpa using hlen, hL⟩
  | append_singleton rest x ih =>
    obtain ⟨hinit, -, hseam⟩ := (seams.isChain_append first x rest []).mp hmeets
    rw [List.length_append, List.length_singleton] at hroom ⊢
    obtain ⟨L, hlen, hL⟩ := ih
      (fun y hy => hblocks y (by rw [← List.cons_append]; exact List.mem_append_left _ hy)) hinit
      (hroom.imp_right Nat.lt_of_succ_lt)
    obtain ⟨before, w, hx⟩ := hblocks x (by simp)
    obtain ⟨-, -, -, rfl, -⟩ := proveRange_ok hx
    obtain ⟨-, hagrees, -⟩ := seamOk_iff.mp hseam
    obtain ⟨L', hlen', hL'⟩ := below_of_range hinj hf hn hx
      (hroom.imp_right fun h => lt_of_le_of_lt (Nat.add_le_add_right hlen _)
        (hcap (Nat.lt_of_succ_lt h))) (hagrees.below hL)
    refine ⟨L', hlen'.trans ?_, ?_⟩
    · rw [Nat.succ_mul (rest.length + 1)]
      exact Nat.add_le_add_right hlen _
    · rw [List.foldl_concat]
      exact hL'

end

/-! ## One list -/

theorem Rules.init {header : Bytes} (h : Rules hs core (headers ++ [header])) :
    Rules hs core headers where
  header pre a hpre := h.header pre a (hpre.trans (List.prefix_append _ _))
  block pre a hpre := h.block pre a (hpre.trans (List.prefix_append _ _))

/-- Two lists that are linked from block 0 to one tip and of one length are one list, unless two of
their headers collide. -/
theorem Rules.unique {headers' : List Bytes} (h : Rules hs core headers)
    (h' : Rules hs core headers') (hlen : headers.length = headers'.length)
    (htip : lastHash hs headers = lastHash hs headers')
    (hinj : ∀ a ∈ headers, ∀ b ∈ headers', headerHash hs a = headerHash hs b → a = b) :
    headers = headers' := by
  have hlast (l : List Bytes) (a : Bytes) : lastHash hs (l ++ [a]) = headerHash hs a := by
    rw [lastHash, List.map_append, List.map_singleton, List.getLast?_concat, Option.getD_some]
  induction headers using List.reverseRecOn generalizing headers' with
  | nil => exact (List.length_eq_zero_iff.mp hlen.symm).symm
  | append_singleton pre a ih =>
    rcases List.eq_nil_or_concat' headers' with rfl | ⟨pre', b, rfl⟩
    · rw [List.length_append] at hlen
      cases hlen
    · rw [hlast, hlast] at htip
      have hab := hinj a (by simp) b (by simp) htip
      have hprev := (h.header pre a (List.prefix_refl _)).prevhash
      rw [hab, (h'.header pre' b (List.prefix_refl _)).prevhash] at hprev
      have hpre := ih h.init h'.init (by simpa using hlen)
        (List.Vector.toList_injective hprev).symm
        fun c hc d hd => hinj c (List.mem_append_left _ hc) d (List.mem_append_left _ hd)
      rw [hpre, hab]

/-- At a height of 32 bits the rule reads off the list itself: the bits stay, or are computed from
the first and the last timestamp of the 2016 before. -/
theorem nextBits_eq (h : headers.length + 1 < 2 ^ 32) :
    nextBits core headers =
      if (headers.length + 1) % 2016 ≠ 0 then lastBits headers
      else calcNextBits core (lastBits headers)
        ((timesOf headers)[headers.length + 1 - 2016]?.getD 0) (lastTime headers) := by
  rw [nextBits]
  by_cases hmod : (headers.length + 1) % 2016 = 0
  · rw [if_neg (not_not.mpr ((ofNat_mod_retarget h).mpr hmod)), if_neg (not_not.mpr hmod)]
    have hlen : (timesOf headers).length ≤ 2 ^ 32 := by
      rw [length_timesOf]
      exact h.le
    have hfirst := epochFirst_eq hlen (by rw [length_timesOf]; exact Nat.succ_pos _)
      (by rw [length_timesOf]; exact hmod)
    rw [length_timesOf] at hfirst
    rw [hfirst, Option.getD_some]
  · rw [if_pos ((ofNat_mod_retarget h).not.mpr hmod), if_pos hmod]

/-! ## The theorem -/

/-- **What a genesis-anchored range stands on.** Whatever states the host made up for the blocks,
there is one list of headers from block 1 on that is linked, keeps the rules for time and
difficulty as the list itself has them, and determines the last state and the work. -/
theorem genesis_anchored_history (h : RangeProof hs core zkvm selfId st)
    (hgenesis : st.isGenesisAnchored hs = .ok ()) :
    ∃ headers, headers ≠ [] ∧ st.lo = 1 ∧ History hs core headers st ∧
      (∀ pre header, pre ++ [header] <+: headers → pre.length + 1 < 2 ^ 32 →
        headerBits header = if (pre.length + 1) % 2016 ≠ 0 then lastBits pre
          else calcNextBits core (lastBits pre)
            ((timesOf pre)[pre.length + 1 - 2016]?.getD 0) (lastTime pre)) ∧
      (∀ k, k < 64 ∨ headers.length < 2 ^ 32 →
        ((st.after.roots[k]?.join).isSome ↔ st.after.leaves.toNat.testBit k = true)) ∧
      ∀ headers', headers'.length = headers.length → History hs core headers' st →
        (∀ a ∈ headers, ∀ b ∈ headers', headerHash hs a = headerHash hs b → a = b) →
        headers' = headers := by
  obtain ⟨hlo, hbefore, -⟩ := isGenesisAnchored_iff.mp hgenesis
  obtain ⟨first, rest, hblocks, hmeets, rfl⟩ := h.exists_blocks
  obtain ⟨hlo', hbefore', -⟩ := foldl_join_front first rest
  rw [hlo'] at hlo
  rw [hbefore'] at hbefore
  obtain ⟨headers, hlen, hhist⟩ := history_of_blocks hblocks hmeets hlo hbefore
  refine ⟨headers, ?_, hlo'.trans hlo, hhist, ?_, ?_, ?_⟩
  · rintro rfl
    cases hlen
  · intro pre header hpre hheight
    rw [(hhist.rules.header pre header hpre).nbits, nextBits_eq hheight]
  · intro k hk
    have hroom : max 64 (k + 1) = 64 ∨ rest.length + 1 < 2 ^ 36 :=
      hk.imp (fun h => max_eq_left h) (fun h => lt_trans (hlen ▸ h) (by decide))
    obtain ⟨L, -, hL⟩ := below_of_blocks (f := fun _ => ())
      (show PairInjective fun _ _ : Unit => () from fun _ _ _ _ _ => ⟨rfl, rfl⟩) (fun _ _ => rfl)
      (le_max_left 64 (k + 1)) hblocks hmeets hbefore hroom
    exact hL.occupied (lt_of_lt_of_le (Nat.lt_succ_self k) (le_max_right _ _))
  · intro headers' hlen' hhist' hinj
    refine (hhist.rules.unique hhist'.rules hlen'.symm ?_ hinj).symm
    rw [← hhist.after.tipHash, hhist'.after.tipHash]

end

section

open OpTrue

/-- The fold of the first two blocks. -/
theorem genesis_anchored_history_blocks : ∃ st headers,
    RangeProof idealHashing OpTrue.core OpTrue.zkvm (.replicate 8 0) st ∧ st.hi = 2 ∧
      History idealHashing OpTrue.core headers st := by
  obtain ⟨wit₁, st₁, h₁, hlo₁, hhi₁, hbefore₁, hin₁, hout₁, hafter₁⟩ := proveRange_block1
  obtain ⟨wit₂, st₂, h₂, hlo₂, hhi₂, hbefore₂, hin₂, -⟩ := proveRange_block2
  have hseam : seamOk st₁ st₂ := by
    refine seamOk_iff.mpr ⟨?_, ?_, ?_⟩
    · rw [hhi₁, hlo₂]
      rfl
    · rw [hafter₁, hbefore₂]
      exact .refl _
    · rw [hout₁, hin₂]
  have hproof : RangeProof idealHashing OpTrue.core OpTrue.zkvm (.replicate 8 0) (st₁.join st₂) :=
    .fold (commit.decode_range st₁) (commit.decode_range st₂) (.block h₁) (.block h₂)
      ((foldRange_iff (commit.decode_range st₁) (commit.decode_range st₂) (.block h₁)
        (.block h₂)).mpr ⟨⟨verify_zkvm _, verify_zkvm _⟩, hseam, rfl⟩)
  have hgenesis : (st₁.join st₂).isGenesisAnchored idealHashing = .ok () :=
    isGenesisAnchored_iff.mpr ⟨hlo₁, by rw [RangeState.join, hbefore₁]; exact .refl _, hin₁⟩
  obtain ⟨headers, -, -, hhist, -⟩ := genesis_anchored_history hproof hgenesis
  exact ⟨_, headers, hproof, hhi₂, hhist⟩

end
end Guest
end Hazync
