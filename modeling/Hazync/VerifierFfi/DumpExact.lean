import Hazync.Guest.MedianTime
import Hazync.VerifierFfi.DumpRecords

/-!
# What the dump check accepts

As many records as there are positions, each at a position of its own, fill every slot. The leaves
in the slots are then those of one list of coins, and the forest over them has the roots of the
state exactly when they are the leaves the state's roots commit to.

## One list of coins

A dump lists the coins of a height, and each record says at which position of the accumulator its
coin is. The check does not believe it. It puts the leaf of each coin into the slot that the record
names, builds the forest, and compares roots. That it is exact has three parts. A run of the loop
over all records fills every slot once, as there are as many records as slots and none may be filled
twice. The leaves in the slots are those of a list of coins (`filled_iff`). And a forest has the
state's roots only if its leaves are those that the state commits to, where nodes are told apart.

The state has its roots without the empty ones, in an array of fixed length. This loses nothing:
which roots are empty is known from the number of leaves, which is compared first.

## Total

The function has no panic and no undefined result for any string (`hazyncCheckUtxoDump_of_commits`).
A string that is too short, has another magic, another height or count, records that are cut off or
a position that is out of range or taken, or bytes after the last record: each has an error of its
own, and the order of the records is free.
-/

namespace Hazync
namespace VerifierFfi

open ByteStrings Guest
open Accumulator (Forest)
open MerkleForest (PairInjective)

variable {H : Type} {hs : Hashing H} {n : ℕ} {slots slots' : List (Option H)}
  {coins coins' : List DumpCoin}

/-- The state has the count of `L`, and the non-empty roots of the accumulator over `L`. -/
structure HazyncState.Commits (parent : H → H → H) (pv : HazyncState H) (L : List H) : Prop where
  leaves : pv.utxoLeaves.toNat = L.length
  /-- The empty roots are left out, since the state has no place for them. -/
  roots : (Accumulator.Reference.naiveRoots parent L).map List.reduceOption = some pv.roots
  /-- They fit into the array of the C structure. -/
  room : pv.rootCount.toNat ≤ HAZYNC_MAX_ROOTS

/-- The records are those of the coins `arr`, each at the position it says: the positions are
    `0..n-1` in some order. -/
structure Arranges (coins : List DumpCoin) (arr : List Coin) : Prop where
  /-- Each position comes once. -/
  positions : (coins.map fun c => c.pos.toNat).Perm (List.range coins.length)
  length : arr.length = coins.length
  /-- A record says where its coin is. -/
  coin : ∀ c ∈ coins, arr[c.pos.toNat]? = some c.coin

/-- The records arrange one list of coins. -/
theorem Arranges.unique {arr arr' : List Coin} (h : Arranges coins arr) (h' : Arranges coins arr') :
    arr = arr' := by
  apply List.ext_getElem?
  intro p
  rcases Nat.lt_or_ge p coins.length with hp | hp
  · obtain ⟨c, hc, rfl⟩ := List.mem_map.mp (h.positions.mem_iff.mpr (List.mem_range.mpr hp))
    rw [h.coin c hc, h'.coin c hc]
  · rw [List.getElem?_eq_none (h.length ▸ hp), List.getElem?_eq_none (h'.length ▸ hp)]

/-! ## Filled slots -/

/-- No slot is added or lost. -/
theorem Filled.length (h : Filled hs slots coins slots') : slots'.length = slots.length := by
  induction h with
  | nil slots => rfl
  | cons _ _ ih => rw [ih, List.length_set]

/-- A slot that is taken stays as it is. -/
theorem Filled.kept (h : Filled hs slots coins slots') {p : ℕ} {leaf : H}
    (hp : slots[p]? = some (some leaf)) : slots'[p]? = some (some leaf) := by
  induction h with
  | nil slots => exact hp
  | @cons slots slots' c coins hfree _ ih =>
    refine ih ?_
    rw [List.getElem?_set_ne, hp]
    intro heq
    rw [heq, hp] at hfree
    cases hfree

/-- Each record's slot has its leaf. -/
theorem Filled.leaf (h : Filled hs slots coins slots') :
    ∀ c ∈ coins, slots'[c.pos.toNat]? = some (some (c.coin.leaf hs)) := by
  induction h with
  | nil slots => exact fun c hc => absurd hc List.not_mem_nil
  | @cons slots slots' c coins hfree hfilled ih =>
    refine List.forall_mem_cons.mpr ⟨hfilled.kept ?_, ih⟩
    rw [List.getElem?_set_self (List.getElem?_eq_some_iff.mp hfree).1]

/-- Each record has a position of its own, that was free. -/
theorem Filled.positions (h : Filled hs slots coins slots') :
    (coins.map fun c => c.pos.toNat).Nodup ∧ ∀ c ∈ coins, slots[c.pos.toNat]? = some none := by
  induction h with
  | nil slots => exact ⟨List.nodup_nil, fun c hc => absurd hc List.not_mem_nil⟩
  | @cons slots slots' c coins hfree hfilled ih =>
    obtain ⟨hnodup, hall⟩ := ih
    have hlt := (List.getElem?_eq_some_iff.mp hfree).1
    have hne : ∀ d ∈ coins, c.pos.toNat ≠ d.pos.toNat := by
      intro d hd heq
      have hslot := hall d hd
      rw [← heq, List.getElem?_set_self hlt] at hslot
      cases hslot
    refine ⟨List.nodup_cons.mpr ⟨?_, hnodup⟩, List.forall_mem_cons.mpr ⟨hfree, ?_⟩⟩
    · intro hmem
      obtain ⟨d, hd, heq⟩ := List.mem_map.mp hmem
      exact hne d hd heq.symm
    · intro d hd
      rw [← hall d hd, List.getElem?_set_ne (hne d hd)]

/-- Records at free positions, each of its own, can be filled in. -/
theorem exists_filled (hnodup : (coins.map fun c => c.pos.toNat).Nodup)
    (hfree : ∀ c ∈ coins, slots[c.pos.toNat]? = some none) :
    ∃ slots', Filled hs slots coins slots' := by
  induction coins generalizing slots with
  | nil => exact ⟨slots, .nil slots⟩
  | cons c coins ih =>
    obtain ⟨hc, hnodup⟩ := List.nodup_cons.mp hnodup
    obtain ⟨hslot, hfree⟩ := List.forall_mem_cons.mp hfree
    have hrest : ∀ d ∈ coins,
        (slots.set c.pos.toNat (some (c.coin.leaf hs)))[d.pos.toNat]? = some none := by
      intro d hd
      rw [List.getElem?_set_ne, hfree d hd]
      exact fun heq => hc (List.mem_map.mpr ⟨d, hd, heq.symm⟩)
    obtain ⟨slots', hfilled⟩ := ih hnodup hrest
    exact ⟨slots', .cons hslot hfilled⟩

/-- Distinct positions below the number of records are all of them. -/
theorem perm_range_of_nodup {ps : List ℕ} (hnodup : ps.Nodup) (hlt : ∀ p ∈ ps, p < ps.length) :
    ps.Perm (List.range ps.length) :=
  (List.subperm_of_subset hnodup fun p hp => List.mem_range.mpr (hlt p hp)).perm_of_length_le
    (by rw [List.length_range])

/-- As many records as slots are at all the positions. -/
theorem Filled.perm_range (h : Filled hs (.replicate coins.length none) coins slots') :
    (coins.map fun c => c.pos.toNat).Perm (List.range coins.length) := by
  obtain ⟨hnodup, hfree⟩ := h.positions
  have hperm := perm_range_of_nodup hnodup fun p hp => by
    obtain ⟨c, hc, rfl⟩ := List.mem_map.mp hp
    have hlt := (List.getElem?_eq_some_iff.mp (hfree c hc)).1
    rw [List.length_map]
    rwa [List.length_replicate] at hlt
  rwa [List.length_map] at hperm

/-- **The slots after a full run** hold the leaves of the coins the records arrange. -/
theorem filled_iff (hleaf : hs.LeafInjective) :
    Filled hs (.replicate coins.length none) coins slots' ↔
      ∃ arr, Arranges coins arr ∧ slots' = (arr.map (Coin.leaf hs)).map some := by
  constructor
  · intro h
    have hlen : slots'.length = coins.length := by rw [h.length, List.length_replicate]
    have hperm := h.perm_range
    -- every slot has a record, so the list of slots is in the range of the leaves
    have hrange : slots' ∈ Set.range (List.map fun coin : Coin => some (coin.leaf hs)) := by
      rw [Set.range_list_map]
      intro slot hslot
      obtain ⟨p, hp⟩ := List.mem_iff_getElem?.mp hslot
      have hlt := (List.getElem?_eq_some_iff.mp hp).1
      obtain ⟨c, hc, rfl⟩ := List.mem_map.mp
        (hperm.mem_iff.mpr (List.mem_range.mpr (hlen ▸ hlt)))
      rw [h.leaf c hc] at hp
      exact ⟨c.coin, Option.some.inj hp⟩
    obtain ⟨arr, rfl⟩ := hrange
    refine ⟨arr, ⟨hperm, by rw [← hlen, List.length_map], fun c hc => ?_⟩, ?_⟩
    · have hget := h.leaf c hc
      rw [List.getElem?_map] at hget
      obtain ⟨coin, harr, heq⟩ := Option.map_eq_some_iff.mp hget
      rw [harr, Coin.leaf_injective hleaf (Option.some.inj heq)]
    · rw [List.map_map]
      rfl
  · rintro ⟨arr, harr, rfl⟩
    have hlt : ∀ c ∈ coins, c.pos.toNat < coins.length := fun c hc =>
      List.mem_range.mp (harr.positions.mem_iff.mp (List.mem_map.mpr ⟨c, hc, rfl⟩))
    obtain ⟨slots', hfilled⟩ : ∃ slots', Filled hs (.replicate coins.length none) coins slots' := by
      refine exists_filled (harr.positions.nodup_iff.mpr List.nodup_range) fun c hc => ?_
      rw [List.getElem?_replicate, if_pos (hlt c hc)]
    convert hfilled
    have hlen : slots'.length = coins.length := by rw [hfilled.length, List.length_replicate]
    apply List.ext_getElem?
    intro p
    rcases Nat.lt_or_ge p coins.length with hp | hp
    · obtain ⟨c, hc, rfl⟩ := List.mem_map.mp (harr.positions.mem_iff.mpr (List.mem_range.mpr hp))
      rw [hfilled.leaf c hc, List.getElem?_map, List.getElem?_map, harr.coin c hc]
      rfl
    · rw [List.getElem?_eq_none (by rw [List.length_map, List.length_map, harr.length]; exact hp),
        List.getElem?_eq_none (hlen ▸ hp)]

/-! ## The roots -/

/-- Slots that are all taken. -/
theorem mapM_id_some (leaves : List H) : (leaves.map some).mapM id = some leaves := by
  induction leaves with
  | nil => rfl
  | cons x leaves ih => simp [List.mapM_cons, ih]

variable [DecidableEq H] {pv : HazyncState H} {L : List H}

/-- The loop compares the two lists of roots. -/
theorem rootsEqual_eq {utxoRoots present : List H} {i : ℕ}
    (h : i + present.length ≤ utxoRoots.length) :
    rootsEqual utxoRoots i present =
      some (decide (present = (utxoRoots.drop i).take present.length)) := by
  induction present generalizing i with
  | nil => rfl
  | cons r present ih =>
    rw [List.length_cons] at h
    have hi : i < utxoRoots.length := by omega
    rw [rootsEqual, List.getElem?_eq_getElem hi, Option.bind_eq_bind, Option.bind_some,
      List.drop_eq_getElem_cons hi, List.length_cons, List.take_succ_cons]
    by_cases hr : r = utxoRoots[i]
    · rw [if_neg (not_not.mpr hr), ih (by omega), hr]
      simp only [List.cons.injEq, true_and]
    · rw [if_pos hr]
      simp [hr]

/-- Full slots pass on the leaves the state commits to, and on no others of that number. -/
theorem checkSlots_eq (hnode : hs.NodeInjective) (hpv : pv.Commits hs.parent L) {leaves : List H}
    (hlen : leaves.length = L.length) :
    checkSlots hs (leaves.map some) pv =
      some (if leaves = L then HAZYNC_OK else HAZYNC_ERR_DUMP_ROOTS) := by
  obtain ⟨v, hv, -⟩ := Accumulator.Reference.naiveRoots_spec hs.parent leaves
  have hL : leaves.length < 2 ^ 64 := by
    rw [hlen, ← hpv.leaves]
    exact pv.utxoLeaves.toNat_lt
  have hroots : (Forest.fromLeaves hs.parent leaves).roots = some v := by
    rw [Accumulator.Forest.roots_of_isCache (Accumulator.Forest.Kept.fromLeaves leaves).cache]
    exact hv
  have hlist : pv.utxoRoots.toList.length = HAZYNC_MAX_ROOTS := pv.utxoRoots.toList_length
  have hcount : pv.roots.length = pv.rootCount.toNat := by
    rw [HazyncState.roots, List.length_take_of_le]
    rw [hlist]
    exact hpv.room
  -- the lists are one where the roots without the gaps are
  have hiff : leaves = L ↔ v.reduceOption = pv.roots := by
    constructor
    · rintro rfl
      have hcommits := hpv.roots
      rw [hv] at hcommits
      exact Option.some.inj hcommits
    · intro heq
      refine Accumulator.eq_of_present_eq hnode.parent hL hlen ?_
      rw [hpv.roots, hv, Option.map_some, heq]
  rw [checkSlots, mapM_id_some]
  dsimp only
  rw [hroots, Option.bind_eq_bind, Option.bind_some]
  by_cases hpresent : v.reduceOption.length = pv.rootCount.toNat
  · rw [if_neg (not_not.mpr hpresent), rootsEqual_eq (by rw [Nat.zero_add, hpresent, hlist]; exact hpv.room),
      Option.bind_eq_bind, Option.bind_some, List.drop_zero, hpresent]
    simp only [hiff, HazyncState.roots, decide_eq_true_eq]
  · rw [if_pos hpresent, if_neg]
    intro heq
    exact hpresent (hcount ▸ congrArg List.length (hiff.mp heq))

/-! ## The header -/

/-- The checks of a header that has been read. -/
theorem check_header {buf rest : Bytes} {version height : UInt32} {count : UInt64}
    (hbuf : buf = DUMP_MAGIC ++ (le32 version ++ (le32 height ++ (le64 count ++ rest)))) :
    hazyncCheckUtxoDump hs buf pv =
      if version ≠ 1 then some HAZYNC_ERR_DUMP_VERSION
      else if height ≠ pv.height then some HAZYNC_ERR_DUMP_HEIGHT
      else if count ≠ pv.utxoLeaves then some HAZYNC_ERR_DUMP_COUNT
      else (do
        match ← readCoins hs buf count.toNat count.toNat HDR (.replicate count.toNat none) with
        | .error e => some e
        | .ok (o, slots) =>
          if o ≠ buf.length then some HAZYNC_ERR_DUMP_TRUNC else checkSlots hs slots pv) := by
  have hlen : buf.length = HDR + rest.length := by
    rw [hbuf]
    simp only [List.length_append, length_le32, length_le64]
    simp only [DUMP_MAGIC, HDR, List.length_cons, List.length_nil]
    omega
  have hmagic : slice? buf 0 8 = some DUMP_MAGIC := slice?_field [] _ hbuf rfl rfl
  have hversion : rd32 buf 8 = some version := rd32_field DUMP_MAGIC _ hbuf rfl
  have hheight : rd32 buf 12 = some height :=
    rd32_field (DUMP_MAGIC ++ le32 version) (le64 count ++ rest) (by simp [hbuf])
      (by simp [DUMP_MAGIC])
  have hcount : rd64 buf 16 = some count :=
    rd64_field (DUMP_MAGIC ++ (le32 version ++ le32 height)) rest (by simp [hbuf])
      (by simp [DUMP_MAGIC])
  have hlt : ¬ buf.length < HDR := by omega
  have hpos : buf.length ≠ 0 := by rw [hlen, HDR]; omega
  rw [hazyncCheckUtxoDump, if_neg hpos, if_neg (not_or.mpr ⟨hlt, not_not.mpr hmagic⟩), hversion,
    hheight, hcount]
  rfl

/-- Bytes that are no header end the check. -/
theorem check_or_header (buf : Bytes) (pv : HazyncState H) :
    (∃ rest, buf = dumpHeader pv.height pv.utxoLeaves ++ rest) ∨
      ∃ e, e ≠ HAZYNC_OK ∧ hazyncCheckUtxoDump hs buf pv = some e := by
  by_cases hnull : buf.length = 0
  · exact .inr ⟨HAZYNC_ERR_NULL, by decide, by rw [hazyncCheckUtxoDump, if_pos hnull]⟩
  by_cases hmagic : buf.length < HDR ∨ slice? buf 0 8 ≠ some DUMP_MAGIC
  · exact .inr ⟨HAZYNC_ERR_DUMP_MAGIC, by decide,
      by rw [hazyncCheckUtxoDump, if_neg hnull, if_pos hmagic]⟩
  obtain ⟨hshort, hslice⟩ := not_or.mp hmagic
  have hlen : 24 ≤ buf.length := Nat.not_lt.mp hshort
  obtain ⟨magic, rest₁, rfl, h₁⟩ := exists_split (n := 8) (le_trans (by decide) hlen)
  rw [List.length_append, h₁] at hlen
  have hmag : slice? (magic ++ rest₁) 0 8 = some magic := slice?_field [] _ rfl rfl
    (by rw [h₁]; rfl)
  obtain rfl : magic = DUMP_MAGIC := Option.some.inj (hmag.symm.trans (not_not.mp hslice))
  obtain ⟨version, rest₂, rfl, h₂⟩ := exists_split (b := rest₁) (n := 4) (by omega)
  rw [List.length_append, h₂] at hlen
  obtain ⟨height, rest₃, rfl, h₃⟩ := exists_split (b := rest₂) (n := 4) (by omega)
  rw [List.length_append, h₃] at hlen
  obtain ⟨count, rest, rfl, h₄⟩ := exists_split (b := rest₃) (n := 8) (by omega)
  rw [← le32_ofLe h₂, ← le32_ofLe h₃, ← le64_ofLe h₄, check_header rfl]
  by_cases hversion : UInt32.ofNat (ofLe version) = 1
  · by_cases hheight : UInt32.ofNat (ofLe height) = pv.height
    · by_cases hcount : UInt64.ofNat (ofLe count) = pv.utxoLeaves
      · refine .inl ⟨rest, ?_⟩
        rw [hversion, hheight, hcount, dumpHeader]
        simp only [List.append_assoc]
      · refine .inr ⟨HAZYNC_ERR_DUMP_COUNT, by decide, ?_⟩
        rw [if_neg (not_not.mpr hversion), if_neg (not_not.mpr hheight), if_pos hcount]
    · refine .inr ⟨HAZYNC_ERR_DUMP_HEIGHT, by decide, ?_⟩
      rw [if_neg (not_not.mpr hversion), if_pos hheight]
  · exact .inr ⟨HAZYNC_ERR_DUMP_VERSION, by decide, if_pos hversion⟩

/-! ## The whole check -/

/-- The dump with these records, as it has to be for this state. -/
def dump (pv : HazyncState H) (coins : List DumpCoin) : Bytes :=
  dumpHeader pv.height pv.utxoLeaves ++ coins.flatMap DumpCoin.bytes

/-- The records of an accepted dump: as many as there are leaves, in an order of their own, of the
coins whose leaves are `L`. -/
def Lists (hs : Hashing H) (pv : HazyncState H) (L : List H) (coins : List DumpCoin) : Prop :=
  coins.length = pv.utxoLeaves.toNat ∧
    ∃ arr, Arranges coins arr ∧ arr.map (Coin.leaf hs) = L

/-- The check has a code for every string, and it is that of success for the dumps of the coins
    only. -/
theorem hazyncCheckUtxoDump_of_commits (hleaf : hs.LeafInjective) (hnode : hs.NodeInjective)
    (hpv : pv.Commits hs.parent L) (buf : Bytes) :
    ∃ code, hazyncCheckUtxoDump hs buf pv = some code ∧
      (code = HAZYNC_OK ↔ ∃ coins, buf = dump pv coins ∧ Lists hs pv L coins) := by
  by_cases hheader : ∃ rest, buf = dumpHeader pv.height pv.utxoLeaves ++ rest
  · obtain ⟨rest, rfl⟩ := hheader
    generalize hbuf : dumpHeader pv.height pv.utxoLeaves ++ rest = buf
    have hfields : buf = DUMP_MAGIC ++ (le32 1 ++ (le32 pv.height ++ (le64 pv.utxoLeaves ++ rest))) := by
      rw [← hbuf, dumpHeader]
      simp only [List.append_assoc]
    rw [check_header hfields, if_neg (not_not.mpr rfl), if_neg (not_not.mpr rfl),
      if_neg (not_not.mpr rfl)]
    have hslots : (List.replicate pv.utxoLeaves.toNat (none : Option H)).length =
      pv.utxoLeaves.toNat := List.length_replicate
    -- what is left of a dump behind the header is its records
    have hrecords {coins : List DumpCoin} (heq : buf = dump pv coins) :
        rest = coins.flatMap DumpCoin.bytes ++ [] := by
      rw [List.append_nil]
      exact List.append_cancel_left (hbuf.trans heq)
    rcases readCoins_spec hs pv.utxoLeaves.toNat hbuf.symm hslots with
      ⟨coins, post, slots', hrest, hlen, hfilled, hread⟩ | ⟨⟨e, he, herror⟩, hno⟩
    · have hHDR : HDR = (dumpHeader pv.height pv.utxoLeaves).length := rfl
      rw [hHDR, hread, Option.bind_eq_bind, Option.bind_some]
      dsimp only
      have hrun {coins' : List DumpCoin} (heq : buf = dump pv coins')
          (hlen' : coins'.length = pv.utxoLeaves.toNat) : coins = coins' ∧ post = [] :=
        flatMap_append_inj DumpCoin.bytes_append_inj (hlen.trans hlen'.symm)
          (hrest.symm.trans (hrecords heq))
      have hdump : dump pv coins ++ post = buf := by
        rw [dump, List.append_assoc, ← hrest, hbuf]
      have hlength := congrArg List.length hdump
      rw [List.length_append, dump] at hlength
      by_cases hpost : post = []
      · rw [hpost, List.append_nil] at hdump
        rw [hpost, List.length_nil, Nat.add_zero] at hlength
        rw [← hlen] at hfilled
        obtain ⟨arr, harr, rfl⟩ := (filled_iff hleaf).mp hfilled
        have hcount : (arr.map (Coin.leaf hs)).length = L.length := by
          rw [List.length_map, harr.length, hlen, hpv.leaves]
        rw [if_neg (not_not.mpr hlength), checkSlots_eq hnode hpv hcount]
        refine ⟨_, rfl, ?_⟩
        by_cases hL : arr.map (Coin.leaf hs) = L
        · rw [if_pos hL]
          exact iff_of_true rfl ⟨coins, hdump.symm, hlen, arr, harr, hL⟩
        · rw [if_neg hL]
          refine iff_of_false (by decide) ?_
          rintro ⟨coins', heq, hlen', arr', harr', hL'⟩
          obtain ⟨rfl, -⟩ := hrun heq hlen'
          exact hL (harr.unique harr' ▸ hL')
      · refine ⟨HAZYNC_ERR_DUMP_TRUNC, if_pos ?_, iff_of_false (by decide) ?_⟩
        · have := List.length_pos_iff.mpr hpost
          omega
        · rintro ⟨coins', heq, hlen', -⟩
          exact hpost (hrun heq hlen').2
    · have hHDR : HDR = (dumpHeader pv.height pv.utxoLeaves).length := rfl
      rw [hHDR, herror]
      refine ⟨e, rfl, iff_of_false he ?_⟩
      rintro ⟨coins, heq, hlen, arr, harr, -⟩
      have hfilled := (filled_iff hleaf).mpr ⟨arr, harr, rfl⟩
      rw [hlen] at hfilled
      exact hno coins [] _ (hrecords heq) hlen hfilled
  · obtain ⟨rest, heq⟩ | ⟨e, he, herror⟩ := check_or_header buf pv
    · exact absurd ⟨rest, heq⟩ hheader
    · refine ⟨e, herror, iff_of_false he ?_⟩
      rintro ⟨coins, rfl, -⟩
      exact hheader ⟨_, rfl⟩

/-- What it accepts. -/
theorem hazyncCheckUtxoDump_ok_iff (hleaf : hs.LeafInjective) (hnode : hs.NodeInjective)
    (hpv : pv.Commits hs.parent L) {buf : Bytes} :
    hazyncCheckUtxoDump hs buf pv = some HAZYNC_OK ↔
      ∃ coins, buf = dump pv coins ∧ Lists hs pv L coins := by
  obtain ⟨code, hcode, hiff⟩ := hazyncCheckUtxoDump_of_commits hleaf hnode hpv buf
  rw [hcode, Option.some.injEq]
  exact hiff

omit [DecidableEq H] in
/-- Two lists of records of the same leaves have the same coin at every position. -/
theorem Lists.same (hleaf : hs.LeafInjective) (h : Lists hs pv L coins)
    (h' : Lists hs pv L coins') {c : DumpCoin} (hc : c ∈ coins) :
    ∃ c' ∈ coins', c'.pos = c.pos ∧ c'.coin = c.coin := by
  obtain ⟨hlen, arr, harr, rfl⟩ := h
  obtain ⟨hlen', arr', harr', heq⟩ := h'
  obtain rfl : arr' = arr := List.map_injective_iff.mpr (Coin.leaf_injective hleaf) heq
  have hpos : c.pos.toNat ∈ coins.map fun c => c.pos.toNat := List.mem_map.mpr ⟨c, hc, rfl⟩
  have hpos' : c.pos.toNat ∈ coins'.map fun c => c.pos.toNat := by
    rw [harr'.positions.mem_iff, hlen', ← hlen]
    exact harr.positions.mem_iff.mp hpos
  obtain ⟨c', hc', heq'⟩ := List.mem_map.mp hpos'
  have hcoin := harr'.coin c' hc'
  rw [heq', harr.coin c hc] at hcoin
  exact ⟨c', hc', UInt32.toNat_inj.mp heq', (Option.some.inj hcoin).symm⟩

/-! ## A verified state -/

omit [DecidableEq H] in
/-- A state commits to one list of leaves. -/
theorem HazyncState.Commits.unique (hnode : hs.NodeInjective) (h : pv.Commits hs.parent L)
    {M : List H} (h' : pv.Commits hs.parent M) : M = L :=
  Accumulator.eq_of_present_eq hnode.parent (by rw [← h'.leaves]; exact pv.utxoLeaves.toNat_lt)
    (h'.leaves.symm.trans h.leaves) (h'.roots.trans h.roots.symm)

omit [DecidableEq H] in
/-- The state that was written commits to what the proof's state commits to. -/
theorem commits_writeState {st : RangeState H} (hst : st.after.stump.Commits hs.parent L)
    (hroom : (Accumulator.normalize st.after.roots).reduceOption.length ≤ HAZYNC_MAX_ROOTS) :
    (writeState hs st (Accumulator.normalize st.after.roots).reduceOption).Commits hs.parent L where
  leaves := hst.numLeaves
  roots := by
    obtain ⟨v, hv, -⟩ := Accumulator.Reference.naiveRoots_spec hs.parent L
    have hroots := hst.roots
    rw [hv, Option.map_some] at hroots
    rw [hv, roots_writeState hroom, Option.map_some, ← Accumulator.reduceOption_normalize v,
      Option.some.inj hroots]
    rfl
  room := by
    rw [writeState, UInt32.toNat_ofNat', Nat.mod_eq_of_lt (lt_of_le_of_lt hroom (by decide))]
    exact hroom

/-- risc0's soundness, for the pinned image: where the journal of its receipt is a range under its
own id, the range is what a tree of runs of `prove_range` and `fold_range` commits. -/
def Receipts.Sound (hs : Hashing H) (core : Core) (zkvm : Zkvm H) (receipts : Receipts) : Prop :=
  ∀ receipt words st, methodIdWords = some words → receipts.verify receipt words = true →
    zkvm.decodeRange (receipts.journal receipt) = some st → st.kind = KIND_RANGE →
    st.selfId = words → RangeProof hs core zkvm words st

/-- **The dump check is exact and total**, on every string and every state that a proof wrote: one
list of leaves is behind the roots of the state, and the strings accepted are those of its coins,
each record anywhere in the file. -/
theorem hazyncCheckUtxoDump_exact {core : Core} {zkvm : Zkvm H} {receipts : Receipts}
    {proof : Bytes} (hleaf : hs.LeafInjective) (hnode : hs.NodeInjective)
    (hsound : receipts.Sound hs core zkvm)
    (hpv : hazyncVerifyProof hs zkvm receipts proof = .ok pv) :
    ∃ L, (pv.Commits hs.parent L ∧ ∀ M, pv.Commits hs.parent M → M = L) ∧
      (∀ buf, ∃ code, hazyncCheckUtxoDump hs buf pv = some code ∧
        (code = HAZYNC_OK ↔ ∃ coins, buf = dump pv coins ∧ Lists hs pv L coins)) ∧
      ∀ buf buf', hazyncCheckUtxoDump hs buf pv = some HAZYNC_OK →
        hazyncCheckUtxoDump hs buf' pv = some HAZYNC_OK → ∃ coins coins', buf = dump pv coins ∧
          buf' = dump pv coins' ∧ ∀ c ∈ coins, ∃ c' ∈ coins', c'.pos = c.pos ∧ c'.coin = c.coin := by
  obtain ⟨words, receipt, st, hwords, hverify, hdecode, hst, rfl⟩ := hazyncVerifyProof_ok hpv
  have hproof := hsound receipt words st hwords hverify hdecode hst.kind hst.selfId
  obtain ⟨L, hL⟩ := hproof.commits hnode hst.anchored
  have hcommits := commits_writeState hL hst.room
  refine ⟨L, ⟨hcommits, fun M => hcommits.unique hnode⟩, ?_, ?_⟩
  · exact hazyncCheckUtxoDump_of_commits hleaf hnode hcommits
  · intro buf buf' h h'
    obtain ⟨coins, hbuf, hlists⟩ := (hazyncCheckUtxoDump_ok_iff hleaf hnode hcommits).mp h
    obtain ⟨coins', hbuf', hlists'⟩ := (hazyncCheckUtxoDump_ok_iff hleaf hnode hcommits).mp h'
    exact ⟨coins, coins', hbuf, hbuf', fun c hc => hlists.same hleaf hlists' hc⟩

/-! ## On the first two blocks

The two ranges are folded, so that the state has two coins behind one root: the records of the file
may stand either way round, and the check has to put each at its position. -/

/-- One receipt that verifies, a journal behind one byte. -/
def oneReceipt (journal : Bytes) (words : ImageId) : Receipts where
  Receipt := Bytes
  deserialize b := some b.tail
  verify receipt id := receipt = journal ∧ id = words
  journal := id

/-- A prover of the pinned image. -/
def pinnedZkvm (words : ImageId) : Zkvm Bytes :=
  { OpTrue.zkvm with verify := fun id _ => id = words }

/-- The id that is built in can be read. -/
theorem isSome_methodIdWords : methodIdWords.isSome := by
  decide +kernel

/-- The id is only copied into the range. -/
theorem proveRange_selfId {core : Core} {b : Boundary H} {w : BlockWitness H}
    {selfId words : ImageId} {st : RangeState H} (h : proveRange hs core b w selfId = some st) :
    proveRange hs core b w words = some { st with selfId := words } := by
  obtain ⟨r, hr, he, rfl⟩ := proveRange_eq_some.mp h
  exact proveRange_eq_some.mpr ⟨r, hr, he, rfl⟩

/-- The range of the first two blocks under an image's id. -/
theorem rangeProof_twoBlocks (words : ImageId) : ∃ st,
    RangeProof idealHashing OpTrue.core (pinnedZkvm words) words st ∧ st.lo = 1 ∧ st.hi = 2 ∧
      st.before = genesisTip ∧ st.inSmtRoot = Smt.emptyRoot idealHashing ∧
      st.after = OpTrue.stateOver OpTrue.afterBlock1 OpTrue.block2 := by
  obtain ⟨wit₁, st₁, h₁, hlo₁, hhi₁, hbefore₁, hin₁, hout₁, hafter₁⟩ := OpTrue.proveRange_block1
  obtain ⟨wit₂, st₂, h₂, hlo₂, hhi₂, hbefore₂, hin₂, hafter₂⟩ := OpTrue.proveRange_block2
  set l : RangeState Bytes := { st₁ with selfId := words }
  set r : RangeState Bytes := { st₂ with selfId := words }
  have hl : RangeProof idealHashing OpTrue.core (pinnedZkvm words) words l :=
    .block (proveRange_selfId h₁)
  have hr : RangeProof idealHashing OpTrue.core (pinnedZkvm words) words r :=
    .block (proveRange_selfId h₂)
  have hseam : seamOk l r := by
    refine seamOk_iff.mpr ⟨?_, ?_, hout₁.trans hin₂.symm⟩
    · change st₁.hi + 1 = st₂.lo
      rw [hhi₁, hlo₂]
      rfl
    · change st₁.after.Agrees st₂.before
      rw [hafter₁, hbefore₂]
      exact .refl _
  have hdl : (pinnedZkvm words).decodeRange (OpTrue.commit.range l) = some l :=
    OpTrue.commit.decode_range l
  have hdr : (pinnedZkvm words).decodeRange (OpTrue.commit.range r) = some r :=
    OpTrue.commit.decode_range r
  have hverify : ∀ journal, (pinnedZkvm words).verify words journal = true := fun _ =>
    decide_eq_true rfl
  exact ⟨l.join r, .fold hdl hdr hl hr ((foldRange_iff hdl hdr hl hr).mpr
    ⟨⟨hverify _, hverify _⟩, hseam, rfl⟩), hlo₁, hhi₂, hbefore₁, hin₁, hafter₂⟩

/-- The state written from the range of the first two blocks, which leaves two coins. -/
theorem hazyncCheckUtxoDump_exact_twoBlocks : ∃ (words : ImageId) (receipts : Receipts)
    (proof : Bytes) (pv : HazyncState Bytes),
      hazyncVerifyProof idealHashing (pinnedZkvm words) receipts proof = .ok pv ∧
      pv.height = 2 ∧ pv.utxoLeaves = 2 ∧ ∃ L, pv.Commits idealHashing.parent L ∧ L.length = 2 ∧
        ∀ buf, ∃ code, hazyncCheckUtxoDump idealHashing buf pv = some code ∧
          (code = HAZYNC_OK ↔ ∃ coins, buf = dump pv coins ∧ Lists idealHashing pv L coins) := by
  obtain ⟨words, hwords⟩ := Option.isSome_iff_exists.mp isSome_methodIdWords
  obtain ⟨st, hproof, hlo, hhi, hbefore, hin, hafter⟩ := rangeProof_twoBlocks words
  have hverified : Verified idealHashing words st :=
    { selfId := hproof.tags.2
      kind := hproof.tags.1
      anchored := isGenesisAnchored_iff.mpr ⟨hlo, by rw [hbefore]; exact .refl _, hin⟩
      room := by
        rw [hafter]
        decide +kernel }
  have hdecode : (pinnedZkvm words).decodeRange (OpTrue.commit.range st) = some st :=
    OpTrue.commit.decode_range st
  have hwritten : hazyncVerifyProof idealHashing (pinnedZkvm words)
      (oneReceipt (OpTrue.commit.range st) words) (0 :: OpTrue.commit.range st) =
      .ok (writeState idealHashing st
        (Accumulator.normalize st.after.roots).reduceOption) := by
    rw [hazyncVerifyProof, if_neg (by simp), hwords]
    simp only [oneReceipt, List.tail_cons, decide_true, and_self, Bool.true_eq_false, if_false, id,
      hdecode, hverified.writeRange]
  have hsound : (oneReceipt (OpTrue.commit.range st) words).Sound idealHashing OpTrue.core
      (pinnedZkvm words) := by
    intro receipt words' last hwords' hverify hlast _ _
    have hreceipt : receipt = OpTrue.commit.range st := by
      simp only [oneReceipt, decide_eq_true_eq] at hverify
      exact hverify.1
    obtain rfl : words = words' := Option.some.inj (hwords.symm.trans hwords')
    have heq : some last = some st := by
      rw [← hlast, ← hdecode]
      exact congrArg (pinnedZkvm words).decodeRange hreceipt
    rw [Option.some.inj heq]
    exact hproof
  obtain ⟨L, ⟨hL, -⟩, hcheck, -⟩ := hazyncCheckUtxoDump_exact
    (idealHashing_tagInjective TAG_LEAF) (idealHashing_tagInjective TAG_NODE) hsound hwritten
  have hleaves : (writeState idealHashing st
      (Accumulator.normalize st.after.roots).reduceOption).utxoLeaves = 2 :=
    (congrArg Boundary.leaves hafter).trans (by decide)
  refine ⟨words, _, _, _, hwritten, hhi, hleaves, L, hL, ?_, hcheck⟩
  rw [← hL.leaves, hleaves]
  rfl

end VerifierFfi
end Hazync
