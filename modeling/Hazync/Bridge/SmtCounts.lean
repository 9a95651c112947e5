import Hazync.Bridge.GuestRuns

/-!
# The bridge's tree counts the unspent outputs of coinbases

The guest refuses a coinbase whose txid the tree still holds, so what the bridge's tree says of a
txid has to be what is unspent of the coinbase with that txid. The tree is advanced by counts, the
map by coins, and the two agree block by block (`Replayed.smt_counts`): a coinbase enters with its
spendable outputs, and the coins that the block takes out of the map are those that the tree takes
off.

## Why the counts are right

An output of a coinbase can be spent a hundred blocks later at the earliest, so a block never spends
an output of its own coinbase (`notMem_spent_of_coinbase`), and the coinbase's count enters whole.
For every other txid the coins that the block spends are exactly what the count goes down by
(`unspentOutputs_of_ne`). At the two heights that overwrite, the old coins are replaced in the map,
and the old count in the tree.

`CoinbasesTell` is the one thing asked of txids: coinbases with one txid have the same outputs.
Without it two coinbases of one txid could leave coins at different indices, and one count would
stand for both.
-/

namespace Hazync
namespace Bridge

open ByteStrings
open Smt (Counts left stored)
open Guest (Core Transaction)

variable {H : Type}

/-! ## The coinbases of a chain -/

def coinbases (blocks : List Block) : List Transaction := blocks.filterMap fun b => b.txdata.head?

/-- Coinbases of the chain with one txid have the same outputs. -/
def CoinbasesTell (core : Core) (blocks : List Block) : Prop :=
  ∀ c ∈ coinbases blocks, ∀ c' ∈ coinbases blocks, core.getHash c = core.getHash c' →
    c.vout = c'.vout

/-- The outpoints of the unspent coins of the coinbase with a txid. -/
def unspentOutputs (coins : Utxo) (t : Bytes32) : List Outpoint :=
  (coins.entries.filter fun e => e.1.txid = t ∧ e.2.isCoinbase).map Prod.fst

section

variable {core : Core} {blocks : List Block} {coins coins' : Utxo} {height : UInt32} {block : Block}
  {coinbase c : Transaction} {t : Bytes32} {k : Outpoint} {u : Unspent}

theorem coinbases_concat (hhead : block.txdata.head? = some coinbase) :
    coinbases (blocks ++ [block]) = coinbases blocks ++ [coinbase] := by
  unfold coinbases
  rw [List.filterMap_append]
  simp [hhead]

theorem CoinbasesTell.of_append {block : Block} (h : CoinbasesTell core (blocks ++ [block])) :
    CoinbasesTell core blocks := by
  have hsub : ∀ c ∈ coinbases blocks, c ∈ coinbases (blocks ++ [block]) := by
    intro c hc
    unfold coinbases at hc ⊢
    rw [List.filterMap_append]
    exact List.mem_append_left _ hc
  exact fun c hc c' hc' => h c (hsub c hc) c' (hsub c' hc')

theorem mem_unspentOutputs : k ∈ unspentOutputs coins t ↔
    k.txid = t ∧ ∃ u, coins.get? k = some u ∧ u.isCoinbase = true := by
  unfold unspentOutputs
  rw [List.mem_map]
  constructor
  · intro h
    obtain ⟨e, he, rfl⟩ := h
    obtain ⟨hin, hcond⟩ := List.mem_filter.mp he
    obtain ⟨htxid, hcb⟩ := of_decide_eq_true hcond
    exact ⟨htxid, e.2, SortedMap.mem_entries.mp hin, hcb⟩
  · intro h
    obtain ⟨htxid, u, hget, hcb⟩ := h
    refine ⟨(k, u), List.mem_filter.mpr ⟨?_, decide_eq_true ⟨htxid, hcb⟩⟩, rfl⟩
    exact SortedMap.mem_entries.mpr hget

theorem nodup_unspentOutputs : (unspentOutputs coins t).Nodup :=
  coins.nodup_keys.sublist (List.filter_sublist.map Prod.fst)

/-- The outpoints of what a coinbase creates, whenever it does. -/
theorem mem_keys_of_vout_eq {height height' : UInt32} (h : coinbase.vout = c.vout)
    (htxid : core.getHash coinbase = core.getHash c) :
    (spendableOutputs core height true coinbase).map Prod.fst =
      (spendableOutputs core height' true c).map Prod.fst := by
  rw [keys_spendableOutputs height height' true coinbase]
  unfold spendableOutputs
  rw [h, htxid]

/-- A coinbase's coin that is unspent is an output of a coinbase of the chain. By induction along
    the chain. -/
theorem ValidChain.exists_coinbase (h : ValidChain core blocks coins)
    (hget : coins.get? k = some u) (hcb : u.isCoinbase = true) :
    ∃ c ∈ coinbases blocks, ∀ height,
      k ∈ (spendableOutputs core height true c).map Prod.fst := by
  induction h with
  | genesis =>
    rw [SortedMap.get?_empty] at hget
    cases hget
  | @connect blocks coins coins' block hchain hblock ih =>
    rcases hblock.get?_cases hget with hmem | hold
    · -- the block's own coinbase
      unfold Block.outputs at hmem
      obtain ⟨⟨c, i⟩, hc, hout⟩ := List.mem_flatMap.mp hmem
      have hfirst := (height_of_mem_spendableOutputs hout).2
      rw [hcb] at hfirst
      have hzero : i = 0 := of_decide_eq_true hfirst.symm
      dsimp only at hout
      subst hzero
      have hhead : block.txdata.head? = some c := by
        rw [List.head?_eq_getElem?]
        exact List.mem_zipIdx_iff_getElem?.mp hc
      refine ⟨c, ?_, fun height => ?_⟩
      · rw [coinbases_concat hhead]
        exact List.mem_append_right _ (List.mem_singleton_self _)
      · rw [keys_spendableOutputs height (UInt32.ofNat (blocks.length + 1)) true c]
        exact List.mem_map_of_mem hout
    · obtain ⟨c, hc, hkey⟩ := ih hold
      refine ⟨c, ?_, hkey⟩
      unfold coinbases at hc ⊢
      rw [List.filterMap_append]
      exact List.mem_append_left _ hc

/-- What is unspent with the txid of a new coinbase are outputs of that coinbase. -/
theorem mem_keys_of_unspent (hchain : ValidChain core blocks coins)
    (htell : CoinbasesTell core (blocks ++ [block])) (hhead : block.txdata.head? = some coinbase)
    (hk : k ∈ unspentOutputs coins (core.getHash coinbase)) :
    k ∈ (spendableOutputs core height true coinbase).map Prod.fst := by
  obtain ⟨htxid, u, hget, hcb⟩ := mem_unspentOutputs.mp hk
  obtain ⟨c, hc, hkey⟩ := hchain.exists_coinbase hget hcb
  obtain ⟨e, he, rfl⟩ := List.mem_map.mp (hkey height)
  have hsame : core.getHash coinbase = core.getHash c :=
    htxid.symm.trans (txid_of_mem_spendableOutputs he)
  unfold CoinbasesTell at htell
  rw [coinbases_concat hhead] at htell
  have hvout := htell coinbase (List.mem_append_right _ (List.mem_singleton_self _)) c
    (List.mem_append_left _ hc) hsame
  rw [mem_keys_of_vout_eq hvout hsame]
  exact hkey height

/-! ## A block -/

/-- The outpoints among those the block spends that are of the coinbase with a txid. -/
def spentOutputs (coins : Utxo) (block : Block) (t : Bytes32) : List Outpoint :=
  (block.spent.filter fun op => (coins.get? op).any (·.isCoinbase)).filter fun op => op.txid = t

theorem mem_spentOutputs : k ∈ spentOutputs coins block t ↔
    k ∈ block.spent ∧ k ∈ unspentOutputs coins t := by
  unfold spentOutputs
  rw [List.mem_filter, List.mem_filter, mem_unspentOutputs]
  cases coins.get? k with
  | none => simp
  | some u => simp [and_assoc, and_comm, and_left_comm]

theorem count_coinbaseSpends (coins : Utxo) (block : Block) (t : Bytes32) :
    (block.coinbaseSpends coins).count t = (spentOutputs coins block t).length := by
  unfold Block.coinbaseSpends spentOutputs
  rw [List.count, List.countP_map, List.countP_eq_length_filter]
  congr 1

/-- The unspent outputs of an earlier coinbase: what the block spends of them goes, and nothing
    comes. -/
theorem unspentOutputs_of_ne (hblock : ConnectBlock core coins height block coins')
    (hhead : block.txdata.head? = some coinbase) (hne : t ≠ core.getHash coinbase) :
    (unspentOutputs coins t).length =
      (unspentOutputs coins' t).length + (spentOutputs coins block t).length := by
  obtain ⟨heffect, hget⟩ := hblock.spec
  obtain ⟨txs, htxs⟩ := List.head?_eq_some_iff.mp hhead
  rw [← List.length_append]
  -- what was unspent is what still is, and what the block spends of it
  refine List.Perm.length_eq ((List.perm_ext_iff_of_nodup nodup_unspentOutputs ?_).mpr ?_)
  · rw [List.nodup_append]
    refine ⟨nodup_unspentOutputs, heffect.nodup.sublist
      (List.filter_sublist.trans List.filter_sublist), ?_⟩
    rintro k hk l hl rfl
    obtain ⟨-, u, hu, -⟩ := mem_unspentOutputs.mp hk
    rw [hget, if_pos (mem_spentOutputs.mp hl).1] at hu
    cases hu
  · intro k
    rw [List.mem_append, mem_spentOutputs]
    -- an outpoint is on one side only
    by_cases hspent : k ∈ block.spent
    · have hgone : k ∉ unspentOutputs coins' t := by
        intro hk
        obtain ⟨-, u, hu, -⟩ := mem_unspentOutputs.mp hk
        rw [hget, if_pos hspent] at hu
        cases hu
      simp [hspent, hgone]
    · have hstays : k ∈ unspentOutputs coins' t ↔ k ∈ unspentOutputs coins t := by
        rw [mem_unspentOutputs, mem_unspentOutputs, hget, if_neg hspent]
        refine and_congr_right fun htxid => ?_
        by_cases hmem : k ∈ (block.outputs core height).map Prod.fst
        · -- an output of another transaction is no coinbase's, and was not there before
          obtain ⟨⟨l, u⟩, he, rfl⟩ := List.mem_map.mp hmem
          rw [SortedMap.get?_insertAll_of_mem heffect.keys he]
          have hout := he
          rw [Block.outputs_cons htxs] at hout
          rcases List.mem_append.mp hout with hcb | hother
          · exact absurd (htxid.symm.trans (txid_of_mem_spendableOutputs hcb)) hne
          · obtain ⟨other, -, hother⟩ := List.mem_flatMap.mp hother
            have hfalse := (height_of_mem_spendableOutputs hother).2
            have hnone : coins.get? l = none := by
              rcases heffect.fresh _ he with hnone | ⟨-, cb, hcb, hover⟩
              · exact hnone
              · rw [hhead] at hcb
                obtain rfl := Option.some.inj hcb
                exact absurd (htxid.symm.trans (txid_of_mem_spendableOutputs hover)) hne
            dsimp only at hfalse ⊢
            rw [hnone]
            simp [hfalse]
        · rw [SortedMap.get?_insertAll_of_notMem hmem]
      simp [hspent, hstays]

/-- An output of the block's coinbase is not spent in the block. -/
theorem notMem_spent_of_coinbase (hblock : ConnectBlock core coins height block coins')
    (hhead : block.txdata.head? = some coinbase)
    (hk : k ∈ (spendableOutputs core height true coinbase).map Prod.fst) : k ∉ block.spent := by
  intro hspent
  obtain ⟨heffect, -⟩ := hblock.spec
  obtain ⟨txs, htxs⟩ := List.head?_eq_some_iff.mp hhead
  obtain ⟨e, he, rfl⟩ := List.mem_map.mp hk
  have hout : e ∈ block.outputs core height := by
    rw [Block.outputs_cons htxs]
    exact List.mem_append_left _ he
  rcases heffect.source _ hspent with ⟨u, hu, hfalse, -⟩ | ⟨hnot, -⟩
  · have hsame := List.inj_on_of_nodup_map heffect.keys hout hu rfl
    have htrue := (height_of_mem_spendableOutputs he).2
    rw [hsame, hfalse] at htrue
    cases htrue
  · exact hnot (List.mem_map_of_mem hout)

/-- The unspent outputs of the block's coinbase: all that can be spent. What was there under its
    txid before is overwritten. -/
theorem unspentOutputs_coinbase (hchain : ValidChain core blocks coins)
    (htell : CoinbasesTell core (blocks ++ [block]))
    (hblock : ConnectBlock core coins height block coins')
    (hhead : block.txdata.head? = some coinbase) :
    (unspentOutputs coins' (core.getHash coinbase)).length =
        (spendableOutputs core height true coinbase).length ∧
      spentOutputs coins block (core.getHash coinbase) = [] := by
  obtain ⟨heffect, hget⟩ := hblock.spec
  obtain ⟨txs, htxs⟩ := List.head?_eq_some_iff.mp hhead
  refine ⟨?_, ?_⟩
  · have hcount : ((spendableOutputs core height true coinbase).map Prod.fst).length =
        (spendableOutputs core height true coinbase).length := List.length_map _
    rw [← hcount]
    refine List.Perm.length_eq ((List.perm_ext_iff_of_nodup nodup_unspentOutputs
      (nodup_spendableOutputs true)).mpr fun k => ?_)
    rw [mem_unspentOutputs]
    -- what is unspent under the new coinbase's txid is an output of it, and the other way round
    constructor
    · intro h
      obtain ⟨htxid, u, hu, hcb⟩ := h
      rw [hget] at hu
      obtain ⟨-, hu⟩ := Option.ite_none_left_eq_some.mp hu
      by_cases hmem : k ∈ (block.outputs core height).map Prod.fst
      · obtain ⟨⟨l, v⟩, he, rfl⟩ := List.mem_map.mp hmem
        rw [SortedMap.get?_insertAll_of_mem heffect.keys he] at hu
        obtain rfl := Option.some.inj hu
        rw [Block.outputs_cons htxs] at he
        rcases List.mem_append.mp he with he | he
        · exact List.mem_map_of_mem he
        · obtain ⟨other, -, he⟩ := List.mem_flatMap.mp he
          have hfalse := (height_of_mem_spendableOutputs he).2
          dsimp only at hfalse
          rw [hcb] at hfalse
          cases hfalse
      · rw [SortedMap.get?_insertAll_of_notMem hmem] at hu
        -- an older coin of the same txid, whose outpoint is then one of the new coinbase's too
        exact mem_keys_of_unspent hchain htell hhead (mem_unspentOutputs.mpr ⟨htxid, u, hu, hcb⟩)
    · intro hk
      have hnot := notMem_spent_of_coinbase hblock hhead hk
      obtain ⟨e, he, rfl⟩ := List.mem_map.mp hk
      have hout : e ∈ block.outputs core height := by
        rw [Block.outputs_cons htxs]
        exact List.mem_append_left _ he
      refine ⟨txid_of_mem_spendableOutputs he, e.2, ?_, (height_of_mem_spendableOutputs he).2⟩
      rw [hget, if_neg hnot]
      exact SortedMap.get?_insertAll_of_mem heffect.keys hout
  -- a block does not spend its own coinbase
  · rw [List.eq_nil_iff_forall_not_mem]
    intro k hk
    obtain ⟨hspent, hunspent⟩ := mem_spentOutputs.mp hk
    exact notMem_spent_of_coinbase hblock hhead
      (mem_keys_of_unspent hchain htell hhead hunspent) hspent

/-- No count is too long for its 32 bits: the outputs of one transaction are fewer. -/
theorem length_unspentOutputs_lt (hchain : ValidChain core blocks coins)
    (htell : CoinbasesTell core blocks) (t : Bytes32) :
    (unspentOutputs coins t).length < 2 ^ 32 := by
  cases hout : unspentOutputs coins t with
  | nil => exact Nat.two_pow_pos 32
  | cons k ks =>
    rw [← hout]
    have hk : k ∈ unspentOutputs coins t := by
      rw [hout]
      exact List.mem_cons_self
    obtain ⟨htxid, u, hget, hcb⟩ := mem_unspentOutputs.mp hk
    obtain ⟨c, hc, hkey⟩ := hchain.exists_coinbase hget hcb
    obtain ⟨e, he, heq⟩ := List.mem_map.mp (hkey 0)
    have hct : core.getHash c = t := by
      rw [← txid_of_mem_spendableOutputs he, heq, htxid]
    have hsub : unspentOutputs coins t ⊆ (spendableOutputs core 0 true c).map Prod.fst := by
      intro l hl
      obtain ⟨hltxid, v, hlget, hlcb⟩ := mem_unspentOutputs.mp hl
      obtain ⟨d, hd, hdkey⟩ := hchain.exists_coinbase hlget hlcb
      obtain ⟨e', he', rfl⟩ := List.mem_map.mp (hdkey 0)
      have hdt : core.getHash c = core.getHash d := by
        rw [hct, ← txid_of_mem_spendableOutputs he', hltxid]
      rw [mem_keys_of_vout_eq (htell c hc d hd hdt) hdt]
      exact hdkey 0
    have hle := (List.subperm_of_subset nodup_unspentOutputs hsub).length_le
    refine lt_of_le_of_lt hle (lt_of_le_of_lt ?_ c.vout_lt)
    rw [List.length_map]
    unfold spendableOutputs
    refine (List.length_filterMap_le _ _).trans ?_
    rw [List.length_zipIdx]

end

/-! ## The tree -/

/-- The tree says of each txid how many outputs of its coinbase are unspent. -/
def Counted (m : Counts) (coins : Utxo) : Prop :=
  ∀ t, m t = stored (UInt32.ofNat (unspentOutputs coins t).length)

theorem stored_ofNat_pos {n : ℕ} (hpos : 0 < n) (hlt : n < 2 ^ 32) :
    stored (UInt32.ofNat n) = some (UInt32.ofNat n) ∧ Smt.period (UInt32.ofNat n) = n := by
  have hnat : (UInt32.ofNat n).toNat = n := by
    rw [UInt32.toNat_ofNat', Nat.mod_eq_of_lt hlt]
  have hne : UInt32.ofNat n ≠ 0 := by
    intro heq
    have hzero := congrArg UInt32.toNat heq
    rw [hnat] at hzero
    exact hpos.ne' hzero
  refine ⟨if_neg hne, ?_⟩
  rw [Smt.period, if_neg hne, hnat]

/-- Taking some off a count. -/
theorem stored_bind_left {n k : ℕ} (hlt : n + k < 2 ^ 32) :
    ((stored (UInt32.ofNat (n + k))).bind fun c => left c k) = stored (UInt32.ofNat n) := by
  rcases Nat.eq_zero_or_pos (n + k) with hzero | hpos
  · obtain ⟨rfl, rfl⟩ := Nat.add_eq_zero_iff.mp hzero
    rfl
  · obtain ⟨hstored, hperiod⟩ := stored_ofNat_pos hpos hlt
    rw [hstored, Option.bind_some, left, hperiod]
    rcases Nat.eq_zero_or_pos n with rfl | hn
    · rw [if_pos (Nat.zero_add k).le]
      rfl
    · rw [if_neg (by omega), Nat.add_sub_cancel, (stored_ofNat_pos hn (by omega)).1]

theorem length_spendableOutputs (core : Core) (height : UInt32) (coinbase : Transaction) :
    (spendableOutputs core height true coinbase).length =
      (coinbase.vout.filter fun o => outSpendable o.scriptPubKey).length := by
  rw [← List.countP_eq_length_filter, ← List.zipIdx_map_fst 0 coinbase.vout, List.countP_map]
  unfold spendableOutputs
  rw [List.length_filterMap_eq_countP]
  refine List.countP_congr ?_
  intro p _
  dsimp only [Function.comp]
  cases outSpendable p.1.scriptPubKey <;> simp

section

variable {core : Core} {blocks : List Block} {coins coins' : Utxo} {height : UInt32} {block : Block}
  {coinbase : Transaction} {m : Counts}

/-- A coinbase that may not overwrite is not in the tree: BIP30 says that nothing is unspent under
    its txid. -/
theorem Counted.absent (h : Counted m coins) (hchain : ValidChain core blocks coins)
    (htell : CoinbasesTell core (blocks ++ [block]))
    (hblock : ConnectBlock core coins height block coins')
    (hhead : block.txdata.head? = some coinbase) (hnone : overwrittenHeight height = none) :
    m (core.getHash coinbase) = none := by
  have hempty : unspentOutputs coins (core.getHash coinbase) = [] := by
    rw [List.eq_nil_iff_forall_not_mem]
    intro k hk
    obtain ⟨-, u, hget, -⟩ := mem_unspentOutputs.mp hk
    have hkey : k ∈ (spendableOutputs core height true coinbase).map Prod.fst :=
      mem_keys_of_unspent hchain htell hhead hk
    obtain ⟨e, he, rfl⟩ := List.mem_map.mp hkey
    have hbip : coinbase ∈ block.bip30 height := by
      unfold Block.bip30
      rw [hnone]
      exact List.mem_of_mem_head? hhead
    rw [get?_eq_none_of_bip30 (hblock.bip30 coinbase hbip) he] at hget
    cases hget
  rw [h, hempty]
  rfl

/-- **Counts and coins go over a block together.** -/
theorem Counted.transition (h : Counted m coins) (hchain : ValidChain core blocks coins)
    (htell : CoinbasesTell core (blocks ++ [block]))
    (hblock : ConnectBlock core coins height block coins')
    (hhead : block.txdata.head? = some coinbase) :
    Counted (m.transition (core.getHash coinbase)
      (UInt32.ofNat (spendableOutputs core height true coinbase).length)
      (block.coinbaseSpends coins)) coins' := by
  intro t
  unfold Counts.transition
  rw [Smt.foldl_decrement, count_coinbaseSpends]
  by_cases ht : t = core.getHash coinbase
  · subst ht
    obtain ⟨hlength, hspent⟩ := unspentOutputs_coinbase hchain htell hblock hhead
    rw [Function.update_self, hspent, hlength, List.length_nil]
    simp only [Smt.left_zero, Option.bind_fun_some]
  · have hsplit := unspentOutputs_of_ne hblock hhead ht
    have hlt := length_unspentOutputs_lt hchain htell.of_append t
    rw [Function.update_of_ne ht, h t, hsplit]
    rw [hsplit] at hlt
    exact stored_bind_left hlt

variable [DecidableEq H] {hs : Hashing H} {s s' : Standing H} {u : BlockUndo H} {hash : String}

theorem grandfathered_eq (height : UInt32) :
    decide (height = 91842 ∨ height = 91880) = (overwrittenHeight height).isSome := by
  unfold overwrittenHeight
  split
  · rename_i heq
    simp [heq]
  · rename_i hne
    by_cases heq : height = 91880 <;> simp [hne, heq]

/-- The step of the tree, as a round makes it: the coinbase with the number of its spendable
    outputs, and the coinbase coins among those that the block spends. -/
theorem Standing.advance_smt (h : s.advance hs core hash block = some (s', u)) :
    ∃ coinbase wit prior, block.txdata.head? = some coinbase ∧
      smtAdvance hs s.smt (core.getHash coinbase)
        (UInt32.ofNat (spendableOutputs core s'.done true coinbase).length)
        (block.coinbaseSpends s.utxo) (overwrittenHeight s'.done).isSome =
          some (wit, prior, s'.smt) := by
  unfold Standing.advance at h
  rw [Option.ite_none_left_eq_some] at h
  obtain ⟨-, h⟩ := h
  simp only [Option.bind_eq_bind, Option.bind_eq_some_iff, Option.some.injEq] at h
  obtain ⟨⟨win, blockMtp⟩, -, w, -, coinbase, hhead, ⟨wit, prior, smt⟩, hsmt, heq⟩ := h
  obtain ⟨rfl, -⟩ := Prod.mk.inj heq
  refine ⟨coinbase, wit, prior, hhead, ?_⟩
  rw [length_spendableOutputs, ← grandfathered_eq]
  exact hsmt

theorem Replayed.utxo_eq (h : Replayed hs core blocks s) (hchain : ValidChain core blocks coins) :
    s.utxo = coins ∧ s.done = UInt32.ofNat blocks.length := by
  induction h generalizing coins with
  | genesis =>
    obtain rfl := ValidChain.genesis.unique hchain
    exact ⟨rfl, rfl⟩
  | @block blocks s s' hash block u hreplayed hadvance ih =>
    obtain ⟨before, hbefore, hblock⟩ := hchain.last
    obtain ⟨rfl, hdone⟩ := ih hbefore
    obtain ⟨-, -, -, -, -, -, hutxo, hnext⟩ :=
      Bridge.advance_eq_some (Standing.advance_toResident hadvance)
    have hheight : s'.done = UInt32.ofNat (blocks.length + 1) := by
      rw [hnext, UInt32.ofNat_add, ← hdone]
      rfl
    refine ⟨?_, ?_⟩
    · rw [← hheight] at hblock
      exact hutxo.trans hblock.updateUtxo_eq
    · rw [hheight, List.length_append, List.length_singleton]

/-- **The bridge's tree counts, for each txid, the unspent outputs of its coinbase.** It holds at
    every height of every valid chain, also across the two that overwrite. -/
theorem Replayed.smt_counts (h : Replayed hs core blocks s) (hchain : ValidChain core blocks coins)
    (htell : CoinbasesTell core blocks) : Counted s.smt.get coins := by
  induction h generalizing coins with
  | genesis =>
    obtain rfl := ValidChain.genesis.unique hchain
    intro t
    rfl
  | @block blocks s s' hash block u hreplayed hadvance ih =>
    obtain ⟨before, hbefore, hblock⟩ := hchain.last
    have hcounted := ih hbefore htell.of_append
    obtain ⟨hutxo, -⟩ := hreplayed.utxo_eq hbefore
    obtain ⟨-, hdone⟩ := (hreplayed.block hadvance).utxo_eq hchain
    rw [List.length_append, List.length_singleton] at hdone
    obtain ⟨coinbase, wit, prior, hhead, hsmt⟩ := Standing.advance_smt hadvance
    rw [hdone, hutxo] at hsmt
    have habsent : (overwrittenHeight (UInt32.ofNat (blocks.length + 1))).isSome = false →
        s.smt.get (core.getHash coinbase) = none := by
      intro hnone
      refine hcounted.absent hbefore htell hblock hhead ?_
      exact Option.isNone_iff_eq_none.mp (Option.isSome_eq_false_iff.mp hnone)
    obtain ⟨-, -, -, -, -, -, hget, -⟩ :=
      smtAdvance_ok hreplayed.exact.1.sound.smt habsent hsmt
    rw [hget]
    exact hcounted.transition hbefore htell hblock hhead

end

section

open Guest.OpTrue

theorem tell_firstBlocks : CoinbasesTell core [firstBlock, laterBlock] := by
  unfold CoinbasesTell
  decide +kernel

/-- The coinbases of the first two blocks are counted. -/
theorem smt_counts_firstBlocks : ∃ s, Replayed idealHashing core [firstBlock, laterBlock] s ∧
    Counted s.smt.get laterCoins := by
  obtain ⟨s, hs, -⟩ : ∃ s, Replayed idealHashing core [firstBlock, laterBlock] s ∧ s.win ≠ [] := by
    refine exists_replayed ?_ (by decide)
    intro block hmem
    simp only [List.mem_cons, List.not_mem_nil, or_false] at hmem
    rcases hmem with rfl | rfl
    · exact ⟨_, rfl⟩
    · exact ⟨_, rfl⟩
  exact ⟨s, hs, hs.smt_counts validChain_firstBlocks tell_firstBlocks⟩

end

end Bridge
end Hazync
