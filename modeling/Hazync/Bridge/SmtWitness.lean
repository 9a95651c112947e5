import Hazync.Bridge.SmtAdvance
import Hazync.Guest.BlockRun

/-!
# The guest on the bridge's SMT witness

The block check of a witness is one thing, its BIP30 check another: with the SMT part the bridge
makes from a tree, the check passes with the bridge's next root and the rest of the result is
unchanged (`validateBlock_advance`).

This is the piece between the two halves of a bundle. `Hazync.Bridge.SmtAdvance` makes the SMT part
and says what it proves; the block check of the guest reads that part in one place only, the BIP30
check, and passes its root on. So the SMT part of a witness can be replaced without looking at
anything else of it.
-/

namespace Hazync
namespace Bridge

open ByteStrings
open Smt (Spend)
open Guest

variable {H : Type} [DecidableEq H] {hs : Hashing H} {core : Core} {w : BlockWitness H}

omit [DecidableEq H] in
theorem cbSpends_withSmt (root : H) (smt : SmtWitness H) (inputs : List (BlockInput H)) :
    cbSpends core (w.withSmt root smt) inputs = cbSpends core w inputs := by
  induction inputs with
  | nil => rfl
  | cons inp inputs ih =>
    rw [cbSpends, cbSpends, ih]
    rfl

/-- The BIP30 check of the guest passes on the bridge's witness: the coinbase is absent or repeated
    as the block says, and the spends that it counts in the entries are those that the witness
    proves. -/
theorem bip30Check_advance {smt smt' : Smt H} {coinbase : Bytes32} {outputs : UInt32}
    {spends : List Bytes32} {wit : SmtWitness H} {prior : List (Bytes32 × Option UInt32)}
    (hcached : smt.Cached hs) (hdistinct : w.txids.Nodup)
    (hspends : cbSpends core w w.inputs = some (some spends))
    (habsent : w.isBip30Block hs = false → smt.get coinbase = none)
    (h : smtAdvance hs smt coinbase outputs spends (w.isBip30Block hs) =
      some (wit, prior, smt')) :
    bip30Check hs core (w.withSmt smt.root wit) coinbase outputs = some (true, smt'.root) := by
  obtain ⟨hid, hout, hmap, hover, haccept, -⟩ := smtAdvance_ok hcached habsent h
  have hcb : cbSpends core (w.withSmt smt.root wit) (w.withSmt smt.root wit).inputs =
      some (some spends) := (cbSpends_withSmt _ _ _).trans hspends
  have hlen : wit.spends.length = spends.length := by rw [← hmap, List.length_map]
  have hwit : smtWitnessOk (w.withSmt smt.root wit) coinbase outputs spends = true := by
    refine decide_eq_true ⟨hid, hout, hlen, hmap⟩
  have hupdate : blockUpdate (w.withSmt smt.root wit) coinbase outputs = update wit := by
    rw [← hid, ← hout]
    rfl
  rw [bip30Check, hcb, Option.bind_eq_bind, Option.bind_some]
  dsimp only
  rw [if_neg, hupdate]
  · have haccept' : Smt.applyBlock hs (w.withSmt smt.root wit).inSmtRoot (update wit) =
        .ok smt'.root := haccept
    rw [haccept']
  · have hdistinct' : (w.withSmt smt.root wit).txids.Nodup := hdistinct
    have hblock : ((w.withSmt smt.root wit).smt.smtOverwrite.isSome ==
        (w.withSmt smt.root wit).isBip30Block hs) = true := beq_iff_eq.mpr hover
    simp only [hdistinct', hwit, hblock, Option.elim_some, decide_true, not_true_eq_false, or_self,
      not_false_eq_true]

/-- **The block check on the bridge's SMT witness**: what it returned with any other SMT part, but
    for a BIP30 check that passes and the bridge's next root. -/
theorem validateBlock_advance {mtp : UInt32} {chunks : Chunks H} {r : BlockResult H}
    {smt smt' : Smt H} {g : Gathered H} {coinbase : Bytes32} {outputs : UInt32}
    {spends : List Bytes32} {wit : SmtWitness H} {prior : List (Bytes32 × Option UInt32)}
    (hr : validateBlock hs core w mtp chunks = some r)
    (hgather : gatherOutputs hs core w mtp = some (g, coinbase, outputs))
    (hcached : smt.Cached hs) (hdistinct : w.txids.Nodup)
    (hspends : cbSpends core w w.inputs = some (some spends))
    (habsent : w.isBip30Block hs = false → smt.get coinbase = none)
    (h : smtAdvance hs smt coinbase outputs spends (w.isBip30Block hs) =
      some (wit, prior, smt')) :
    validateBlock hs core (w.withSmt smt.root wit) mtp chunks =
      some { r with bip30Ok := true, outSmtRoot := smt'.root } := by
  obtain ⟨g', cb', out', hgather', hall⟩ := validateBlock_withSmt w smt.root wit hr
  cases hgather.symm.trans hgather'
  exact hall true smt'.root (bip30Check_advance hcached hdistinct hspends habsent h)

end Bridge
end Hazync
