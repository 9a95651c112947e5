import Hazync.Guest.Range

/-!
# The genesis anchor (`rangestate/src/lib.rs`, `prover/host/src/main.rs`)

The state after block 0, which every chain begins at: `genesis_anchor` as a chain state, and
`is_genesis_anchored`, which compares the in-boundary of a range with it. The SMT of coinbases is
empty there as well, which only a range says.

## One state, several places

The state after block 0 is written down more than once in the repository: as a chain state that the
host makes, as the constants that a range's in-boundary is compared with, and as text in what the
verifiers print. The comparison is with each field by itself, so that a range which is refused says
why. `isGenesisAnchored_iff` gives it in one piece. The roots are compared after normalisation, so
the one empty slot of the empty forest and a list of none are the same.
-/

namespace Hazync
namespace Guest

open ByteStrings
open Accumulator (normalize)

variable {H : Type}

/-- `GENESIS_HASH`, in the order a journal has it. -/
def GENESIS_HASH : Bytes32 :=
  ⟨le 32 0x000000000019d6689c085ae165831e934ff763ae46a2a6c172b3f1b60a8ce26f, length_le 32 _⟩

/-- The time of block 0. -/
def GENESIS_TIME : UInt32 := 1231006505
/-- The target of block 0. -/
def GENESIS_BITS : UInt32 := 0x1d00ffff

/-- `GetBlockProof(0x1d00ffff)`. -/
def GENESIS_WORK : ℕ := 4295032833

/-- The state after block 0. An empty forest has one empty root slot. -/
def genesisTip : Boundary H where
  tipHash := GENESIS_HASH
  roots := [none]
  leaves := 0
  nbits := GENESIS_BITS
  time := GENESIS_TIME
  epochStart := GENESIS_TIME
  recent := [GENESIS_TIME]

/-- `genesis_anchor` -/
def genesisAnchor (hs : Hashing H) (methodId : ImageId) : ChainState H where
  kind := KIND_CHAIN
  tip := genesisTip
  cumWork := GENESIS_WORK
  height := 0
  anchorId := hs.zero
  selfId := methodId

/-- `is_genesis_anchored` -/
def RangeState.isGenesisAnchored [DecidableEq H] (hs : Hashing H) (st : RangeState H) :
    Except String Unit :=
  if st.lo ≠ 1 then .error "range does not start at block 1"
  else if st.before.tipHash ≠ GENESIS_HASH then
    .error "in-boundary tip is not the genesis block hash"
  else if st.before.leaves ≠ 0 then .error "in-boundary UTXO set is not empty"
  else if normalize st.before.roots ≠ [] then .error "in-boundary UTXO roots are not empty"
  else if st.inSmtRoot ≠ Smt.emptyRoot hs then
    .error "in-boundary coinbase-SMT (BIP30) root is not the empty tree"
  else if st.before.nbits ≠ GENESIS_BITS then .error "in-boundary nBits != genesis"
  else if st.before.epochStart ≠ GENESIS_TIME then
    .error "in-boundary epoch start != genesis time"
  else if st.before.time ≠ GENESIS_TIME then .error "in-boundary prev-time != genesis time"
  else if st.before.recent ≠ [GENESIS_TIME] then
    .error "in-boundary recent-times != [genesis time]"
  else .ok ()

/-- A check that passes, and the rest. -/
theorem check_eq_ok {p : Prop} [Decidable p] {e : String} {rest : Except String Unit} :
    (if p then .error e else rest) = .ok () ↔ ¬ p ∧ rest = .ok () := by
  by_cases hp : p
  · rw [if_pos hp]
    exact iff_of_false nofun fun h => h.1 hp
  · rw [if_neg hp]
    exact ⟨fun h => ⟨hp, h⟩, And.right⟩

/-- A range is anchored exactly when it starts at block 1 from the state after block 0, with the
    empty tree. -/
theorem isGenesisAnchored_iff [DecidableEq H] {hs : Hashing H} {st : RangeState H} :
    st.isGenesisAnchored hs = .ok () ↔
      st.lo = 1 ∧ st.before.Agrees genesisTip ∧ st.inSmtRoot = Smt.emptyRoot hs := by
  have hroots : normalize (genesisTip : Boundary H).roots = [] := rfl
  rw [Boundary.Agrees, hroots, RangeState.isGenesisAnchored]
  simp only [check_eq_ok, ne_eq, not_not, and_true]
  constructor
  · rintro ⟨hlo, htip, hleaves, hnormal, hsmt, hnbits, hepoch, htime, hrecent⟩
    exact ⟨hlo, ⟨htip, hnormal, hleaves, hnbits, htime, hepoch, hrecent⟩, hsmt⟩
  · rintro ⟨hlo, ⟨htip, hnormal, hleaves, hnbits, htime, hepoch, hrecent⟩, hsmt⟩
    exact ⟨hlo, htip, hleaves, hnormal, hsmt, hnbits, hepoch, htime, hrecent⟩

end Guest
end Hazync
