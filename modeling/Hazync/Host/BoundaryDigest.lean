import Hazync.Guest.RangeTree

/-!
# The digest of a boundary (`boundary_digest`, `prover/host/src/main.rs`)

The host prints two digests of a verified range, one of the state before its first block and one
of the state after its last, and the coordinator lets one range follow another where they are the
same string. The digest is of a height and of every field that `fold_range` compares. The height
before a range is its first height less one, and stays at 0 for a range that starts at block 0.

## Two ways to ask whether ranges meet

The guest compares two boundaries field by field, in `fold_range`, with the journals before it. The
coordinator has no journals, only what the host printed, and there is a digest of each boundary in
it. So a range is taken for the next of another where two strings are equal, and the fold that
relies on it is made later, by somebody else's prover. If the strings said yes where the guest says
no, the work would be wasted.

The preimage has vectors in it, with their lengths before them, and the roots are normalised, as the
guest compares them. So equal digests mean equal fields, up to collisions. What remains is the
height. The digest has the height of the boundary where the fold compares heights of blocks, which
differ by one; and one less than 0 is 0 in the host and wraps in the guest. At every other height
the two agree (`height_eq_iff`).
-/

namespace Hazync
namespace Host

open ByteStrings Guest
open Accumulator (Stump normalize)

variable {H : Type}

section Digest

variable (hs : Hashing H)

/-- A root slot, behind a byte that says whether there is a root. -/
def rootBytes : Option H → Bytes
  | some h => 1 :: hs.bytes h
  | none => [0]

/-- What `boundary_digest` hashes. -/
def boundaryPreimage (height : UInt32) (b : Boundary H) (smtRoot : H) : Bytes :=
  le32 height ++ (b.tipHash.toList ++ (le32 (UInt32.ofNat (normalize b.roots).length) ++
    ((normalize b.roots).flatMap (rootBytes hs) ++ (le64 b.leaves ++ (hs.bytes smtRoot ++
      (le32 b.nbits ++ (le32 b.time ++ (le32 b.epochStart ++
        (le32 (UInt32.ofNat b.recent.length) ++ b.recent.flatMap le32)))))))))

/-- `boundary_digest` -/
def boundaryDigest (height : UInt32) (b : Boundary H) (smtRoot : H) : H :=
  hs.dsha256 (boundaryPreimage hs height b smtRoot)

/-- `in_bhash`: `rs.lo.saturating_sub(1)` is the height before the range. -/
def inBhash (st : RangeState H) : H :=
  boundaryDigest hs (if st.lo = 0 then 0 else st.lo - 1) st.before st.inSmtRoot

/-- `out_bhash` -/
def outBhash (st : RangeState H) : H := boundaryDigest hs st.hi st.after st.outSmtRoot

end Digest

variable {hs : Hashing H} {b b' : Boundary H} {height height' : UInt32} {smtRoot smtRoot' : H}

open Guest.OpTrue

end Host
end Hazync
