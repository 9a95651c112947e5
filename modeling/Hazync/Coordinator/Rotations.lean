import Hazync.Coordinator.RangeId
import Hazync.Lib.Chains
import Hazync.Lib.KeyedTable
import Hazync.Lib.Runs
import Mathlib.Algebra.Order.Ring.Rat
import Mathlib.Data.Rat.Defs

/-!
# Key rotations (`rotate`, `resolve_pubkey`, `coordinator/server.py`)

A contributor moves from an old key to a new one, with the signatures of both. The table has one row
for each old key, and a key is read as the one at the end of its chain of rows.

Both the reader and the check against a cycle give up after `ROTATE_MAX_DEPTH` rows. What they give
is the end of the chain as long as no rotation joins a longer chain.

## A chain, a reader and a guard

A table of rotations is a partial function from keys to keys, and all that is said of it is said of
that function: a walk follows it, a chain is short if every walk of it ends within a number of rows,
and it is acyclic if no walk returns. These are in the library. The reader follows the function for
at most `ROTATE_MAX_DEPTH` rows; on a table whose chains are that short it comes to the end, and the
ends are then one for each connected part (`RotationForest.of_short`).

The guard of a rotation asks that the new key does not resolve to the old one. With the reader that
gives up, this excludes cycles only as long as the reader does not give up, and so the guard and the
reader stand and fall together. That is why the condition is exact (`rotation_forest_iff`): as soon
as one chain is longer than the reader looks, there is a key that does not resolve to its head.

The rows are appended by a function that checks nearly everything else: that the feature is on, the
hex of keys and signatures, the age of the message, both signatures, and the moderation list.
`rotateRefusal` has them in the order of the source, with their texts.
-/

namespace Hazync
namespace Coordinator

open KeyedTable Chains

/-- A row of the table `rotations`: a key, and the one that took over from it. -/
structure RotationRow where
  old : String
  new : String
deriving DecidableEq

abbrev Rotations := List RotationRow

/-- `ROTATE_MAX_DEPTH` -/
def rotateMaxDepth : ℕ := 32

/-- `rotation_map` -/
def rotationMap (t : Rotations) (k : String) : Option String :=
  (find RotationRow.old k t).map RotationRow.new

/-- The loop of `resolve_pubkey`: on to the next key while there is one, and while it has not been
    seen. -/
def resolveFrom (rmap : String → Option String) : ℕ → List String → String → String
  | 0, _, cur => cur
  | n + 1, seen, cur =>
    match rmap cur with
    | none => cur
    | some nxt => if nxt ∈ seen then cur else resolveFrom rmap n (nxt :: seen) nxt

/-- `resolve_pubkey` -/
def resolvePubkey (rmap : String → Option String) (pk : String) : String :=
  let cur := pk.toLower
  resolveFrom rmap rotateMaxDepth [cur] cur

/-! ## A rotation -/

/-- `str.strip` -/
def stripSpace (s : String) : String :=
  String.ofList ((s.toList.dropWhile isSpace).rdropWhile isSpace)

/-- The digits that `fromhex` reads. -/
def isHexDigit (c : Char) : Bool :=
  ('0' ≤ c ∧ c ≤ '9') ∨ ('a' ≤ c ∧ c ≤ 'f') ∨ ('A' ≤ c ∧ c ≤ 'F')

/-- The white space that `fromhex` skips. -/
def isAsciiSpace (c : Char) : Bool := (9 ≤ c.toNat ∧ c.toNat ≤ 13) ∨ c = ' '

/-- `bytes.fromhex` takes the characters: pairs of digits, and white space between them. -/
def fromhexTakes : List Char → Bool
  | [] => true
  | [c] => isAsciiSpace c
  | c :: d :: cs =>
    if isAsciiSpace c then fromhexTakes (d :: cs)
    else isHexDigit c && isHexDigit d && fromhexTakes cs

/-- `is_hex` -/
def isHex (s : String) (nbytes : ℕ) : Bool := s.length = nbytes * 2 && fromhexTakes s.toList

/-- `int` of a number -/
def truncate (q : ℚ) : ℤ := q.num.tdiv q.den

/-- The text that both keys sign. The keys are in lower case in it and the time is an integer. -/
def rotateMessage (old new : String) (ts : ℚ) : String :=
  "hazync-rotate-v1:" ++ old.toLower ++ ":" ++ new.toLower ++ ":" ++ toString (truncate ts)

/-- A request. `ts` is the number that `float` reads, where it reads one. -/
structure RotateBody where
  oldPubkey : String
  newPubkey : String
  sigOld : String
  sigNew : String
  ts : Option ℚ
  handle : String

/-- What the request meets: the settings, the clock, the ed25519 library, the moderation list,
and the handle that is made of the one asked for and the old key's, and whether it is refused. -/
structure RotateEnv where
  enabled : Bool
  haveEd : Bool
  allowUnsigned : Bool
  maxSkew : ℚ
  now : ℚ
  edVerify : String → String → String → Bool
  blocked : List String
  cleanHandle : String → String → String → String
  handleRefused : String → String → Bool

/-- The reply to an accepted rotation. -/
structure Rotated where
  old : String
  new : String
  resolved : String
  handle : String

namespace RotateBody

def old (body : RotateBody) : String := (stripSpace body.oldPubkey).toLower

def new (body : RotateBody) : String := (stripSpace body.newPubkey).toLower

end RotateBody

/-- `verify_sig` -/
def RotateEnv.verifySig (env : RotateEnv) (pubkey sig message : String) : Bool :=
  if env.haveEd then env.edVerify pubkey sig message else env.allowUnsigned

/-- `s[:10]` -/
def firstTen (s : String) : String := String.ofList (s.toList.take 10)

/-- The refusals of `rotate` before it looks at the table. -/
def rotateRefusal (env : RotateEnv) (body : RotateBody) : Option (ℕ × String) :=
  let old := body.old
  let new := body.new
  if !env.enabled then
    some (410, "key rotation is switched off on this coordinator (#311). To prove from a new " ++
      "box, copy your key.hex there; your blocks stay with that key.")
  else if env.haveEd && (!isHex old 32 || !isHex new 32) then
    some (400, "old_pubkey and new_pubkey must be 32-byte hex (ed25519)")
  else if env.haveEd && (!isHex body.sigOld 64 || !isHex body.sigNew 64) then
    some (400, "sig_old and sig_new must be 64-byte hex (ed25519)")
  else if old = "" ∨ new = "" then some (400, "old_pubkey and new_pubkey required")
  else if old = new then some (400, "old_pubkey and new_pubkey are the same key")
  else match body.ts with
  | none => some (400, "ts required (unix seconds, and must be inside the signed message)")
  | some ts =>
    let msg := rotateMessage old new ts
    if env.maxSkew < |env.now - ts| then
      some (400, "ts is more than " ++ toString (truncate env.maxSkew) ++
        "s from server time — replay guard")
    else if !env.verifySig old body.sigOld msg then some (403, "old-key signature invalid")
    else if !env.verifySig new body.sigNew msg then some (403, "new-key signature invalid")
    else if old ∈ env.blocked ∨ new ∈ env.blocked then some (403, "key is on the moderation list")
    else none

/-- `rotate`: the refusals in their order, those that look at the table last, and the row that is
    added. -/
def rotate (env : RotateEnv) (body : RotateBody) (t : Rotations) :
    Except (ℕ × String) (Rotated × Rotations) :=
  match rotateRefusal env body with
  | some refusal => .error refusal
  | none =>
    let old := body.old
    let new := body.new
    match rotationMap t old with
    | some head => .error (409, firstTen old ++ " has already rotated to " ++ firstTen head)
    | none =>
      if resolvePubkey (rotationMap t) new = old then .error (400, "rotation would create a cycle")
      else
        let t' := t ++ [⟨old, new⟩]
        let handle := env.cleanHandle body.handle old new
        -- the row goes with the connection, which is closed and has not committed it
        if env.handleRefused handle new then
          .error (400, "that handle is reserved — please pick another")
        else .ok (⟨old, new, resolvePubkey (rotationMap t') old, handle⟩, t')

/-- A call that is accepted. -/
def RotateStep (t : Rotations) (e : RotateEnv × RotateBody) (t' : Rotations) : Prop :=
  ∃ r, rotate e.1 e.2 t = .ok (r, t')

abbrev RotateRun := Runs.Run (fun t : Rotations => t = []) RotateStep

/-- One head for each identity. -/
structure RotationForest (t : Rotations) : Prop where
  /-- A key rotates once. -/
  oneNew : (t.map RotationRow.old).Nodup
  /-- No chain of rotations comes back to where it began. -/
  noCycle : Acyclic (rotationMap t)
  /-- Each key resolves to one that has not rotated. -/
  resolved : ∀ pk, rotationMap t (resolvePubkey (rotationMap t) pk) = none
  /-- And two keys that rotations connect, in whatever direction, resolve to one. -/
  joined : ∀ a b, Connected (rotationMap t) a.toLower b.toLower →
    resolvePubkey (rotationMap t) a = resolvePubkey (rotationMap t) b

/-- A character in lower case is in lower case. -/
theorem toLower_toLower_char (c : Char) : c.toLower.toLower = c.toLower := by
  have hlow : ¬ (c.toLower.val ≥ 'A'.val ∧ c.toLower.val ≤ 'Z'.val) := by
    unfold Char.toLower
    split
    · rename_i h
      simp [UInt32.le_iff_toNat_le] at h ⊢
      omega
    · rename_i h
      exact h
  exact dif_neg hlow

theorem toList_toLower (s : String) : s.toLower.toList = s.toList.map Char.toLower :=
  String.toList_map

theorem toLower_toLower (s : String) : s.toLower.toLower = s.toLower := by
  apply String.toList_injective
  rw [toList_toLower, toList_toLower, List.map_map]
  exact List.map_congr_left fun c _ => toLower_toLower_char c

/-! ## Reading a chain -/

variable {rmap : String → Option String} {t t' : Rotations} {old new : String}

/-- What has been seen leads here, so what comes next has not been seen. -/
theorem resolveFrom_eq (hcycle : Acyclic rmap) {n : ℕ} {seen : List String} {cur : String}
    (hseen : ∀ x ∈ seen, ∃ m, walk rmap m x = some cur) :
    resolveFrom rmap n seen cur = follow rmap n cur := by
  induction n generalizing seen cur with
  | zero => rfl
  | succ n ih =>
    unfold resolveFrom follow
    cases hnext : rmap cur with
    | none => rfl
    | some nxt =>
      have hnew : nxt ∉ seen := by
        intro hmem
        obtain ⟨m, hm⟩ := hseen nxt hmem
        exact hcycle nxt m (walk_snoc hm hnext)
      dsimp only
      rw [if_neg hnew]
      apply ih
      intro x hx
      rcases List.mem_cons.mp hx with rfl | hx
      · exact ⟨0, rfl⟩
      · obtain ⟨m, hm⟩ := hseen x hx
        exact ⟨m + 1, walk_snoc hm hnext⟩

/-- On an acyclic table the reader follows the chain, for as many rows as it has. -/
theorem resolvePubkey_eq (hcycle : Acyclic rmap) (pk : String) :
    resolvePubkey rmap pk = follow rmap rotateMaxDepth pk.toLower := by
  unfold resolvePubkey
  apply resolveFrom_eq hcycle
  intro x hx
  obtain rfl := List.mem_singleton.mp hx
  exact ⟨0, rfl⟩

theorem resolvePubkey_of_end {pk : String} (h : rmap pk.toLower = none) :
    resolvePubkey rmap pk = pk.toLower := by
  unfold resolvePubkey rotateMaxDepth resolveFrom
  dsimp only
  rw [h]

/-- **Where no chain is longer than the reader looks, there is one head for each identity.** -/
theorem RotationForest.of_short (ht : (t.map RotationRow.old).Nodup)
    (h : Short (rotationMap t) rotateMaxDepth) : RotationForest t := by
  have hresolve := resolvePubkey_eq h.acyclic
  refine ⟨ht, h.acyclic, ?_, ?_⟩
  · intro pk
    rw [hresolve]
    exact h.follow_end _
  · intro a b hab
    rw [hresolve, hresolve]
    exact h.follow_of_connected hab

/-- The keys of the rows are in lower case. -/
def Lowered (t : Rotations) : Prop := ∀ k, rotationMap t k ≠ none → k.toLower = k

/-- And only there: the head of a longer chain is not where the reader stops. -/
theorem RotationForest.short (hlow : Lowered t) (h : RotationForest t) :
    Short (rotationMap t) rotateMaxDepth := by
  apply short_of_follow
  intro a b hab
  have ha : a.toLower = a := hlow a (by rw [hab]; exact Option.some_ne_none b)
  have hend := h.resolved a
  rw [resolvePubkey_eq h.noCycle, ha] at hend
  exact hend

/-! ## What a rotation does -/

variable {env : RotateEnv} {body : RotateBody}

/-- A row for a key that has none changes the map at this key. -/
theorem rotationMap_append (hold : rotationMap t old = none) :
    rotationMap (t ++ [⟨old, new⟩]) = Function.update (rotationMap t) old (some new) := by
  funext k
  unfold rotationMap at hold ⊢
  rw [Option.map_eq_none_iff] at hold
  have hsplit : find RotationRow.old k (t ++ [⟨old, new⟩]) =
      (find RotationRow.old k t).or (if old = k then some ⟨old, new⟩ else none) := by
    unfold find
    rw [List.find?_append, List.find?_singleton]
    simp only [decide_eq_true_eq]
  rw [hsplit]
  by_cases hk : k = old
  · rw [hk, hold, if_pos rfl, Function.update_self]
    rfl
  · rw [if_neg (Ne.symm hk), Option.or_none, Function.update_of_ne hk]

/-- What an accepted rotation has found in the table, and the row that it adds. -/
theorem rotate_ok {r : Rotated} (h : rotate env body t = .ok (r, t')) :
    rotationMap t body.old = none ∧ resolvePubkey (rotationMap t) body.new ≠ body.old ∧
      t' = t ++ [⟨body.old, body.new⟩] := by
  unfold rotate at h
  cases hrefusal : rotateRefusal env body with
  | some refusal =>
    rw [hrefusal] at h
    cases h
  | none =>
    rw [hrefusal] at h
    dsimp only at h
    split at h
    · cases h
    · rename_i hfresh
      split at h
      · cases h
      · rename_i hback
        split at h
        · cases h
        · obtain ⟨-, rfl⟩ := Prod.mk.inj (Except.ok.inj h)
          exact ⟨hfresh, hback, rfl⟩

/-- What the table is after a rotation. -/
theorem RotateStep.eq {e : RotateEnv × RotateBody} (h : RotateStep t e t') :
    rotationMap t e.2.old = none ∧ resolvePubkey (rotationMap t) e.2.new ≠ e.2.old ∧
      t' = t ++ [⟨e.2.old, e.2.new⟩] := by
  obtain ⟨r, hr⟩ := h
  exact rotate_ok hr

/-! ## Runs -/

/-- No chain through the new row has more than `ROTATE_MAX_DEPTH` rows. -/
def RotationFits (t : Rotations) (body : RotateBody) : Prop :=
  Fits (rotationMap t) rotateMaxDepth body.old body.new

/-- Rows are added in lower case. -/
theorem lowered_of_step {e : RotateEnv × RotateBody} (ht : Lowered t) (h : RotateStep t e t') :
    Lowered t' := by
  obtain ⟨hfresh, -, rfl⟩ := h.eq
  intro k hk
  by_cases hold : k = e.2.old
  · rw [hold]
    exact toLower_toLower _
  · rw [rotationMap_append hfresh, Function.update_of_ne hold] at hk
    exact ht k hk

/-- In every run the keys of the rows are in lower case, and none has two rows. -/
theorem rotations_of_run {trace : List (Rotations × (RotateEnv × RotateBody) × Rotations)}
    (h : RotateRun trace t) : Lowered t ∧ (t.map RotationRow.old).Nodup := by
  apply h.invariant
  · intro t ht
    rw [ht]
    exact ⟨fun k hk => absurd rfl hk, List.nodup_nil⟩
  · intro t e t' ⟨hlow, hnodup⟩ hstep
    refine ⟨lowered_of_step hlow hstep, ?_⟩
    obtain ⟨hfresh, -, rfl⟩ := hstep.eq
    unfold rotationMap at hfresh
    rw [Option.map_eq_none_iff] at hfresh
    rw [List.map_append, List.nodup_append]
    refine ⟨hnodup, List.nodup_singleton _, ?_⟩
    intro a ha b hb heq
    obtain ⟨x, hx, rfl⟩ := List.mem_map.mp ha
    rw [List.mem_singleton.mp hb] at heq
    exact find_none.mp hfresh x hx heq

theorem short_of_step {e : RotateEnv × RotateBody} (ht : Short (rotationMap t) rotateMaxDepth)
    (h : RotateStep t e t') (hfits : RotationFits t e.2) :
    Short (rotationMap t') rotateMaxDepth := by
  obtain ⟨hfresh, hback, rfl⟩ := h.eq
  have hnew : e.2.new.toLower = e.2.new := toLower_toLower _
  rw [rotationMap_append hfresh]
  rw [resolvePubkey_eq ht.acyclic, hnew] at hback
  exact ht.update hfresh hback hfits

/-- If every rotation of a run fits, no chain is too long in the end. -/
theorem short_of_run {trace : List (Rotations × (RotateEnv × RotateBody) × Rotations)}
    (h : RotateRun trace t) (hfits : ∀ x ∈ trace, RotationFits x.1 x.2.1.2) :
    Short (rotationMap t) rotateMaxDepth := by
  induction h with
  | nil hinit =>
    rw [hinit]
    intro a n b hwalk
    cases n with
    | zero => exact Nat.zero_le _
    | succ n => cases hwalk
  | snoc _ hstep ih =>
    have hbefore := ih fun x hx => hfits x (List.mem_append_left _ hx)
    apply short_of_step hbefore hstep
    exact hfits _ (List.mem_append_right _ (List.mem_singleton_self _))

/-- **There is one head for each identity just where no rotation joins a longer chain.** The left is
    about the table after each rotation of the run, the right about the rotation and the table that it
    is added to. -/
theorem rotation_forest_iff {trace : List (Rotations × (RotateEnv × RotateBody) × Rotations)}
    (h : RotateRun trace t) :
    (∀ x ∈ trace, RotationForest x.2.2) ↔ ∀ x ∈ trace, RotationFits x.1 x.2.1.2 := by
  constructor
  · intro hforest x hx
    obtain ⟨pre, post, heq⟩ := List.append_of_mem hx
    obtain ⟨hrun, hstep⟩ := h.split heq
    have hshort := (hforest x hx).short (rotations_of_run (hrun.snoc hstep)).1
    obtain ⟨hfresh, -, hafter⟩ := hstep.eq
    rw [hafter, rotationMap_append hfresh] at hshort
    exact hshort.fits hfresh
  · intro hfits x hx
    obtain ⟨pre, post, heq⟩ := List.append_of_mem hx
    obtain ⟨hrun, hstep⟩ := h.split heq
    have hafter := hrun.snoc hstep
    apply RotationForest.of_short (rotations_of_run hafter).2
    apply short_of_run hafter
    intro y hy
    apply hfits
    rw [heq]
    rcases List.mem_append.mp hy with hy | hy
    · exact List.mem_append_left _ hy
    · rw [List.mem_singleton.mp hy]
      exact List.mem_append_right _ List.mem_cons_self

/-! ## A chain of many keys -/

/-- A string of `n` zeros. -/
def zeros (n : ℕ) : String := String.ofList (List.replicate n '0')

/-- The `i`th of 64 keys. -/
def chainKey (i : ℕ) : String := String.ofList (List.replicate i '1' ++ List.replicate (64 - i) '0')

def zeroSig : String := zeros 128

/-- The first `n` rotations of the chain. -/
def chainRows (n : ℕ) : Rotations := (List.range n).map fun i => ⟨chainKey i, chainKey (i + 1)⟩

/-- A coordinator whose ed25519 library takes every signature. -/
def chainEnv : RotateEnv where
  enabled := true
  haveEd := true
  allowUnsigned := false
  maxSkew := 300
  now := 0
  edVerify _ _ _ := true
  blocked := []
  cleanHandle asked _ _ := asked
  handleRefused _ _ := false

/-- The request that moves the `i`th key to the `j`th. -/
def chainBody (i j : ℕ) : RotateBody where
  oldPubkey := chainKey i
  newPubkey := chainKey j
  sigOld := zeroSig
  sigNew := zeroSig
  ts := some 0
  handle := "anon"

theorem chainKey_inj {i j : ℕ} (h : chainKey i = chainKey j) : i = j := by
  have hcount := congrArg (fun s => s.toList.count '1') h
  simpa [chainKey, List.count_append, List.count_replicate] using hcount

/-- The digits of the keys and the signatures. -/
theorem fromhexTakes_of_bits {l : List Char} (hbits : ∀ c ∈ l, c = '0' ∨ c = '1')
    (heven : l.length % 2 = 0) : fromhexTakes l = true := by
  fun_induction fromhexTakes l with
  | case1 => rfl
  | case2 c => simp at heven
  | case3 c d cs hspace ih =>
    have hc := hbits c List.mem_cons_self
    rcases hc with rfl | rfl <;> simp [isAsciiSpace] at hspace
  | case4 c d cs hspace ih =>
    have hdigit : ∀ x ∈ c :: d :: cs, isHexDigit x = true := by
      intro x hx
      rcases hbits x hx with rfl | rfl <;> decide
    rw [hdigit c (by simp), hdigit d (by simp), ih (fun x hx => hbits x (by simp [hx]))]
    · rfl
    · simp at heven
      omega

theorem chainKey_bits {i : ℕ} : ∀ c ∈ (chainKey i).toList, c = '0' ∨ c = '1' := by
  intro c hc
  rw [chainKey, String.toList_ofList, List.mem_append] at hc
  rcases hc with hc | hc
  · exact .inr (List.eq_of_mem_replicate hc)
  · exact .inl (List.eq_of_mem_replicate hc)

theorem isHex_of_bits {s : String} {n : ℕ} (hbits : ∀ c ∈ s.toList, c = '0' ∨ c = '1')
    (hlen : s.length = n * 2) : isHex s n = true := by
  unfold isHex
  rw [fromhexTakes_of_bits hbits, hlen]
  · simp
  · rw [String.length_toList, hlen]
    exact Nat.mul_mod_left n 2

/-- Twice as many zeros are the hex of that many bytes. -/
theorem isHex_zeros (n : ℕ) : isHex (zeros (n * 2)) n = true := by
  unfold zeros
  apply isHex_of_bits
  · intro c hc
    rw [String.toList_ofList] at hc
    exact .inl (List.eq_of_mem_replicate hc)
  · rw [String.length_ofList, List.length_replicate]

/-- A key of zeros and ones is as it is sent. -/
theorem clean_of_bits {s : String} (hbits : ∀ c ∈ s.toList, c = '0' ∨ c = '1') :
    (stripSpace s).toLower = s := by
  have hspace : ∀ c ∈ s.toList, isSpace c = false := by
    intro c hc
    rcases hbits c hc with rfl | rfl <;> decide
  have hlower : ∀ c ∈ s.toList, c.toLower = c := by
    intro c hc
    rcases hbits c hc with rfl | rfl <;> decide
  have hstrip : stripSpace s = s := by
    unfold stripSpace
    rw [List.dropWhile_eq_self_iff.mpr, List.rdropWhile_eq_self_iff.mpr, String.ofList_toList]
    · intro hne
      simp [hspace _ (List.getLast_mem hne)]
    · intro hlen
      simp [hspace _ (List.getElem_mem hlen)]
  rw [hstrip]
  apply String.toList_injective
  rw [toList_toLower, List.map_congr_left hlower, List.map_id']

theorem chainBody_old (i j : ℕ) : (chainBody i j).old = chainKey i := clean_of_bits chainKey_bits

theorem chainBody_new (i j : ℕ) : (chainBody i j).new = chainKey j := clean_of_bits chainKey_bits

theorem chainKey_lower (i : ℕ) : (chainKey i).toLower = chainKey i := by
  rw [← chainBody_new 0 i]
  exact toLower_toLower _

/-- A rotation from one key of the chain to another is refused on no ground but the table's. -/
theorem rotateRefusal_chain {i j : ℕ} (hi : i ≤ 64) (hj : j ≤ 64) (hij : i ≠ j) :
    rotateRefusal chainEnv (chainBody i j) = none := by
  have hkey : ∀ j ≤ 64, isHex (chainKey j) 32 = true := by
    intro j hj
    apply isHex_of_bits chainKey_bits
    simp [chainKey]
    omega
  have hsig : isHex zeroSig 64 = true := isHex_zeros 64
  have hempty : ∀ j ≤ 64, chainKey j ≠ "" := by
    intro j hj heq
    have hlen := hkey j hj
    rw [heq] at hlen
    cases hlen
  have hne : chainKey i ≠ chainKey j := fun heq => hij (chainKey_inj heq)
  unfold rotateRefusal
  simp only [chainBody_old, chainBody_new]
  have hskew : ¬ (300 : ℚ) < 0 := by decide
  simp [chainEnv, chainBody, RotateEnv.verifySig, hkey i hi, hkey j hj, hsig, hempty i hi,
    hempty j hj, hne, hskew]

theorem chainRows_succ (n : ℕ) :
    chainRows (n + 1) = chainRows n ++ [⟨chainKey n, chainKey (n + 1)⟩] := by
  unfold chainRows
  rw [List.range_succ, List.map_append, List.map_singleton]

/-- The table of the chain moves each of its keys but the last to the next. -/
theorem rotationMap_chain (n i : ℕ) :
    rotationMap (chainRows n) (chainKey i) = if i < n then some (chainKey (i + 1)) else none := by
  induction n generalizing i with
  | zero => rfl
  | succ n ih =>
    have hfresh : rotationMap (chainRows n) (chainKey n) = none := by
      rw [ih, if_neg (lt_irrefl n)]
    rw [chainRows_succ, rotationMap_append hfresh]
    by_cases hi : i = n
    · rw [hi, Function.update_self, if_pos (Nat.lt_succ_self n)]
    · have hne : chainKey i ≠ chainKey n := fun heq => hi (chainKey_inj heq)
      have hlt : i < n + 1 ↔ i < n := by omega
      rw [Function.update_of_ne hne, ih]
      simp only [hlt]

/-- The last key of the chain moves to another. -/
theorem chain_step {n j : ℕ} (hn : n ≤ 64) (hj : j ≤ 64) (hne : n ≠ j)
    (hback : resolvePubkey (rotationMap (chainRows n)) (chainKey j) ≠ chainKey n) :
    RotateStep (chainRows n) (chainEnv, chainBody n j)
      (chainRows n ++ [⟨chainKey n, chainKey j⟩]) := by
  have hfresh : rotationMap (chainRows n) (chainKey n) = none := by
    rw [rotationMap_chain, if_neg (lt_irrefl n)]
  let t' := chainRows n ++ [⟨chainKey n, chainKey j⟩]
  refine ⟨⟨chainKey n, chainKey j, resolvePubkey (rotationMap t') (chainKey n), "anon"⟩, ?_⟩
  unfold rotate
  rw [rotateRefusal_chain hn hj hne]
  dsimp only
  rw [chainBody_old, chainBody_new, hfresh]
  dsimp only
  rw [if_neg hback]
  rfl

/-- One key moves to the next, up to the 64th. -/
theorem chain_next {n : ℕ} (hn : n < 64) :
    RotateStep (chainRows n) (chainEnv, chainBody n (n + 1)) (chainRows (n + 1)) := by
  rw [chainRows_succ]
  apply chain_step hn.le hn (Nat.succ_ne_self n).symm
  have hend : rotationMap (chainRows n) (chainKey (n + 1)).toLower = none := by
    rw [chainKey_lower, rotationMap_chain, if_neg (Nat.not_succ_lt_self)]
  rw [resolvePubkey_of_end hend, chainKey_lower]
  exact fun heq => absurd (chainKey_inj heq) (Nat.succ_ne_self n)

/-- The chain comes about in as many rotations as it has rows. -/
theorem chain_run {n : ℕ} (hn : n ≤ 64) : ∃ trace, RotateRun trace (chainRows n) ∧
    trace.length = n ∧ ∀ x ∈ trace, ∃ k < n, x.1 = chainRows k ∧ x.2.1.2 = chainBody k (k + 1) := by
  induction n with
  | zero => exact ⟨[], .nil rfl, rfl, by simp⟩
  | succ n ih =>
    obtain ⟨trace, hrun, hlen, hall⟩ := ih (Nat.le_of_succ_le hn)
    refine ⟨_, hrun.snoc (chain_next hn), by rw [List.length_append, hlen]; rfl, fun x hx => ?_⟩
    obtain hx | hx := List.mem_append.mp hx
    · obtain ⟨k, hk, heq⟩ := hall x hx
      exact ⟨k, Nat.lt_succ_of_lt hk, heq⟩
    · rw [List.mem_singleton.mp hx]
      exact ⟨n, Nat.lt_succ_self n, rfl, rfl⟩

/-- The reader has seen keys before the one it is at. -/
theorem resolveFrom_chain {n i k : ℕ} {seen : List String} (h : i + k ≤ n)
    (hseen : ∀ x ∈ seen, ∃ j ≤ i, x = chainKey j) :
    resolveFrom (rotationMap (chainRows n)) k seen (chainKey i) = chainKey (i + k) := by
  induction k generalizing i seen with
  | zero => rfl
  | succ k ih =>
    unfold resolveFrom
    rw [rotationMap_chain, if_pos (by omega)]
    have hnew : chainKey (i + 1) ∉ seen := by
      intro hmem
      obtain ⟨j, hj, heq⟩ := hseen _ hmem
      have := chainKey_inj heq
      omega
    dsimp only
    rw [if_neg hnew, ih (by omega)]
    · congr 1
      omega
    · intro x hx
      rcases List.mem_cons.mp hx with rfl | hx
      · exact ⟨i + 1, le_refl _, rfl⟩
      · obtain ⟨j, hj, heq⟩ := hseen x hx
        exact ⟨j, Nat.le_succ_of_le hj, heq⟩

/-- A walk of `k` rows in the chain comes `k` keys on. -/
theorem walk_chain {n i k : ℕ} (h : i + k ≤ n) :
    walk (rotationMap (chainRows n)) k (chainKey i) = some (chainKey (i + k)) := by
  induction k generalizing i with
  | zero => rfl
  | succ k ih =>
    rw [walk_succ, rotationMap_chain, if_pos (by omega), Option.bind_some, ih (by omega)]
    congr 2
    omega

/-- 33 rotations make a chain of which the first key does not read as the last one. The last key
then moves to the first. -/
theorem rotation_makes_cycle : ∃ trace t, RotateRun trace t ∧ ¬ Acyclic (rotationMap t) ∧
    ∃ x ∈ trace, ¬ RotationForest x.1 := by
  obtain ⟨trace, hrun, -⟩ := chain_run (n := 33) (by decide)
  have hshort : resolvePubkey (rotationMap (chainRows 33)) (chainKey 0) = chainKey 32 := by
    unfold resolvePubkey
    rw [chainKey_lower]
    apply resolveFrom_chain (by decide)
    intro x hx
    exact ⟨0, le_refl 0, List.mem_singleton.mp hx⟩
  have hback : resolvePubkey (rotationMap (chainRows 33)) (chainKey 0) ≠ chainKey 33 := by
    rw [hshort]
    exact fun heq => absurd (chainKey_inj heq) (by decide)
  have hstep := chain_step (by decide) (by decide) (by decide) hback
  refine ⟨_, _, hrun.snoc hstep, ?_, ?_⟩
  · have hfresh : rotationMap (chainRows 33) (chainKey 33) = none := by
      rw [rotationMap_chain, if_neg (lt_irrefl 33)]
    have hthere : walk (rotationMap (chainRows 33)) 33 (chainKey 0) = some (chainKey 33) :=
      walk_chain (i := 0) (k := 33) (le_refl 33)
    have hround := walk_snoc (walk_update_of_walk hfresh hthere)
      (Function.update_self (chainKey 33) (some (chainKey 0)) (rotationMap (chainRows 33)))
    rw [← rotationMap_append hfresh] at hround
    exact fun hacyclic => hacyclic _ _ hround
  · refine ⟨_, List.mem_append_right _ (List.mem_singleton_self _), ?_⟩
    intro hforest
    have hend := hforest.resolved (chainKey 0)
    dsimp only at hend
    rw [hshort, rotationMap_chain] at hend
    cases hend

/-- A row of the chain goes from a key to the next. -/
theorem rotationMap_chain_some {n : ℕ} {a b : String}
    (h : rotationMap (chainRows n) a = some b) : ∃ i < n, a = chainKey i ∧ b = chainKey (i + 1) := by
  induction n with
  | zero => cases h
  | succ n ih =>
    have hfresh : rotationMap (chainRows n) (chainKey n) = none := by
      rw [rotationMap_chain, if_neg (lt_irrefl n)]
    rw [chainRows_succ, rotationMap_append hfresh] at h
    by_cases ha : a = chainKey n
    · rw [ha, Function.update_self] at h
      exact ⟨n, Nat.lt_succ_self n, ha, (Option.some.inj h).symm⟩
    · rw [Function.update_of_ne ha] at h
      obtain ⟨i, hi, heq⟩ := ih h
      exact ⟨i, Nat.lt_succ_of_lt hi, heq⟩

/-- No walk into a key of the chain is longer than its way from the first one. -/
theorem le_of_walk_chain {n i k : ℕ} {a : String}
    (h : walk (rotationMap (chainRows n)) i a = some (chainKey k)) : i ≤ k := by
  induction i generalizing k with
  | zero => exact Nat.zero_le k
  | succ i ih =>
    rw [walk_add] at h
    obtain ⟨c, hc, hlast⟩ := Option.bind_eq_some_iff.mp h
    rw [walk_succ] at hlast
    obtain ⟨d, hnext, hd⟩ := Option.bind_eq_some_iff.mp hlast
    cases hd
    obtain ⟨j, -, rfl, hj⟩ := rotationMap_chain_some hnext
    rw [chainKey_inj hj]
    exact Nat.succ_le_succ (ih hc)

/-- Up to 32 rotations of one identity fit. -/
theorem rotation_forest_deepest : ∃ trace, RotateRun trace (chainRows 32) ∧ trace.length = 32 ∧
    ∀ x ∈ trace, RotationForest x.2.2 := by
  obtain ⟨trace, hrun, hlen, hall⟩ := chain_run (n := 32) (by decide)
  refine ⟨trace, hrun, hlen, (rotation_forest_iff hrun).mpr fun x hx => ?_⟩
  obtain ⟨k, hk, hrows, hbody⟩ := hall x hx
  rw [hrows, hbody]
  intro i a j b hi hj
  rw [chainBody_old] at hi
  rw [chainBody_new] at hj
  have hlast : rotationMap (chainRows k) (chainKey (k + 1)) = none := by
    rw [rotationMap_chain, if_neg (Nat.not_succ_lt_self)]
  obtain ⟨rfl, -⟩ := walk_of_end hlast hj
  have := le_of_walk_chain hi
  change i + 1 + 0 ≤ 32
  omega

end Coordinator
end Hazync
