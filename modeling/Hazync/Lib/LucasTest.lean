import Mathlib.Data.List.Prime
import Mathlib.NumberTheory.LucasPrimality

/-!
# Lucas's test on a factorisation

A number is prime when some `a` has order `p - 1` modulo it, which only the prime factors of
`p - 1` need be tried for.

For a prime of 256 bits this is the way to have it proved: the factors of `p - 1` are smaller, and
for each of them the test may be applied again. What is checked are powers modulo `p`, and that the
factors multiply to `p - 1`.
-/

namespace LucasTest

/-- `p - 1` is the product of the primes `L`, and no quotient by one of them is an order of `a`. -/
theorem prime_of_factors {p : ℕ} (L : List ℕ) (a : ZMod p) (hL : L.Forall Nat.Prime)
    (hprod : p - 1 = L.prod) (ha : a ^ (p - 1) = 1)
    (hd : L.Forall fun q => a ^ ((p - 1) / q) ≠ 1) : p.Prime := by
  refine lucas_primality p a ha fun q hq hdvd => List.forall_iff_forall_mem.mp hd q ?_
  rw [hprod] at hdvd
  obtain ⟨r, hr, hqr⟩ := (Nat.prime_iff.mp hq).dvd_prod_iff.mp hdvd
  rwa [(Nat.prime_dvd_prime_iff_eq hq (List.forall_iff_forall_mem.mp hL r hr)).mp hqr]

end LucasTest
