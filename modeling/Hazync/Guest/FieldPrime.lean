import Hazync.Guest.FieldBigint2
import Hazync.Lib.LucasTest
import Mathlib.Tactic.NormNum.Prime
import Mathlib.Tactic.ReduceModChar

/-!
# The field prime is prime

Lucas's test, down the largest factors of `p - 1`.

A number is prime if some base has, modulo it, the order of the number less one. To check an order
one has to know the prime factors of that number less one, and of the largest of these the same has
to be shown before. The numbers in the names are the bits of the factors. The development needs the
prime for the square roots in `LiftX`.
-/

namespace Hazync
namespace Guest
namespace Bigint2

open LucasTest (prime_of_factors)

/-- A factor of 58 bits. -/
theorem prime_factor_58 : Nat.Prime 173378833005251801 := by
  refine prime_of_factors [2, 2, 2, 5, 5, 2621, 24809, 13331831] 6 ?_ (by norm_num)
    (by reduce_mod_char) ?_
  · simp only [List.Forall]
    norm_num
  · simp only [List.Forall]
    norm_num only
    refine ⟨?_, ?_, ?_, ?_, ?_, ?_, ?_, ?_⟩ <;> reduce_mod_char <;> decide

/-- A factor of 75 bits, by the one of 58. -/
theorem prime_factor_75 : Nat.Prime 22149492674086928081353 := by
  refine prime_of_factors [2, 2, 2, 3, 5323, 173378833005251801] 5 ?_ (by norm_num)
    (by reduce_mod_char) ?_
  · exact ⟨by norm_num, by norm_num, by norm_num, by norm_num, by norm_num, prime_factor_58⟩
  · simp only [List.Forall]
    norm_num only
    refine ⟨?_, ?_, ?_, ?_, ?_, ?_⟩ <;> reduce_mod_char <;> decide

theorem prime_factor_77 : Nat.Prime 132896956044521568488119 := by
  refine prime_of_factors [2, 3, 22149492674086928081353] 6 ?_ (by norm_num)
    (by reduce_mod_char) ?_
  · exact ⟨by norm_num, by norm_num, prime_factor_75⟩
  · simp only [List.Forall]
    norm_num only
    refine ⟨?_, ?_, ?_⟩ <;> reduce_mod_char <;> decide

theorem prime_factor_128 : Nat.Prime 255515944373312847190720520512484175977 := by
  refine prime_of_factors
    [2, 2, 2, 7, 7, 11, 1627, 2657, 4423, 41201, 96557, 7240687, 107590001] 3 ?_ (by norm_num)
    (by reduce_mod_char) ?_
  · simp only [List.Forall]
    norm_num
  · simp only [List.Forall]
    norm_num only
    refine ⟨?_, ?_, ?_, ?_, ?_, ?_, ?_, ?_, ?_, ?_, ?_, ?_, ?_⟩ <;> reduce_mod_char <;> decide

theorem prime_factor_237 : Nat.Prime
    205115282021455665897114700593932402728804164701536103180137503955397371 := by
  refine prime_of_factors [2, 3, 5, 29, 29, 31, 7723, 132896956044521568488119,
    255515944373312847190720520512484175977] 10 ?_ (by norm_num)
    (by reduce_mod_char) ?_
  · exact ⟨by norm_num, by norm_num, by norm_num, by norm_num, by norm_num, by norm_num,
      by norm_num, prime_factor_77, prime_factor_128⟩
  · simp only [List.Forall]
    norm_num only
    refine ⟨?_, ?_, ?_, ?_, ?_, ?_, ?_, ?_, ?_⟩ <;> reduce_mod_char <;> decide

/-- `p` is prime. -/
theorem fieldPrime_prime : fieldPrime.Prime := by
  rw [show fieldPrime =
    115792089237316195423570985008687907853269984665640564039457584007908834671663 by
      norm_num [fieldPrime]]
  refine prime_of_factors [2, 3, 7, 13441,
    205115282021455665897114700593932402728804164701536103180137503955397371] 3 ?_ (by norm_num)
    (by reduce_mod_char) ?_
  · exact ⟨by norm_num, by norm_num, by norm_num, by norm_num, prime_factor_237⟩
  · simp only [List.Forall]
    norm_num only
    refine ⟨?_, ?_, ?_, ?_, ?_⟩ <;> reduce_mod_char <;> decide

end Bigint2
end Guest
end Hazync
