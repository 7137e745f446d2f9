import Mathlib.Data.UInt
import Mathlib.Data.Nat.Digits.Defs
import Mathlib.Tactic

set_option autoImplicit false

/-! # Mixing words

The steps of a multiplicative hash are one-to-one on words: a multiplication that
has an inverse, and the difference of a word with its shift.
-/
namespace Mixing

variable {w : ℕ}

/-- From the top bit down a word can be read off its difference with its shift. -/
theorem xorShift_injective {r : ℕ} (hr : 0 < r) : Function.Injective fun x : BitVec w => x ^^^ (x >>> r) := by
  intro x y h
  have hbit : ∀ k i, w ≤ i + k → x.getLsbD i = y.getLsbD i := by
    intro k
    induction k with
    | zero =>
      intro i hi
      rw [BitVec.getLsbD_of_ge x i hi, BitVec.getLsbD_of_ge y i hi]
    | succ k ih =>
      intro i hi
      have hhigher : x.getLsbD (r + i) = y.getLsbD (r + i) := ih (r + i) (by omega)
      have hsame := congrArg (fun v : BitVec w => v.getLsbD i) h
      simpa only [BitVec.getLsbD_xor, BitVec.getLsbD_ushiftRight, hhigher, Bool.xor_left_inj] using hsame
  apply BitVec.eq_of_getLsbD_eq
  intro i _
  exact hbit w i (Nat.le_add_left ..)

theorem mul_injective {m n : BitVec w} (h : m * n = 1#w) : Function.Injective fun x : BitVec w => x * m := by
  intro x y hxy
  have hback : ∀ z : BitVec w, z * m * n = z := by
    intro z
    rw [BitVec.mul_assoc, h, BitVec.mul_one]
  rw [← hback x, ← hback y]
  exact congrArg (· * n) hxy

/-- Bytes one after the other, the first one lowest. -/
theorem xor_shift_eq_add {b n : ℕ} (hb : b < 2 ^ 8) : b ^^^ 2 ^ 8 * n = b + 2 ^ 8 * n := by
  apply Nat.eq_of_testBit_eq
  intro i
  rw [Nat.testBit_xor, Nat.add_comm, Nat.testBit_two_pow_mul_add _ hb, Nat.testBit_two_pow_mul]
  by_cases hi : i < 8
  · simp [hi, Nat.not_le.mpr hi]
  · have hlow : b < 2 ^ i := hb.trans_le (Nat.pow_le_pow_right (by decide) (Nat.not_lt.mp hi))
    simp [hi, Nat.not_lt.mp hi, Nat.testBit_lt_two_pow hlow]

end Mixing
