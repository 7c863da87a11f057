import Mathlib

/-! # Masks and single bits of machine words

The two kinds of bit arithmetic low-level code uses: fields of a word selected by masks
(`&`, `|`, `>>` on natural numbers, turned into division and remainder), and single bits of
a fixed-width word set, cleared and tested by `1 << b`. -/

namespace Bits

/-! ### Fields -/

theorem and_one_eq (n : ℕ) : n &&& 0x1 = n % 2 := Nat.and_one_is_mod n

theorem and_low_eq (n k : ℕ) : n &&& (2 ^ k - 1) = n % 2 ^ k := Nat.and_two_pow_sub_one_eq_mod n k

/-- Or-ing flags into the free low bits of an aligned address adds them. -/
theorem mul_pow_or_eq_add {k b : ℕ} (a : ℕ) (hb : b < 2 ^ k) :
    a * 2 ^ k ||| b = a * 2 ^ k + b := by
  rw [Nat.mul_comm]
  exact (Nat.two_pow_add_eq_or_of_lt hb a).symm

/-- Clearing the low `k` bits of a `w`-bit number rounds it down to a multiple of `2 ^ k`. -/
theorem and_high_eq {k w n : ℕ} (hk : k ≤ w) (hn : n < 2 ^ w) :
    n &&& (2 ^ w - 2 ^ k) = n / 2 ^ k * 2 ^ k := by
  apply Nat.eq_of_testBit_eq
  intro i
  have hm : 2 ^ w - 2 ^ k = 2 ^ k * (2 ^ (w - k) - 1) := by
    rw [Nat.mul_sub, ← Nat.pow_add, Nat.add_sub_cancel' hk, Nat.mul_one]
  rw [Nat.testBit_and, hm, Nat.testBit_two_pow_mul, Nat.testBit_two_pow_sub_one,
    Nat.mul_comm (n / 2 ^ k), Nat.testBit_two_pow_mul, Nat.testBit_div_two_pow]
  by_cases hi : k ≤ i
  · by_cases hw : i - k < w - k
    · simp [hi, hw, Nat.sub_add_cancel hi]
    · have hlarge : n < 2 ^ i := lt_of_lt_of_le hn (Nat.pow_le_pow_right (by norm_num) (by omega))
      simp [hi, hw, Nat.sub_add_cancel hi, Nat.testBit_lt_two_pow hlarge]
  · simp [hi]

/-! ### Single bits -/

variable {w : ℕ}

theorem getLsbD_one_shiftLeft {b i : ℕ} (hi : i < w) :
    (1#w <<< b).getLsbD i = decide (i = b) := by
  rw [BitVec.getLsbD_shiftLeft, BitVec.getLsbD_one]
  by_cases h : i = b
  · subst h; simp [hi]; omega
  · by_cases hlt : i < b
    · simp [h, hlt]
    · have : i - b ≠ 0 := by omega
      simp [h, hi, this]

/-- Testing a bit with a mask. -/
theorem and_one_shiftLeft_eq_zero_iff {x : BitVec w} {b : ℕ} (hb : b < w) :
    x &&& (1#w <<< b) = 0 ↔ x.getLsbD b = false := by
  constructor
  · intro h
    have := congrArg (fun y => BitVec.getLsbD y b) h
    simpa [BitVec.getLsbD_and, getLsbD_one_shiftLeft hb] using this
  · intro h
    apply BitVec.eq_of_getLsbD_eq
    intro i hi
    rw [BitVec.getLsbD_and, getLsbD_one_shiftLeft hi]
    by_cases e : i = b
    · subst e; simp [h]
    · simp [e]

theorem getLsbD_or_one_shiftLeft {x : BitVec w} {b i : ℕ} (hi : i < w) :
    (x ||| (1#w <<< b)).getLsbD i = (x.getLsbD i || decide (i = b)) := by
  rw [BitVec.getLsbD_or, getLsbD_one_shiftLeft hi]

theorem getLsbD_and_not_one_shiftLeft {x : BitVec w} {b i : ℕ} (hi : i < w) :
    (x &&& ~~~ (1#w <<< b)).getLsbD i = (x.getLsbD i && !decide (i = b)) := by
  rw [BitVec.getLsbD_and, BitVec.getLsbD_not, getLsbD_one_shiftLeft hi]
  simp [hi]

/-- The all-ones word is the one with every bit set. -/
theorem eq_allOnes_iff {x : BitVec w} : x = BitVec.allOnes w ↔ ∀ i < w, x.getLsbD i = true := by
  constructor
  · rintro rfl i hi
    simp [hi]
  · intro h
    apply BitVec.eq_of_getLsbD_eq
    intro i hi
    simp [h i hi, hi]

end Bits
