import Mathlib

/-! # Checked arithmetic and Newton's square root

* **Checked operations.**  Arithmetic of fixed width on mathematical integers that gives
  `none` where a machine would leave the range of its type, divide by zero or write outside
  a buffer.  A computation that gives `some` has done none of these, so it is the
  computation of the machine.
* **Newton's iteration** for the square root, on natural numbers.  A step from a positive
  number never ends below the root (`lt_newton_succ_sq`), and a step that does not decrease
  starts at most at the root (`sq_le_of_le_newton`); so the first step that does not decrease
  starts at the root itself. -/

namespace Checked

/-! ### Numbers -/

/-- An unsigned number of `w` bits. -/
def unsigned (w n : ℕ) : Option ℕ := if n < 2 ^ w then some n else none

/-- A signed number of `w + 1` bits. -/
def signed (w : ℕ) (z : ℤ) : Option ℤ := if -2 ^ w ≤ z ∧ z < 2 ^ w then some z else none

/-- A quotient of unsigned numbers. -/
def quotient (a b : ℕ) : Option ℕ := if b = 0 then none else some (a / b)

theorem unsigned_of_lt {w n : ℕ} (h : n < 2 ^ w) : unsigned w n = some n := if_pos h

theorem signed_of_range {w : ℕ} {z : ℤ} (h1 : -2 ^ w ≤ z) (h2 : z < 2 ^ w) :
    signed w z = some z := if_pos ⟨h1, h2⟩

theorem quotient_of_pos (a : ℕ) {b : ℕ} (h : 0 < b) : quotient a b = some (a / b) :=
  if_neg h.ne'

/-! ### Buffers -/

section Buffers

variable {α : Type}

/-- `buffer[i] = x`. -/
def write (buffer : List α) (i : ℕ) (x : α) : Option (List α) :=
  if i < buffer.length then some (buffer.set i x) else none

theorem write_append {pre suf : List α} (y x : α) {i : ℕ} (h : i = pre.length) :
    write (pre ++ y :: suf) i x = some (pre ++ x :: suf) := by
  subst h
  rw [write, if_pos (by simp), List.set_append_right _ _ le_rfl, Nat.sub_self, List.set_cons_zero]

end Buffers

/-! ### Newton's iteration -/

/-- One step of Newton's iteration for the square root of `n`. -/
def newton (n x : ℕ) : ℕ := (x + n / x) / 2

theorem lt_newton_succ_sq (n : ℕ) {x : ℕ} (hx : 0 < x) :
    n < (newton n x + 1) * (newton n x + 1) := by
  have hdiv : n < x * (n / x + 1) := Nat.lt_mul_div_succ n hx
  have hhalf : x + n / x + 1 ≤ 2 * (newton n x + 1) := by
    unfold newton
    omega
  -- the arithmetic mean of `x` and `n / x + 1` is at least their geometric mean
  have hmean : 4 * (x * (n / x + 1)) ≤ (x + n / x + 1) * (x + n / x + 1) := by
    generalize n / x = q
    rcases Nat.le_total x (q + 1) with h | h
    · obtain ⟨d, hd⟩ := Nat.exists_eq_add_of_le h
      nlinarith
    · obtain ⟨d, hd⟩ := Nat.exists_eq_add_of_le h
      nlinarith
  have hsq := Nat.mul_le_mul hhalf hhalf
  nlinarith

theorem sq_le_of_le_newton {n x : ℕ} (hx : 0 < x) (h : x ≤ newton n x) : x * x ≤ n := by
  have hle : x ≤ n / x := by
    unfold newton at h
    omega
  exact (Nat.le_div_iff_mul_le hx).mp hle

theorem newton_pos {n x : ℕ} (hn : 0 < n) (hx : 0 < x) : 0 < newton n x := by
  have hlt := lt_newton_succ_sq n hx
  by_contra h0
  rw [Nat.eq_zero_of_not_pos h0] at hlt
  have hx1 : x = 1 ∧ n / x = 0 := by
    unfold newton at h0
    omega
  rw [hx1.1, Nat.div_one] at hx1
  omega

/-- The quotient exceeds a number that is not below the root by two at most. -/
theorem div_le_add_two {n x : ℕ} (hx : 0 < x) (h : n < (x + 1) * (x + 1)) : n / x ≤ x + 2 := by
  rw [Nat.div_le_iff_le_mul_add_pred hx]
  have : n ≤ x * x + 2 * x := by nlinarith
  nlinarith

end Checked
