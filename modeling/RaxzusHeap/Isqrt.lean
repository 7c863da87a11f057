import RaxzusHeap.Lib.Checked
import RaxzusHeap.Machine

/-! # The square root of the memory tests (`isqrt` in `memtest.c`)

Newton's iteration with `uint32_t`, from the pair `(n, n / 2 + 1)`.  The loop carries the last
estimate and the next one, and ends with the first estimate that does not decrease.  For
`n = 2` the pair is `(2, 2)` and the loop is not entered. -/

namespace RaxzusHeap

open Checked

/-- `while (y < x) { x = y; y = (x + n / x) / 2; }`, then `x`. -/
def isqrtLoop (n x y : ℕ) : Option ℕ :=
  if y < x then do
    let q ← quotient n y
    let sum ← unsigned 32 (y + q)
    isqrtLoop n y (sum / 2)
  else some x
termination_by x

/-- `isqrt`. -/
def isqrt (n : Word) : Option ℕ :=
  if n = 0 then some 0
  else do
    let y ← unsigned 32 (n.toNat / 2 + 1)
    isqrtLoop n.toNat n.toNat y

theorem isqrtLoop_stop {n x y : ℕ} (h : x ≤ y) : isqrtLoop n x y = some x := by
  unfold isqrtLoop
  exact if_neg (by omega)

theorem isqrtLoop_step {n x y : ℕ} (h : y < x) (hy : 0 < y) (hsum : y + n / y < 2 ^ 32) :
    isqrtLoop n x y = isqrtLoop n y (newton n y) := by
  rw [isqrtLoop, if_pos h, quotient_of_pos n hy, Option.bind_eq_bind, Option.bind_some,
    unsigned_of_lt hsum, Option.bind_some]
  rfl

/-- From an estimate that is not below the root the loop ends at the root. -/
theorem isqrtLoop_spec {n x : ℕ} (hn : 0 < n) (hx : 0 < x) (hroot : n < (x + 1) * (x + 1))
    (hsmall : newton n x < x → newton n x ≤ 2 ^ 31 - 2) :
    ∃ r, isqrtLoop n x (newton n x) = some r ∧ r * r ≤ n ∧ n < (r + 1) * (r + 1) := by
  induction x using Nat.strong_induction_on with
  | h x ih =>
      rcases Nat.lt_or_ge (newton n x) x with hlt | hge
      · have hpos := newton_pos hn hx
        have hroot' := lt_newton_succ_sq n hx
        have hle := hsmall hlt
        have hdiv := div_le_add_two hpos hroot'
        rw [isqrtLoop_step hlt hpos (by omega)]
        exact ih _ hlt hpos hroot' fun _ => by omega
      · exact ⟨x, isqrtLoop_stop hge, sq_le_of_le_newton hx hge, hroot⟩

theorem isqrt_first {n : ℕ} (h3 : 3 ≤ n) (hn : n < 2 ^ 32) :
    isqrtLoop n n (n / 2 + 1) = isqrtLoop n (n / 2 + 1) (newton n (n / 2 + 1)) := by
  have hdiv : n / (n / 2 + 1) = 1 := by
    rw [Nat.div_eq_iff (by omega)]
    omega
  exact isqrtLoop_step (by omega) (by omega) (by omega)

/-- `isqrt` divides by no zero, does not overflow and ends, with the integer square root of
every number but two. -/
theorem isqrt_iff (n : Word) :
    (∃ r, isqrt n = some r ∧ r * r ≤ n.toNat ∧ n.toNat < (r + 1) * (r + 1)) ↔ n.toNat ≠ 2 := by
  have hlt := n.isLt
  have hstart : n ≠ 0 → isqrt n = isqrtLoop n.toNat n.toNat (n.toNat / 2 + 1) := by
    intro h0
    rw [isqrt, if_neg h0, unsigned_of_lt (by omega)]
    rfl
  constructor
  · rintro ⟨r, hr, hle, -⟩ h2
    have h0 : n ≠ 0 := by
      rintro rfl
      cases h2
    rw [hstart h0, h2, isqrtLoop_stop (by omega)] at hr
    cases hr
    omega
  · intro h2
    by_cases h0 : n = 0
    · subst h0
      exact ⟨0, rfl, by simp, by simp⟩
    have hpos : 0 < n.toNat := Nat.pos_of_ne_zero fun h => h0 (BitVec.eq_of_toNat_eq h)
    rw [hstart h0]
    by_cases h1 : n.toNat = 1
    · rw [h1]
      exact ⟨1, isqrtLoop_stop (by omega), by norm_num, by norm_num⟩
    rw [isqrt_first (by omega) hlt]
    refine isqrtLoop_spec hpos (by omega) ?_ fun hdown => ?_
    · have : n.toNat ≤ 2 * (n.toNat / 2) + 1 := by omega
      nlinarith
    · have hdiv : n.toNat / (n.toNat / 2 + 1) ≤ 1 := by
        rw [Nat.div_le_iff_le_mul_add_pred (by omega)]
        omega
      unfold newton
      omega

/-- The root of two is not two. -/
theorem isqrt_of_two :
    ¬ ∀ n : Word, ∃ r, isqrt n = some r ∧ r * r ≤ n.toNat ∧ n.toNat < (r + 1) * (r + 1) := by
  intro hall
  obtain ⟨r, hr, hle, -⟩ := hall 2
  have hloop : isqrt 2 = isqrtLoop 2 2 2 := rfl
  rw [hloop, isqrtLoop_stop le_rfl] at hr
  cases hr
  exact absurd hle (by decide)

end RaxzusHeap
