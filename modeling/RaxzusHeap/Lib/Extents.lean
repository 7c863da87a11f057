import Mathlib

/-! # Disjoint extents

A range allocator keeps extents: `ranges q = some N` says that the extent starting at `q` has
length `N`.  `Disjoint`, `Within` and `Covers` are the three facts one wants of them, and
`Apart ranges q N` says that the range `[q, q + N)` meets no extent.

Fresh ranges are carved off the end (`Apart.of_end`, `Covers.carve`); an extent that is
taken out leaves its range free for any range that fits into it (`Apart.of_removed`). -/

namespace Extents

/-- No two extents overlap. -/
def Disjoint (ranges : ℕ → Option ℕ) : Prop :=
  ∀ q N q' N', ranges q = some N → ranges q' = some N' → q ≠ q' → q + N ≤ q' ∨ q' + N' ≤ q

/-- Every extent is a non-empty part of `[lo, hi)`. -/
def Within (ranges : ℕ → Option ℕ) (lo hi : ℕ) : Prop :=
  ∀ q N, ranges q = some N → lo ≤ q ∧ 1 ≤ N ∧ q + N ≤ hi

/-- Every number of `[lo, hi)` belongs to an extent. -/
def Covers (ranges : ℕ → Option ℕ) (lo hi : ℕ) : Prop :=
  ∀ p, lo ≤ p → p < hi → ∃ q N, ranges q = some N ∧ q ≤ p ∧ p < q + N

/-- The range `[q, q + N)` meets no extent. -/
def Apart (ranges : ℕ → Option ℕ) (q N : ℕ) : Prop :=
  ∀ q' N', ranges q' = some N' → q + N ≤ q' ∨ q' + N' ≤ q

variable {ranges : ℕ → Option ℕ} {q N lo hi : ℕ}

theorem update_some {q' N' : ℕ} (h : Function.update ranges q (some N) q' = some N') :
    (q' = q ∧ N' = N) ∨ (q' ≠ q ∧ ranges q' = some N') := by
  by_cases hq : q' = q
  · subst hq
    rw [Function.update_self] at h
    exact Or.inl ⟨rfl, (Option.some.inj h).symm⟩
  · rw [Function.update_of_ne hq] at h
    exact Or.inr ⟨hq, h⟩

theorem update_none {q' N' : ℕ} (h : Function.update ranges q none q' = some N') :
    q' ≠ q ∧ ranges q' = some N' := by
  by_cases hq : q' = q
  · subst hq
    rw [Function.update_self] at h
    cases h
  · rw [Function.update_of_ne hq] at h
    exact ⟨hq, h⟩

theorem Disjoint.insert (h : Disjoint ranges) (ha : Apart ranges q N) :
    Disjoint (Function.update ranges q (some N)) := by
  intro a A b B hA hB hab
  rcases update_some hA with ⟨rfl, rfl⟩ | ⟨_, hA'⟩ <;>
    rcases update_some hB with ⟨rfl, rfl⟩ | ⟨_, hB'⟩
  · exact absurd rfl hab
  · exact ha b B hB'
  · exact (ha a A hA').symm
  · exact h a A b B hA' hB' hab

theorem Disjoint.remove (h : Disjoint ranges) (q : ℕ) : Disjoint (Function.update ranges q none) :=
  fun a A b B hA hB hab => h a A b B (update_none hA).2 (update_none hB).2 hab

theorem Within.insert (h : Within ranges lo hi) (h1 : lo ≤ q) (h2 : 1 ≤ N) (h3 : q + N ≤ hi) :
    Within (Function.update ranges q (some N)) lo hi := by
  intro a A hA
  rcases update_some hA with ⟨rfl, rfl⟩ | ⟨_, hA⟩
  · exact ⟨h1, h2, h3⟩
  · exact h a A hA

theorem Within.remove (h : Within ranges lo hi) (q : ℕ) :
    Within (Function.update ranges q none) lo hi := fun a A hA => h a A (update_none hA).2

theorem Within.mono {hi' : ℕ} (h : Within ranges lo hi) (hh : hi ≤ hi') : Within ranges lo hi' :=
  fun a A hA => ⟨(h a A hA).1, (h a A hA).2.1, (h a A hA).2.2.trans hh⟩

theorem Apart.of_end (h : Within ranges lo hi) (N : ℕ) : Apart ranges hi N :=
  fun a A hA => Or.inr (h a A hA).2.2

/-- The range of an extent that was taken out. -/
theorem Apart.of_removed {K : ℕ} (h : Disjoint ranges) (hq : ranges q = some K) (hN : N ≤ K) :
    Apart (Function.update ranges q none) q N := by
  intro a A hA
  obtain ⟨hne, hA⟩ := update_none hA
  rcases h q K a A hq hA (Ne.symm hne) with h1 | h1
  · exact Or.inl (by omega)
  · exact Or.inr h1

/-- A range apart from all extents starts none of them. -/
theorem Apart.not_start (h : Apart ranges q N) (hN : 1 ≤ N) (hw : Within ranges lo hi) : ranges q = none := by
  cases hq : ranges q with
  | none => rfl
  | some K =>
      have h1 := h q K hq
      have h2 := (hw q K hq).2.1
      omega

/-- Carving the end keeps the cover. -/
theorem Covers.carve (h : Covers ranges lo hi) (hw : Within ranges lo hi) :
    Covers (Function.update ranges hi (some N)) lo (hi + N) := by
  intro p h1 h2
  by_cases hp : p < hi
  · obtain ⟨a, A, hA, ha1, ha2⟩ := h p h1 hp
    have hne : a ≠ hi := by
      have := hw a A hA
      omega
    exact ⟨a, A, by rw [Function.update_of_ne hne]; exact hA, ha1, ha2⟩
  · exact ⟨hi, N, Function.update_self .., by omega, h2⟩

end Extents
