import Mathlib

/-! # First-fit allocation of numbers

A pool of numbers of which some are in use, served from the bottom: `First used f` says that
`f` is the lowest number not in use.  `Room used n m` says that at least `n` numbers below
`m` are free; one allocation costs one of them (`Room.take`), and as long as there is room
the next allocation stays below `m` (`Room.exists_first`). -/

namespace FirstFit

/-- `f` is the lowest free number. -/
def First (used : ℕ → Bool) (f : ℕ) : Prop := used f = false ∧ ∀ g < f, used g = true

theorem First.unique {used : ℕ → Bool} {f g : ℕ} (hf : First used f) (hg : First used g) :
    f = g := by
  rcases Nat.lt_trichotomy f g with h | h | h
  · have := hg.2 f h; rw [hf.1] at this; cases this
  · exact h
  · have := hf.2 g h; rw [hg.1] at this; cases this

theorem exists_first {used : ℕ → Bool} {g : ℕ} (hg : used g = false) :
    ∃ f ≤ g, First used f := by
  classical
  have hex : ∃ f, used f = false := ⟨g, hg⟩
  refine ⟨Nat.find hex, Nat.find_min' hex hg, Nat.find_spec hex, fun k hk => ?_⟩
  simpa using Nat.find_min hex hk

/-- The plain scan of the numbers below `n`, lowest first. -/
def scan (used : ℕ → Bool) (n : ℕ) : Option ℕ := (List.range n).find? fun f => !used f

theorem scan_eq_some {used : ℕ → Bool} {n f : ℕ} :
    scan used n = some f ↔ f < n ∧ First used f := by
  rw [scan, List.find?_range_eq_some]
  simp only [List.mem_range, Bool.not_not, Bool.not_eq_true', First]
  tauto

theorem scan_eq_none {used : ℕ → Bool} {n : ℕ} :
    scan used n = none ↔ ∀ f < n, used f = true := by
  simp [scan]

/-- The free numbers below `m`. -/
def freeBelow (used : ℕ → Bool) (m : ℕ) : Finset ℕ :=
  (Finset.range m).filter fun f => used f = false

theorem mem_freeBelow {used : ℕ → Bool} {m f : ℕ} :
    f ∈ freeBelow used m ↔ f < m ∧ used f = false := by
  simp [freeBelow]

/-- At least `n` numbers below `m` are free. -/
def Room (used : ℕ → Bool) (n m : ℕ) : Prop := n ≤ (freeBelow used m).card

theorem Room.mono {used : ℕ → Bool} {n n' m m' : ℕ} (h : Room used n m) (hn : n' ≤ n)
    (hm : m ≤ m') : Room used n' m' := by
  refine hn.trans (h.trans (Finset.card_le_card fun f hf => ?_))
  rw [mem_freeBelow] at hf ⊢
  exact ⟨lt_of_lt_of_le hf.1 hm, hf.2⟩

theorem Room.exists_first {used : ℕ → Bool} {n m : ℕ} (h : Room used (n + 1) m) :
    ∃ f < m, First used f := by
  obtain ⟨g, hg⟩ := Finset.card_pos.mp (lt_of_lt_of_le n.succ_pos h)
  rw [mem_freeBelow] at hg
  obtain ⟨f, hle, hf⟩ := FirstFit.exists_first hg.2
  exact ⟨f, lt_of_le_of_lt hle hg.1, hf⟩

theorem Room.first_lt {used : ℕ → Bool} {n m f : ℕ} (h : Room used (n + 1) m)
    (hf : First used f) : f < m := by
  obtain ⟨g, hlt, hg⟩ := h.exists_first
  rwa [hf.unique hg]

theorem Room.of_free {used used' : ℕ → Bool} {n m : ℕ} (h : Room used n m)
    (hfree : ∀ f < m, used f = false → used' f = false) : Room used' n m := by
  refine le_trans h (Finset.card_le_card fun f hf => ?_)
  obtain ⟨h1, h2⟩ := mem_freeBelow.mp hf
  exact mem_freeBelow.mpr ⟨h1, hfree f h1 h2⟩

/-- Fewer numbers in use leave more room. -/
theorem Room.of_less {used used' : ℕ → Bool} {n m : ℕ} (h : Room used' n m)
    (hsub : ∀ f, used f = true → used' f = true) : Room used n m := by
  apply h.of_free
  intro f _ hf
  cases hu : used f with
  | false => rfl
  | true => rw [hsub f hu] at hf; cases hf

/-- An allocation costs one free number. -/
theorem Room.take {used used' : ℕ → Bool} {n m f : ℕ} (h : Room used (n + 1) m)
    (hu : ∀ g, used' g = (used g || decide (g = f))) : Room used' n m := by
  have hsub : (freeBelow used m).erase f ⊆ freeBelow used' m := by
    intro g hg
    obtain ⟨hne, hg⟩ := Finset.mem_erase.mp hg
    rw [mem_freeBelow] at hg ⊢
    exact ⟨hg.1, by rw [hu, hg.2]; simp [hne]⟩
  have hcard := Finset.card_le_card hsub
  have herase : (freeBelow used m).card - 1 ≤ ((freeBelow used m).erase f).card :=
    Finset.pred_card_le_card_erase
  unfold Room at h ⊢
  omega

/-- Before the allocation of a number below `m` there was room for one more. -/
theorem Room.untake {used used' : ℕ → Bool} {n m f : ℕ} (h : Room used' n m) (hlt : f < m)
    (hf : used f = false) (hu : ∀ g, used' g = (used g || decide (g = f))) :
    Room used (n + 1) m := by
  have hsub : insert f (freeBelow used' m) ⊆ freeBelow used m := by
    intro g hg
    rw [mem_freeBelow]
    cases Finset.mem_insert.mp hg with
    | inl hgf =>
        rw [hgf]
        exact ⟨hlt, hf⟩
    | inr hg =>
        obtain ⟨h1, h2⟩ := mem_freeBelow.mp hg
        rw [hu, Bool.or_eq_false_iff] at h2
        exact ⟨h1, h2.1⟩
  have hnot : f ∉ freeBelow used' m := by
    intro hin
    have hclear := (mem_freeBelow.mp hin).2
    rw [hu] at hclear
    simp at hclear
  have hcard := Finset.card_le_card hsub
  rw [Finset.card_insert_of_notMem hnot] at hcard
  unfold Room at h ⊢
  omega

/-- A free interval is room. -/
theorem Room.of_interval {used : ℕ → Bool} {a m : ℕ}
    (h : ∀ f, a ≤ f → f < m → used f = false) : Room used (m - a) m := by
  have hsub : Finset.Ico a m ⊆ freeBelow used m := by
    intro f hf
    obtain ⟨h1, h2⟩ := Finset.mem_Ico.mp hf
    exact mem_freeBelow.mpr ⟨h2, h f h1 h2⟩
  have := Finset.card_le_card hsub
  rwa [Nat.card_Ico] at this

/-- If the numbers in use below `m` are among those of a small set, there is room. -/
theorem Room.of_subset {used : ℕ → Bool} {m n : ℕ} (S : Finset ℕ)
    (hS : ∀ f < m, used f = true → f ∈ S) (hcard : S.card + n ≤ m) : Room used n m := by
  have hsub : Finset.range m \ S ⊆ freeBelow used m := by
    intro f hf
    obtain ⟨h1, h2⟩ := Finset.mem_sdiff.mp hf
    have hlt := Finset.mem_range.mp h1
    refine mem_freeBelow.mpr ⟨hlt, ?_⟩
    cases hu : used f with
    | false => rfl
    | true => exact absurd (hS f hlt hu) h2
  have h1 := Finset.card_le_card hsub
  have h2 := Finset.le_card_sdiff S (Finset.range m)
  rw [Finset.card_range] at h2
  unfold Room
  omega

end FirstFit
