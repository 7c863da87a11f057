import RaxzusHeap.PmmSpec

/-! # The bit of an address

`ASSERT_PHYSICAL` lets every address below 3 GB through, and the bitmap has a bit for every
frame of 4 GB.  Between the address and its bit stand three helpers that take and divide
signed `int`s.

* `bitmapPlace_low`, `bitmapPlace_high`: below 2 GB the helpers compute the word and the bit
  of the frame, from 2 GB on a word in front of the bitmap.
* `addressedExactly_iff`: `set_frame` and `clear_frame` do what a bitmap should do exactly
  below 2 GB. -/

namespace RaxzusHeap

open Imperative Bits

/-- The word and the bit that `set_frame` and `clear_frame` compute for an address. -/
def bitmapPlace (frameAddr : ℕ) : ℤ × ℤ :=
  let frame := calculatePage (toInt frameAddr)
  (toInt (findIndex (toInt frame)), toInt (findBit (toInt frame)))

/-- Two states differ at most in bit `b` of `bitmap[i]`, which is `v` in the second. -/
structure OnlyBit (i : ℤ) (b : ℕ) (v : Bool) (s s' : State) : Prop where
  rest : s' = { s with bitmap := s'.bitmap }
  words : ∀ j ≠ i, s'.bitmap j = s.bitmap j
  bits : ∀ k < 32, (s'.bitmap i).getLsbD k = if k = b then v else (s.bitmap i).getLsbD k

/-- Address `a` has a bit of the bitmap for itself, the two functions access its word only and
change that bit only, and clearing it undoes setting it. -/
structure AddressedExactly (a : ℕ) : Prop where
  place : bitmapPlace a = (((a / 4096 / 32 : ℕ) : ℤ), ((a / 4096 % 32 : ℕ) : ℤ))
  inside : 0 ≤ (bitmapPlace a).1 ∧ (bitmapPlace a).1 < bitmapSize
  access : (setFrame a = do
      let _ ← setBit ((a / 4096 / 32 : ℕ) : ℤ) ((a / 4096 % 32 : ℕ) : ℤ) ALLOCATE
      pure ()) ∧
    clearFrame a = setBit ((a / 4096 / 32 : ℕ) : ℤ) ((a / 4096 % 32 : ℕ) : ℤ) FREE
  set : ∀ s, ∃ s', setFrame a s = .ok () s' ∧
    OnlyBit ((a / 4096 / 32 : ℕ) : ℤ) (a / 4096 % 32) true s s'
  clear : ∀ s, ∃ w s', clearFrame a s = .ok w s' ∧
    OnlyBit ((a / 4096 / 32 : ℕ) : ℤ) (a / 4096 % 32) false s s'
  distinct : ∀ b < 0xC0000000, b % 4096 = 0 → b ≠ a → bitmapPlace b ≠ bitmapPlace a
  undone : ∀ s, s.allocated (a / 4096) = false →
    ∃ w, (do setFrame a; clearFrame a : Kernel ℕ) s = .ok w s

/-! ### The helpers -/

theorem setFrame_eq {a : ℕ} (ha : a < 0xC0000000) :
    setFrame a = (do let _ ← setBit (bitmapPlace a).1 (bitmapPlace a).2 ALLOCATE; pure ()) := by
  unfold setFrame
  rw [if_neg (by omega)]
  rfl

theorem clearFrame_eq {a : ℕ} (ha : a < 0xC0000000) :
    clearFrame a = setBit (bitmapPlace a).1 (bitmapPlace a).2 FREE := by
  unfold clearFrame
  rw [if_neg (by omega)]
  rfl

theorem bitmapPlace_low {f : ℕ} (hf : f < 0x80000) :
    bitmapPlace (f * 4096) = (((f / 32 : ℕ) : ℤ), ((f % 32 : ℕ) : ℤ)) := by
  simp only [bitmapPlace, calculatePage_low hf, findIndex_low hf, findBit_low hf]

theorem bitmapPlace_high {f : ℕ} (hf : 0x80000 ≤ f) (hf' : f < 0xC0000) :
    (bitmapPlace (f * 4096)).1 < 0 := index_high hf hf'

theorem bitmapPlace_ne {f g : ℕ} (hf : f < 0x80000) (hg : g < 0xC0000) (hne : g ≠ f) :
    bitmapPlace (g * 4096) ≠ bitmapPlace (f * 4096) := by
  intro h
  rw [bitmapPlace_low hf] at h
  by_cases hlow : g < 0x80000
  · rw [bitmapPlace_low hlow, Prod.mk.injEq] at h
    obtain ⟨hword, hbit⟩ := h
    have hword : g / 32 = f / 32 := by exact_mod_cast hword
    have hbit : g % 32 = f % 32 := by exact_mod_cast hbit
    omega
  · have hneg := bitmapPlace_high (Nat.le_of_not_lt hlow) hg
    rw [h] at hneg
    omega

/-! ### Setting and clearing -/

theorem State.onlyBit_mark (s : State) (f : ℕ) :
    OnlyBit ((f / 32 : ℕ) : ℤ) (f % 32) true s (s.mark f) where
  rest := rfl
  words j hj := if_neg hj
  bits k hk := by
    simp only [State.mark, State.setBitmap, if_true]
    rw [getLsbD_or_one_shiftLeft hk]
    by_cases h : k = f % 32 <;> simp [h]

theorem State.onlyBit_unmark (s : State) (f : ℕ) :
    OnlyBit ((f / 32 : ℕ) : ℤ) (f % 32) false s (s.unmark f) where
  rest := rfl
  words j hj := if_neg hj
  bits k hk := by
    simp only [State.unmark, State.setBitmap, if_true]
    rw [getLsbD_and_not_one_shiftLeft hk]
    by_cases h : k = f % 32 <;> simp [h]

/-- Clearing a bit that was clear before it was set gives the old state back. -/
theorem State.unmark_mark {s : State} {f : ℕ} (h : s.allocated f = false) :
    (s.mark f).unmark f = s := by
  have hword : ∀ j, ((s.mark f).unmark f).bitmap j = s.bitmap j := by
    intro j
    by_cases hj : j = ((f / 32 : ℕ) : ℤ)
    · subst hj
      refine BitVec.eq_of_getLsbD_eq fun k hk => ?_
      rw [((s.mark f).onlyBit_unmark f).bits k hk, (s.onlyBit_mark f).bits k hk]
      split_ifs with hkf
      · rw [hkf]
        exact h.symm
      · rfl
    · rw [((s.mark f).onlyBit_unmark f).words j hj, (s.onlyBit_mark f).words j hj]
  have hbitmap : ((s.mark f).unmark f).bitmap = s.bitmap := funext hword
  calc (s.mark f).unmark f = { s with bitmap := ((s.mark f).unmark f).bitmap } := rfl
    _ = { s with bitmap := s.bitmap } := by rw [hbitmap]
    _ = s := rfl

/-- Below 2 GB the bitmap is addressed exactly. -/
theorem addressedExactly_low {f : ℕ} (hf : f < 0x80000) : AddressedExactly (f * 4096) := by
  have hframe : f * 4096 / 4096 = f := by omega
  have hlt : f * 4096 < 0xC0000000 := by omega
  refine ⟨?_, ?_, ?_, ?_, ?_, ?_, ?_⟩ <;> try rw [hframe]
  · exact bitmapPlace_low hf
  · rw [bitmapPlace_low hf]
    constructor
    · positivity
    · simp only [bitmapSize]
      omega
  · rw [setFrame_eq hlt, clearFrame_eq hlt, bitmapPlace_low hf]
    exact ⟨rfl, rfl⟩
  · exact fun s => ⟨_, setFrame_low hf s, s.onlyBit_mark f⟩
  · intro s
    obtain ⟨w, hw⟩ := clearFrame_low hf s
    exact ⟨w, _, hw, s.onlyBit_unmark f⟩
  · intro b hb halign hne
    obtain ⟨g, rfl⟩ : ∃ g, b = g * 4096 := ⟨b / 4096, by omega⟩
    exact bitmapPlace_ne hf (by omega) (by omega)
  · intro s hclear
    obtain ⟨w, hw⟩ := clearFrame_low hf (s.mark f)
    refine ⟨w, ?_⟩
    rw [run_bind_ok (setFrame_low hf s), hw, State.unmark_mark hclear]

/-- Of the addresses that `ASSERT_PHYSICAL` accepts, the bitmap serves those below 2 GB. -/
theorem addressedExactly_iff {a : ℕ} (halign : a % 4096 = 0) (ha : a < 0xC0000000) :
    AddressedExactly a ↔ a < 0x80000000 := by
  obtain ⟨f, rfl⟩ : ∃ f, a = f * 4096 := ⟨a / 4096, by omega⟩
  constructor
  · intro h
    by_contra hge
    have hneg := bitmapPlace_high (show 0x80000 ≤ f by omega) (by omega)
    have hpos := h.inside.1
    omega
  · exact fun hlt => addressedExactly_low (by omega)

theorem addressedExactly_last : AddressedExactly 0x7FFFF000 :=
  (addressedExactly_iff (by norm_num) (by norm_num)).mpr (by norm_num)

/-- The frame at 2 GB is marked in a word in front of the bitmap, and its own bit stays. -/
theorem high_frame_unmarked : ∃ a < 0xC0000000, a % 4096 = 0 ∧ ¬ AddressedExactly a ∧
    bitmapPlace a = (-16384, 0) ∧
    ∀ s, ∃ s', setFrame a s = .ok () s' ∧ s'.allocated (a / 4096) = s.allocated (a / 4096) := by
  have hplace : bitmapPlace 0x80000000 = (-16384, 0) := by decide
  refine ⟨0x80000000, by norm_num, by norm_num, fun h => ?_, hplace, fun s => ?_⟩
  · have hpos := h.inside.1
    rw [hplace] at hpos
    exact absurd hpos (by decide)
  · obtain ⟨s', hrun, hsame⟩ := setFrame_high (f := 0x80000) le_rfl s
    exact ⟨s', hrun, State.allocated_congr hsame _⟩

end RaxzusHeap
