import RaxzusHeap.Pmm
import RaxzusHeap.Lib.Bits
import RaxzusHeap.Lib.FirstFit

/-! # What the frame searches do

Both searches return the lowest-numbered clear frame of the bitmap (`kernelFrame_eq`,
`processFrame_eq`), as long as the frames of the kernel image are marked.  Marking goes
through three helpers on signed `int`s: below 2 GB it sets exactly the bit the search
looked at (`setFrame_low`), above it touches no word of the bitmap at all
(`setFrame_high`). -/

namespace RaxzusHeap

open Imperative Bits

/-! ### The bitmap as a set of frames -/

/-- The bit of frame `f`. -/
def State.allocated (s : State) (f : ℕ) : Bool :=
  (s.bitmap ((f / 32 : ℕ) : ℤ)).getLsbD (f % 32)

/-- The state after bit `f` is set. -/
def State.mark (s : State) (f : ℕ) : State :=
  s.setBitmap ((f / 32 : ℕ) : ℤ) (s.bitmap ((f / 32 : ℕ) : ℤ) ||| 1#32 <<< (f % 32))

/-- The state after bit `f` is cleared. -/
def State.unmark (s : State) (f : ℕ) : State :=
  s.setBitmap ((f / 32 : ℕ) : ℤ) (s.bitmap ((f / 32 : ℕ) : ℤ) &&& ~~~ (1#32 <<< (f % 32)))

/-- Frame `f` is the lowest-numbered clear frame. -/
def State.FirstFree (s : State) (f : ℕ) : Prop := FirstFit.First s.allocated f

theorem State.allocated_congr {s s' : State} (h : ∀ i : ℤ, 0 ≤ i → s'.bitmap i = s.bitmap i)
    (f : ℕ) : s'.allocated f = s.allocated f := by
  unfold State.allocated
  rw [h _ (by positivity)]

theorem State.allocated_mark (s : State) (f g : ℕ) :
    (s.mark f).allocated g = (s.allocated g || decide (g = f)) := by
  unfold State.allocated State.mark State.setBitmap
  have hg : g % 32 < 32 := Nat.mod_lt _ (by norm_num)
  by_cases h : g / 32 = f / 32
  · simp only [h, if_true]
    rw [getLsbD_or_one_shiftLeft hg]
    have : (g % 32 = f % 32) = (g = f) := by
      apply propext
      constructor <;> intro e <;> omega
    simp only [this]
  · have h1 : ¬ ((g / 32 : ℕ) : ℤ) = ((f / 32 : ℕ) : ℤ) := by exact_mod_cast h
    have h2 : g ≠ f := fun e => h (by rw [e])
    simp only [if_neg h1, h2, decide_false, Bool.or_false]

theorem State.allocated_unmark (s : State) (f g : ℕ) :
    (s.unmark f).allocated g = (s.allocated g && !decide (g = f)) := by
  unfold State.allocated State.unmark State.setBitmap
  have hg : g % 32 < 32 := Nat.mod_lt _ (by norm_num)
  by_cases h : g / 32 = f / 32
  · simp only [h, if_true]
    rw [getLsbD_and_not_one_shiftLeft hg]
    have : (g % 32 = f % 32) = (g = f) := by
      apply propext
      constructor <;> intro e <;> omega
    simp only [this]
  · have h1 : ¬ ((g / 32 : ℕ) : ℤ) = ((f / 32 : ℕ) : ℤ) := by exact_mod_cast h
    have h2 : g ≠ f := fun e => h (by rw [e])
    simp only [if_neg h1, h2, decide_false, Bool.not_false, Bool.and_true]

/-! ### Marking -/

theorem u32_of_lt {n : ℕ} (h : n < 2 ^ 32) : u32 n = n := Nat.mod_eq_of_lt h

theorem toInt_of_lt {n : ℕ} (h : n < 2 ^ 31) : toInt n = n := if_pos h

theorem ofInt_natCast {n : ℕ} (h : n < 2 ^ 32) : ofInt (n : ℤ) = n := by
  unfold ofInt; omega

theorem calculatePage_low {f : ℕ} (hf : f < 0x80000) : calculatePage (toInt (f * 4096)) = f := by
  rw [toInt_of_lt (by omega), calculatePage]
  have : ((f * 4096 : ℕ) : ℤ).tdiv 4096 = (f : ℤ) := by
    rw [Int.tdiv_eq_ediv_of_nonneg (by positivity)]
    omega
  rw [this, ofInt_natCast (by omega)]

theorem findIndex_low {f : ℕ} (hf : f < 0x80000) : toInt (findIndex (toInt f)) = ((f / 32 : ℕ) : ℤ) := by
  rw [toInt_of_lt (n := f) (by omega), findIndex]
  have : ((f : ℕ) : ℤ).tdiv 32 = ((f / 32 : ℕ) : ℤ) := by
    rw [Int.tdiv_eq_ediv_of_nonneg (by positivity)]
    omega
  rw [this, ofInt_natCast (by omega), toInt_of_lt (by omega)]

theorem findBit_low {f : ℕ} (hf : f < 0x80000) : toInt (findBit (toInt f)) = ((f % 32 : ℕ) : ℤ) := by
  rw [toInt_of_lt (n := f) (by omega), findBit]
  have : ((f : ℕ) : ℤ).tmod 32 = ((f % 32 : ℕ) : ℤ) := by
    rw [Int.tmod_eq_emod_of_nonneg (by positivity)]
    omega
  rw [this, ofInt_natCast (by omega), toInt_of_lt (by omega)]

theorem bitMask_natCast {b : ℕ} (hb : b < 32) : bitMask (b : ℤ) = 1#32 <<< b := by
  unfold bitMask
  congr 1
  omega

theorem setFrame_low {f : ℕ} (hf : f < 0x80000) (s : State) :
    setFrame (f * 4096) s = .ok () (s.mark f) := by
  unfold setFrame
  rw [if_neg (by omega), calculatePage_low hf]
  simp only [findIndex_low hf, findBit_low hf]
  unfold setBit
  simp only [if_true, bitMask_natCast (Nat.mod_lt f (by norm_num : 0 < 32))]
  rfl

theorem clearFrame_low {f : ℕ} (hf : f < 0x80000) (s : State) :
    ∃ w, clearFrame (f * 4096) s = .ok w (s.unmark f) := by
  refine ⟨(s.bitmap ((f / 32 : ℕ) : ℤ) &&& ~~~ (1#32 <<< (f % 32))).toNat, ?_⟩
  unfold clearFrame
  rw [if_neg (by omega), calculatePage_low hf]
  simp only [findIndex_low hf, findBit_low hf]
  rw [setBit, run_bind_ok (run_get s), if_neg (by decide : ¬ FREE = ALLOCATE), if_pos rfl]
  simp only [bitMask_natCast (Nat.mod_lt f (by norm_num : 0 < 32))]
  rfl

theorem index_eq_neg {a : ℕ} (hge : 2 ^ 31 ≤ a) (ha : a < 0xC0000000) :
    toInt (findIndex (toInt (calculatePage (toInt a)))) =
      -(((2 ^ 32 - a) / 4096 / 32 : ℕ) : ℤ) := by
  have h1 : toInt a = -((2 ^ 32 - a : ℕ) : ℤ) := by
    unfold toInt; rw [if_neg (by omega)]; omega
  have h2 : (-((2 ^ 32 - a : ℕ) : ℤ)).tdiv 4096 = -(((2 ^ 32 - a) / 4096 : ℕ) : ℤ) := by
    rw [Int.neg_tdiv, Int.tdiv_eq_ediv_of_nonneg (by positivity)]; omega
  have h3 : toInt (ofInt (-(((2 ^ 32 - a) / 4096 : ℕ) : ℤ))) =
      -(((2 ^ 32 - a) / 4096 : ℕ) : ℤ) := by
    unfold toInt ofInt; rw [if_neg (by omega)]; omega
  have h4 : (-(((2 ^ 32 - a) / 4096 : ℕ) : ℤ)).tdiv 32 =
      -(((2 ^ 32 - a) / 4096 / 32 : ℕ) : ℤ) := by
    rw [Int.neg_tdiv, Int.tdiv_eq_ediv_of_nonneg (by positivity)]; omega
  have h5 : toInt (ofInt (-(((2 ^ 32 - a) / 4096 / 32 : ℕ) : ℤ))) =
      -(((2 ^ 32 - a) / 4096 / 32 : ℕ) : ℤ) := by
    unfold toInt ofInt; rw [if_neg (by omega)]; omega
  rw [calculatePage, h1, h2, h3, findIndex, h4, h5]

theorem index_high {f : ℕ} (hf : 0x80000 ≤ f) (hf' : f < 0xC0000) :
    toInt (findIndex (toInt (calculatePage (toInt (f * 4096))))) < 0 := by
  rw [index_eq_neg (by omega) (by omega)]
  omega

theorem index_lt {a : ℕ} (ha : a < 0xC0000000) :
    toInt (findIndex (toInt (calculatePage (toInt a)))) < 16384 := by
  by_cases hlow : a < 2 ^ 31
  · have hpage : calculatePage (toInt a) = a / 4096 := by
      rw [toInt_of_lt hlow, calculatePage, Int.tdiv_eq_ediv_of_nonneg (by positivity)]
      exact ofInt_natCast (n := a / 4096) (by omega)
    rw [hpage, findIndex_low (by omega)]
    omega
  · rw [index_eq_neg (by omega) ha]
    omega

theorem setFrame_high {f : ℕ} (hf : 0x80000 ≤ f) (s : State) :
    ∃ s', setFrame (f * 4096) s = .ok () s' ∧ ∀ i : ℤ, 0 ≤ i → s'.bitmap i = s.bitmap i := by
  unfold setFrame
  by_cases hp : 0xC0000000 ≤ f * 4096
  · rw [if_pos hp]
    exact ⟨s, rfl, fun _ _ => rfl⟩
  · rw [if_neg hp]
    have hneg := index_high hf (by omega)
    refine ⟨_, rfl, fun i hi => ?_⟩
    simp only [State.setBitmap]
    rw [if_neg (by omega)]

/-! ### Taking a frame -/

/-- Mark frame `f` and return its address: what both searches do with the frame they find. -/
def takeFrame (f : ℕ) : Kernel ℕ := do
  setFrame (f * 4096)
  incrementUsedFrames
  pure (f * 4096)

/-- The state after frame `f` below 2 GB was taken. -/
def State.take (s : State) (f : ℕ) : State :=
  { s.mark f with usedFrames := u32 (s.usedFrames + 1) }

@[simp] theorem State.allocated_take (s : State) (f g : ℕ) :
    (s.take f).allocated g = (s.allocated g || decide (g = f)) := s.allocated_mark f g

theorem takeFrame_low {f : ℕ} (hf : f < 0x80000) (s : State) :
    takeFrame f s = .ok (f * 4096) (s.take f) := by
  rw [takeFrame, run_bind_ok (setFrame_low hf s)]
  rfl

theorem takeFrame_high {f : ℕ} (hf : 0x80000 ≤ f) (s : State) :
    ∃ s', takeFrame f s = .ok (f * 4096) s' ∧ ∀ g, s'.allocated g = s.allocated g := by
  obtain ⟨s', hs', hsame⟩ := setFrame_high hf s
  refine ⟨{ s' with usedFrames := u32 (s'.usedFrames + 1) }, ?_, ?_⟩
  · rw [takeFrame, run_bind_ok hs']
    rfl
  · exact State.allocated_congr hsame

theorem takeFrame_ok (f : ℕ) (s : State) : ∃ s', takeFrame f s = .ok (f * 4096) s' := by
  by_cases hlow : f < 0x80000
  · exact ⟨_, takeFrame_low hlow s⟩
  · obtain ⟨s', hs', _⟩ := takeFrame_high (Nat.le_of_not_lt hlow) s
    exact ⟨s', hs'⟩

/-! ### The searches -/

theorem bit_test {s : State} {index b : ℕ} (hb : b < 32) :
    s.bitmap index &&& (1#32 <<< b) = 0 ↔ s.allocated (index * 32 + b) = false := by
  rw [and_one_shiftLeft_eq_zero_iff hb, State.allocated]
  have h1 : (index * 32 + b) / 32 = index := by omega
  have h2 : (index * 32 + b) % 32 = b := by omega
  rw [h1, h2]

theorem word_full {s : State} {index : ℕ} :
    s.bitmap index = 0xFFFFFFFF#32 ↔ ∀ b < 32, s.allocated (index * 32 + b) = true := by
  have h : (0xFFFFFFFF#32 : Word) = BitVec.allOnes 32 := by decide
  rw [h, eq_allOnes_iff]
  refine forall₂_congr fun b hb => ?_
  have h1 : (index * 32 + b) / 32 = index := by omega
  have h2 : (index * 32 + b) % 32 = b := by omega
  rw [State.allocated, h1, h2]

theorem frame_address {index b : ℕ} (hi : index < 32768) (hb : b < 32) :
    u32 (u32 (index * 32 + b) * 4096) = (index * 32 + b) * 4096 := by
  rw [u32_of_lt (n := index * 32 + b) (by omega), u32_of_lt (by omega)]

/-- The bit loop stops at the first clear bit, none of the bits it passes being clear. -/
theorem kernelBitLoop_eq {safeStart index b₀ : ℕ} {s : State} (hi : index < 32768)
    (hsafe : ∀ f, f * 4096 < safeStart → s.allocated f = true) (hb₀ : b₀ < 32)
    (hclear : s.allocated (index * 32 + b₀) = false) :
    ∀ n b, b + n = 32 → b ≤ b₀ → (∀ c, b ≤ c → c < b₀ → s.allocated (index * 32 + c) = true) →
      kernelBitLoop safeStart index n b (1#32 <<< b) s =
        (do let a ← takeFrame (index * 32 + b₀); pure (some a)) s
  | 0, b, hn, hb, _ => by omega
  | n + 1, b, hn, hb, hset => by
      have htest := @bit_test s index b (by omega)
      rw [kernelBitLoop]
      simp only [frame_address hi (show b < 32 by omega)]
      rw [run_bind_ok (run_get s)]
      rcases Nat.eq_or_lt_of_le hb with rfl | hlt
      · rw [if_pos (htest.mpr hclear), if_neg]
        · simp only [takeFrame, bind_assoc, pure_bind]
        · intro hlow
          rw [hsafe _ hlow] at hclear; cases hclear
      · rw [if_neg]
        · rw [show (1#32 <<< b) <<< 1 = 1#32 <<< (b + 1) from (BitVec.shiftLeft_add 1#32 b 1).symm]
          exact kernelBitLoop_eq hi hsafe hb₀ hclear n (b + 1) (by omega) (by omega)
            (fun c hc => hset c (by omega))
        · intro h
          have := hset b le_rfl hlt
          rw [htest.mp h] at this; cases this

/-- The word loop skips full words and stops at the first clear frame. -/
theorem kernelWordLoop_eq {safeStart f : ℕ} {s : State}
    (hsafe : ∀ g, g * 4096 < safeStart → s.allocated g = true) (hf : f < 0x100000)
    (hclear : s.allocated f = false) :
    ∀ n index, index + n = bitmapSize → index * 32 ≤ f →
      (∀ g, index * 32 ≤ g → g < f → s.allocated g = true) →
      kernelWordLoop safeStart n index s = takeFrame f s
  | 0, index, hn, hle, _ => by simp only [bitmapSize] at hn; omega
  | n + 1, index, hn, hle, hset => by
      simp only [bitmapSize] at hn
      rw [kernelWordLoop, run_bind_ok (run_get s)]
      by_cases hfull : s.bitmap index = 0xFFFFFFFF#32
      · rw [if_pos hfull]
        have hall := word_full.mp hfull
        have hge : (index + 1) * 32 ≤ f := by
          by_contra hlt
          have := hall (f - index * 32) (by omega)
          rw [show index * 32 + (f - index * 32) = f by omega, hclear] at this
          cases this
        exact kernelWordLoop_eq hsafe hf hclear n (index + 1) (by simp only [bitmapSize]; omega)
          hge (fun g hg => hset g (by omega))
      · rw [if_neg hfull]
        have hlt : f < (index + 1) * 32 := by
          by_contra hge
          exact hfull (word_full.mpr fun b hb => hset _ (by omega) (by omega))
        have hloop := @kernelBitLoop_eq _ index (f - index * 32) s (by omega)
          hsafe (by omega) (by rw [show index * 32 + (f - index * 32) = f by omega]; exact hclear)
          32 0 (by omega) (by omega) (fun c _ hc => hset _ (by omega) (by omega))
        rw [show (1#32 <<< 0 : Word) = 1 by decide,
          show index * 32 + (f - index * 32) = f by omega] at hloop
        obtain ⟨s₁, hs₁⟩ := takeFrame_ok f s
        rw [run_bind_ok hs₁] at hloop
        rw [run_bind_ok hloop, hs₁]
        rfl

theorem kernelWordLoop_full {safeStart : ℕ} {s : State}
    (hall : ∀ g < 0x100000, s.allocated g = true) :
    ∀ n index, index + n = bitmapSize → kernelWordLoop safeStart n index s = .ok 0 s
  | 0, index, _ => rfl
  | n + 1, index, hn => by
      simp only [bitmapSize] at hn
      rw [kernelWordLoop, run_bind_ok (run_get s),
        if_pos (word_full.mpr fun b hb => hall _ (by omega))]
      exact kernelWordLoop_full hall n (index + 1) (by simp only [bitmapSize]; omega)

theorem processBitLoop_eq {index b₀ : ℕ} {s : State} (hi : index < 32768) (hpos : 0 < index)
    (hb₀ : b₀ < 32) (hclear : s.allocated (index * 32 + b₀) = false) :
    ∀ n b, b + n = 32 → b ≤ b₀ → (∀ c, b ≤ c → c < b₀ → s.allocated (index * 32 + c) = true) →
      processBitLoop index n b (1#32 <<< b) s =
        (do let a ← takeFrame (index * 32 + b₀); pure (some a)) s
  | 0, b, hn, hb, _ => by omega
  | n + 1, b, hn, hb, hset => by
      have htest := @bit_test s index b (by omega)
      rw [processBitLoop]
      simp only [frame_address hi (show b < 32 by omega)]
      rw [if_neg (show ¬ (index * 32 + b) * 4096 = 0 by omega), run_bind_ok (run_get s)]
      rcases Nat.eq_or_lt_of_le hb with rfl | hlt
      · rw [if_pos (htest.mpr hclear)]
        simp only [takeFrame, bind_assoc, pure_bind]
      · rw [if_neg]
        · rw [show (1#32 <<< b) <<< 1 = 1#32 <<< (b + 1) from (BitVec.shiftLeft_add 1#32 b 1).symm]
          exact processBitLoop_eq hi hpos hb₀ hclear n (b + 1) (by omega) (by omega)
            (fun c hc => hset c (by omega))
        · intro h
          have := hset b le_rfl hlt
          rw [htest.mp h] at this; cases this

theorem processWordLoop_eq {f : ℕ} {s : State} (hlow : ∀ g < 32, s.allocated g = true)
    (hf : f < 0x100000) (hclear : s.allocated f = false) :
    ∀ n index, index + n = bitmapSize → index * 32 ≤ f →
      (∀ g, index * 32 ≤ g → g < f → s.allocated g = true) →
      processWordLoop n index s = takeFrame f s
  | 0, index, hn, hle, _ => by simp only [bitmapSize] at hn; omega
  | n + 1, index, hn, hle, hset => by
      simp only [bitmapSize] at hn
      rw [processWordLoop, run_bind_ok (run_get s)]
      by_cases hfull : s.bitmap index = 0xFFFFFFFF#32
      · rw [if_pos hfull]
        have hall := word_full.mp hfull
        have hge : (index + 1) * 32 ≤ f := by
          by_contra hlt
          have := hall (f - index * 32) (by omega)
          rw [show index * 32 + (f - index * 32) = f by omega, hclear] at this
          cases this
        exact processWordLoop_eq hlow hf hclear n (index + 1) (by simp only [bitmapSize]; omega)
          hge (fun g hg => hset g (by omega))
      · rw [if_neg hfull]
        -- word 0 is full, so the halt on address 0 is not met
        have hpos : 0 < index := by
          by_contra h0
          obtain rfl : index = 0 := by omega
          exact hfull (word_full.mpr fun b hb => hlow _ (by omega))
        have hlt : f < (index + 1) * 32 := by
          by_contra hge
          exact hfull (word_full.mpr fun b hb => hset _ (by omega) (by omega))
        have hloop := @processBitLoop_eq index (f - index * 32) s (by omega)
          hpos (by omega) (by rw [show index * 32 + (f - index * 32) = f by omega]; exact hclear)
          32 0 (by omega) (by omega) (fun c _ hc => hset _ (by omega) (by omega))
        rw [show (1#32 <<< 0 : Word) = 1 by decide,
          show index * 32 + (f - index * 32) = f by omega] at hloop
        obtain ⟨s₁, hs₁⟩ := takeFrame_ok f s
        rw [run_bind_ok hs₁] at hloop
        rw [run_bind_ok hloop, hs₁]
        rfl

theorem processWordLoop_full {s : State} (hall : ∀ g < 0x100000, s.allocated g = true) :
    ∀ n index, index + n = bitmapSize → processWordLoop n index s = .ok 0 s
  | 0, index, _ => rfl
  | n + 1, index, hn => by
      simp only [bitmapSize] at hn
      rw [processWordLoop, run_bind_ok (run_get s),
        if_pos (word_full.mpr fun b hb => hall _ (by omega))]
      exact processWordLoop_full hall n (index + 1) (by simp only [bitmapSize]; omega)

/-! ### The two entry points -/

theorem Layout.physEnd (L : Layout) : u32Sub L.heapStart 0xC0000000 = L.kernelFrames * 4096 := by
  have := L.high
  simp only [u32Sub, Layout.heapStart, Layout.kernelPageTablesBase, Layout.kernelPageTable,
    Layout.kernelPageDir, Layout.kernelFrames, KERNEL_BASE]
  omega

theorem Layout.safeStart_eq (L : Layout) :
    u32 (u32Sub L.heapStart 0xC0000000 + 4095) &&& 0xFFFFF000 = L.kernelFrames * 4096 := by
  have hK : L.kernelFrames ≤ 1024 := L.high
  rw [L.physEnd, u32_of_lt (by omega)]
  rw [show (0xFFFFF000 : ℕ) = 2 ^ 32 - 2 ^ 12 by norm_num, and_high_eq (by norm_num) (by omega)]
  omega

/-- The frames of the kernel image are marked. -/
def Layout.ImageMarked (L : Layout) (s : State) : Prop :=
  ∀ f < L.kernelFrames, s.allocated f = true

/-- `get_next_free_kernel_frame` takes the lowest-numbered clear frame. -/
theorem Layout.kernelFrame_eq (L : Layout) {s : State} {f : ℕ} (himg : L.ImageMarked s)
    (hf : s.FirstFree f) (hlt : f < 0x100000) : L.getNextFreeKernelFrame s = takeFrame f s := by
  have hK : L.kernelFrames ≤ 1024 := L.high
  have hge : L.kernelFrames ≤ f := by
    by_contra h
    have := himg f (by omega)
    rw [hf.1] at this; cases this
  unfold Layout.getNextFreeKernelFrame
  simp only [L.safeStart_eq]
  exact kernelWordLoop_eq (fun g hg => himg g (by omega)) hlt hf.1 _ _
    (by simp only [bitmapSize]; omega) (by omega) (fun g _ hg => hf.2 g hg)

theorem Layout.kernelFrame_full (L : Layout) {s : State}
    (hall : ∀ g < 0x100000, s.allocated g = true) : L.getNextFreeKernelFrame s = .ok 0 s := by
  have hK : L.kernelFrames ≤ 1024 := L.high
  unfold Layout.getNextFreeKernelFrame
  simp only [L.safeStart_eq]
  exact kernelWordLoop_full hall _ _ (by simp only [bitmapSize]; omega)

theorem Layout.processFrame_eq (L : Layout) {s : State} {f : ℕ} (himg : L.ImageMarked s)
    (hf : s.FirstFree f) (hlt : f < 0x100000) : getNextFreeProcessFrame s = takeFrame f s := by
  have hK : 258 ≤ L.kernelFrames := Nat.le_add_left _ _
  exact processWordLoop_eq (fun g hg => himg g (by omega)) hlt hf.1 _ _ rfl (by omega)
    (fun g _ hg => hf.2 g hg)

theorem processFrame_full {s : State} (hall : ∀ g < 0x100000, s.allocated g = true) :
    getNextFreeProcessFrame s = .ok 0 s :=
  processWordLoop_full hall _ _ rfl

/-- Both searches are the plain first-fit scan of all frames: they return the same address and
leave the same state, do not halt, and return 0 exactly when every bit is set. -/
theorem Layout.searches_first_fit (L : Layout) (s : State) (himg : L.ImageMarked s) :
    ∃ a s', L.getNextFreeKernelFrame s = .ok a s' ∧ getNextFreeProcessFrame s = .ok a s' ∧
      a = (match FirstFit.scan s.allocated 0x100000 with | some f => f * 4096 | none => 0) ∧
      (∀ f < 0x100000, s.FirstFree f → a = f * 4096) ∧
      (a = 0 ↔ ∀ f < 0x100000, s.allocated f = true) := by
  cases hscan : FirstFit.scan s.allocated 0x100000 with
  | none =>
      have hall := FirstFit.scan_eq_none.mp hscan
      refine ⟨0, s, L.kernelFrame_full hall, processFrame_full hall, rfl, ?_, ?_⟩
      · intro f hf hfree
        have := hall f hf
        rw [hfree.1] at this
        cases this
      · exact ⟨fun _ => hall, fun _ => rfl⟩
  | some f =>
      obtain ⟨hlt, hfree⟩ := FirstFit.scan_eq_some.mp hscan
      obtain ⟨s', htake⟩ := takeFrame_ok f s
      have hpos : 0 < f := by
        by_contra h0
        obtain rfl : f = 0 := by omega
        have := himg 0 (by simp only [Layout.kernelFrames]; omega)
        rw [hfree.1] at this
        cases this
      refine ⟨f * 4096, s', ?_, ?_, rfl, ?_, ?_⟩
      · rw [L.kernelFrame_eq himg hfree hlt, htake]
      · rw [L.processFrame_eq himg hfree hlt, htake]
      · intro g _ hg
        rw [hfree.unique hg]
      · constructor
        · intro h0
          omega
        · intro hall
          have := hall f hlt
          rw [hfree.1] at this
          cases this

/-- The bitmap with its first 17 words full, the others clear. -/
theorem Layout.searches_first_fit_words :
    ∃ a s', Layout.lowest.getNextFreeKernelFrame
        { State.powerOn (fun _ _ => 0) with bitmap := fun i => if i < 17 then 0xFFFFFFFF else 0 } =
          .ok a s' ∧ a ≠ 0 := by
  obtain ⟨a, s', hk, -, -, -, h0⟩ := Layout.searches_first_fit Layout.lowest
    { State.powerOn (fun _ _ => 0) with bitmap := fun i => if i < 17 then 0xFFFFFFFF else 0 }
    (by
      intro f hf
      have h1 : f < 514 := hf
      have h2 : ((f / 32 : ℕ) : ℤ) < 17 := by omega
      have h3 : ∀ i < 32, (0xFFFFFFFF#32).getLsbD i = true := by decide
      simp only [State.allocated, if_pos h2]
      exact h3 _ (Nat.mod_lt _ (by norm_num)))
  refine ⟨a, s', hk, fun ha => ?_⟩
  have := h0.mp ha 544 (by norm_num)
  revert this
  decide

/-! ### `init_pmm` -/

theorem State.allocated_setBitmap_zero (s : State) (i f : ℕ) :
    (s.setBitmap i 0).allocated f = (s.allocated f && !decide (f / 32 = i)) := by
  unfold State.allocated State.setBitmap
  by_cases h : f / 32 = i
  · simp [h]
  · have h1 : ¬ ((f / 32 : ℕ) : ℤ) = (i : ℤ) := by exact_mod_cast h
    simp only [if_neg h1, h, decide_false, Bool.not_false, Bool.and_true]

/-- The states differ at most in the bitmap and the frame counter. -/
structure OnlyPmm (s t : State) : Prop where
  mem : t.mem = s.mem
  domains : t.domains = s.domains
  large : t.large = s.large
  currentIndex : t.currentIndex = s.currentIndex
  processLists : t.processLists = s.processLists
  maps : t.maps = s.maps
  stale : t.stale = s.stale

theorem OnlyPmm.refl (s : State) : OnlyPmm s s := ⟨rfl, rfl, rfl, rfl, rfl, rfl, rfl⟩

theorem OnlyPmm.setBitmap {s t : State} (h : OnlyPmm s t) (i : ℤ) (w : Word) :
    OnlyPmm s (t.setBitmap i w) :=
  ⟨h.mem, h.domains, h.large, h.currentIndex, h.processLists, h.maps, h.stale⟩

theorem OnlyPmm.take {s t : State} (h : OnlyPmm s t) (f : ℕ) : OnlyPmm s (t.take f) :=
  ⟨h.mem, h.domains, h.large, h.currentIndex, h.processLists, h.maps, h.stale⟩

/-- `init_pmm` leaves exactly the frames of the kernel image marked, and touches nothing but
the bitmap and the frame counter. -/
theorem Layout.initPmm_spec (L : Layout) (s : State) :
    ∃ s', L.initPmm s = .ok () s' ∧ OnlyPmm s s' ∧
      ∀ f < 0x100000, s'.allocated f = decide (f < L.kernelFrames) := by
  have hK : L.kernelFrames ≤ 1024 := L.high
  -- after `i` turns the first `i` words are zero
  obtain ⟨s₁, hr₁, h₁, hzero⟩ := times_rule
    (fun i => (modify (·.setBitmap i 0) : Kernel Unit))
    (fun i t => OnlyPmm s t ∧ ∀ f < i * 32, t.allocated f = false) (n := bitmapSize)
    ⟨OnlyPmm.refl s, by simp⟩
    (fun i t hi ⟨hs, hz⟩ => ⟨t.setBitmap i 0, rfl, hs.setBitmap _ _, by
      intro f hf
      rw [State.allocated_setBitmap_zero]
      by_cases h : f / 32 = i
      · simp [h]
      · rw [hz f (by omega)]; rfl⟩)
  -- after `i` turns the first `i` frames are marked
  obtain ⟨s₂, hr₂, h₂, hmark⟩ := times_rule
    (fun i => (do setFrame (i * 4096); incrementUsedFrames : Kernel Unit))
    (fun i t => OnlyPmm s t ∧ ∀ f < 0x100000, t.allocated f = decide (f < i))
    (n := L.kernelFrames) (s := s₁)
    ⟨h₁, fun f hf => by rw [hzero f (by simp only [bitmapSize]; omega)]; simp⟩
    (fun i t hi ⟨hs, hm⟩ => ⟨t.take i, by rw [run_bind_ok (setFrame_low (by omega) t)]; rfl,
      hs.take i, by
      intro f hf
      rw [State.allocated_take, hm f hf, Bool.eq_iff_iff]
      simp only [Bool.or_eq_true, decide_eq_true_eq]
      omega⟩)
  refine ⟨s₂, ?_, h₂, hmark⟩
  unfold Layout.initPmm
  simp only [L.physEnd]
  rw [run_bind_ok hr₁, show (L.kernelFrames * 4096 + 4095) / 4096 = L.kernelFrames by omega]
  exact hr₂

end RaxzusHeap
