import RaxzusHeap.Window

/-! # The size of a large allocation

`kmalloc_large` computes its page count in 32 bits, and moves its cursor without looking at the
end of the address space.  An allocation covers the bytes asked for (`Covers`) exactly if
neither of the two wraps (`kmalloc_covers_iff`). -/

namespace RaxzusHeap

open Imperative FirstFit

/-- The pages that `map_page` has installed in the kernel directory between two states. -/
def Layout.newPages (L : Layout) (s s' : State) : Set ℕ :=
  {p | s.maps L.dirFrame p = none ∧ s'.maps L.dirFrame p ≠ none}

/-- From the header at `p - 4` to the last of `size` bytes every byte lies in a page that the
mapping loop of the call has mapped, and the header is the number of these pages. -/
structure Covers (L : Layout) (size p : ℕ) (s s' : State) : Prop where
  nowrap : 4 ≤ p ∧ p + size ≤ 2 ^ 32
  pages : ∃ virtStart s₁, L.largeTakeSlot (largePages size) s = .ok virtStart s₁ ∧
    (∀ x, p - 4 ≤ x → x < p + size → x / 4096 ∈ L.newPages s₁ s' ∧
      (s'.peek L.dirFrame x).isSome) ∧
    s'.peek L.dirFrame (p - 4) = some (L.newPages s₁ s').ncard

section Pointer

variable {L : Layout} {use : ℕ → Use} {live ranges : ℕ → Option ℕ} {s s' : State} {n p : ℕ}

/-- The pointer that `kmalloc_large` returns lies four bytes behind the range. -/
theorem Layout.kmallocLarge_pointer (hn : n ≠ 0) (hr : L.kmallocLarge n s = .ok p s') (hp : p ≠ 0) :
    ∃ virtStart s₁, L.largeTakeSlot (largePages n) s = .ok virtStart s₁ ∧ p = u32 (virtStart + 4) := by
  unfold Layout.kmallocLarge at hr
  rw [if_neg hn] at hr
  obtain ⟨virtStart, s₁, htake, hr⟩ := run_bind_eq_ok.mp hr
  obtain ⟨mapped, s₂, -, hr⟩ := run_bind_eq_ok.mp hr
  refine ⟨virtStart, s₁, htake, ?_⟩
  cases mapped with
  | true =>
      rw [if_pos rfl] at hr
      obtain ⟨_, s₃, -, hr⟩ := run_bind_eq_ok.mp hr
      cases hr
      rfl
  | false =>
      rw [if_neg (by simp)] at hr
      cases hr
      exact absurd rfl hp

/-- The range starts at the cursor unless the slot on top of the LIFO serves the request. -/
theorem LargeInv.takeSlot_start (hl : LargeInv L use live ranges s) {N virtStart : ℕ} {s₁ : State}
    (hr : L.largeTakeSlot N s = .ok virtStart s₁) :
    virtStart % 4096 = 0 ∧ 0x80000000 ≤ virtStart ∧ virtStart ≤ 0xC0000000 ∧
      (¬ L.Reuses s N → virtStart = s.large.nextVirtAddr) := by
  have hcursor : ∀ {t : State}, RaxzusHeap.takeCursor N s = .ok virtStart t →
      virtStart % 4096 = 0 ∧ 0x80000000 ≤ virtStart ∧ virtStart ≤ 0xC0000000 ∧
      (¬ L.Reuses s N → virtStart = s.large.nextVirtAddr) := fun hr => by
    obtain rfl : s.large.nextVirtAddr = virtStart := by
      injection hr
    exact ⟨hl.aligned, hl.cursor_ge, hl.cursor_le, fun _ => rfl⟩
  unfold Layout.largeTakeSlot at hr
  rw [run_bind_ok (run_get s)] at hr
  by_cases hne : s.large.nextFreeVirt ≠ 0
  · obtain ⟨q, K, t, next, hq, hK, hlive, hnext, -⟩ := hl.head hne
    obtain ⟨hlo, _, hhi⟩ := hl.within q K hK
    have hle := hl.cursor_le
    have hcount := hl.slot q K hK hlive
    have hu : u32 (q * 4096 + 4) = q * 4096 + 4 := u32_of_lt (by omega)
    rw [if_pos hne] at hr
    simp only [hq, hu] at hr
    rw [run_bind_ok (L.load_of_peek hcount)] at hr
    by_cases hNK : N ≤ K
    · rw [if_pos hNK, run_bind_ok (L.load_of_peek hnext), run_bind_ok (modifyLarge_run _ s)] at hr
      obtain ⟨_, s₂, -, hr⟩ := run_bind_eq_ok.mp hr
      cases hr
      refine ⟨by omega, by omega, by omega, fun hnot => absurd ⟨hne, K, ?_, hNK⟩ hnot⟩
      rw [hq]
      exact hcount
    · rw [if_neg hNK] at hr
      exact hcursor hr
  · rw [if_neg hne] at hr
    exact hcursor hr

/-- Under the invariant the mapping loop has mapped exactly the pages of the range. -/
theorem Carved.newPages {q : ℕ} {use₁ use' : ℕ → Use} {ranges₁ : ℕ → Option ℕ} {s₁ : State}
    (h : Carved L use live ranges n q s use' s') (hpages : HeapPages L use s)
    (htook : TookSlot L use live ranges q (largePages n) s use₁ ranges₁ s₁) :
    L.newPages s₁ s' = Set.Ico q (q + largePages n) := by
  ext x
  have hnone : s₁.maps L.dirFrame x = none ↔ ¬ Backed use₁ x := by
    constructor
    · rintro hx ⟨f, hf⟩
      rw [htook.pages.kernelMap f x hf] at hx
      cases hx
    · intro hx
      by_contra hm
      obtain ⟨e, he⟩ := Option.ne_none_iff_exists'.mp hm
      obtain ⟨f, hf, -⟩ := htook.pages.of_kernelMap he
      exact hx ⟨f, hf⟩
  have hsome : s'.maps L.dirFrame x ≠ none ↔ Backed use' x := by
    constructor
    · intro hm
      obtain ⟨e, he⟩ := Option.ne_none_iff_exists'.mp hm
      obtain ⟨f, hf, -⟩ := h.pages.of_kernelMap he
      exact ⟨f, hf⟩
    · rintro ⟨f, hf⟩
      rw [h.pages.kernelMap f x hf]
      exact Option.some_ne_none _
  show s₁.maps L.dirFrame x = none ∧ s'.maps L.dirFrame x ≠ none ↔ q ≤ x ∧ x < q + largePages n
  rw [hnone, hsome, h.backed, ← htook.backed hpages]
  constructor
  · rintro ⟨hnot, hb | hin⟩
    · exact absurd hb hnot
    · exact hin
  · exact fun hin => ⟨htook.hole.unbacked x hin.1 hin.2, Or.inr hin⟩

end Pointer

/-- In a sound heap, an allocation of more than 4096 bytes that returns a pointer covers the
bytes asked for exactly if the page count does not wrap and a range taken from the cursor ends
inside the address space.  Left out are ranges that end between the direct map's start and the
end of the address space, and calls that leave fewer than three clear frames below 1.25 GB. -/
theorem kmalloc_covers_iff {L : Layout} {use : ℕ → Use} {live ranges : ℕ → Option ℕ}
    {s s' : State} {size p : ℕ} (h : HeapInv L use live ranges s) (hsize : 4096 < size)
    (hr : L.kmalloc size s = .ok p s') (hp : p ≠ 0) (hroom : Room s'.allocated 3 0x50000)
    (hrange : ¬ L.Reuses s (largePages size) →
      s.large.nextVirtAddr + largePages size * 4096 ≤ 0xC0000000 ∨
        2 ^ 32 < s.large.nextVirtAddr + largePages size * 4096) :
    Covers L size p s s' ↔ size + 4099 < 2 ^ 32 ∧ (¬ L.Reuses s (largePages size) →
      s.large.nextVirtAddr + largePages size * 4096 ≤ 2 ^ 32) := by
  rw [L.kmalloc_large (classOf_eq_none.mpr hsize)] at hr
  obtain ⟨virtStart, s₁, htake, hpointer⟩ := L.kmallocLarge_pointer (by omega) hr hp
  obtain ⟨hmod, hge, hle, hcursor⟩ := h.large.takeSlot_start htake
  rw [u32_of_lt (by omega)] at hpointer
  subst hpointer
  constructor
  · intro hcovers
    have hend := hcovers.nowrap.2
    refine ⟨by omega, fun hnot => ?_⟩
    rw [← hcursor hnot, largePages_eq (by omega)]
    omega
  · rintro ⟨hwrap, hfits⟩
    have hN := largePages_pos hwrap
    have hcount := largePages_size hwrap
    have hfit : ¬ L.Reuses s (largePages size) →
        s.large.nextVirtAddr + largePages size * 4096 ≤ 0xC0000000 := fun hnot =>
      (hrange hnot).resolve_right (Nat.not_lt.mpr (hfits hnot))
    obtain ⟨q, use₁, ranges₁, s₁', htake', htook⟩ := h.large.takeSlot h.pages hN hfit
    rw [htake] at htake'
    injection htake' with hq hs
    subst hs
    obtain ⟨q', use', hq', hc, -⟩ := (h.largeAlloc le_rfl (by omega) hN hfit
      (fun t => Room t.allocated 3 0x50000) (fun _ _ hsub ht => Room.of_less ht hsub)
      (fun _ _ _ _ ht => ht)).ok hr hroom
    obtain rfl : q' = q := by omega
    have hnew := hc.newPages h.pages htook
    obtain ⟨-, N, hrangeN, -, hheader⟩ := hc.inv.header (q' * 4096 + 4) size
      (Function.update_self ..) (by have := hc.lo; omega)
    have hdiv : (q' * 4096 + 4) / 4096 = q' := by omega
    rw [hdiv, Function.update_self] at hrangeN
    rw [hdiv, ← Option.some.inj hrangeN] at hheader
    obtain ⟨-, -, hend⟩ := hc.inv.within q' _ (Function.update_self ..)
    have hlast := hc.inv.cursor_le
    refine ⟨⟨by omega, by omega⟩, virtStart, s₁, htake, fun x h1 h2 => ⟨?_, ?_⟩, ?_⟩
    · rw [hnew]
      exact ⟨by omega, by omega⟩
    · obtain ⟨v, -, hpeek, -⟩ := hc.pages.load ((hc.backed (x / 4096)).mpr (Or.inr (by omega)))
      rw [hpeek]
      rfl
    · rw [hnew, ← Finset.coe_Ico, Set.ncard_coe_finset, Nat.card_Ico, Nat.add_sub_cancel_left,
        show virtStart + 4 - 4 = q' * 4096 by omega]
      exact hheader

/-- A request of `2 ^ 32 - 1` bytes after booting gets one page. -/
theorem kmalloc_wraps :
    ∃ s s', Layout.lowest.boot (State.powerOn fun _ _ => 0) = .ok () s ∧
      Layout.lowest.kmalloc 0xFFFFFFFF s = .ok 0x80000004 s' ∧
      s'.peek Layout.lowest.dirFrame 0x80000000 = some 1 ∧
      ¬ Covers Layout.lowest 0xFFFFFFFF 0x80000004 s s' := by
  obtain ⟨use, m, s, hboot, hb⟩ := Layout.lowest.boot_spec fun _ _ => 0
  have hone : largePages 0xFFFFFFFF = 1 := by decide
  obtain ⟨q, use', s', hr, hc, -, -⟩ := hb.largeHeap.kmallocLarge_run (n := 0xFFFFFFFF) (k := 97)
    (by norm_num) hone.ge (fun _ => by rw [hone]; exact hb.fits (by norm_num))
    (by rw [hone]; exact hb.roomBelow.anti 200000 _ s (by norm_num))
  have hq : q = 0x80000 := by
    have hcur := hb.largeCursor
    have hcursor := hc.cursor
    have hin := hc.inv.within q _ (Function.update_self ..)
    unfold LARGE_VIRT_BASE at hcur
    rw [hone] at hcursor hin
    omega
  subst hq
  obtain ⟨-, N, hN, -, hheader⟩ := hc.inv.header _ _ (Function.update_self ..) (by norm_num)
  rw [show (0x80000 * 4096 + 4) / 4096 = 0x80000 from rfl, Function.update_self, hone] at hN
  rw [← Option.some.inj hN] at hheader
  refine ⟨s, s', hboot, ?_, hheader, fun h => ?_⟩
  · rw [Layout.lowest.kmalloc_large (classOf_eq_none.mpr (by norm_num))]
    exact hr
  · have := h.nowrap.2
    norm_num at this

/-- Two pages after booting. -/
theorem kmalloc_covers_iff_two_pages :
    ∃ s s', Layout.lowest.boot (State.powerOn fun _ _ => 0) = .ok () s ∧
      Layout.lowest.kmalloc 8188 s = .ok 0x80000004 s' ∧ Covers Layout.lowest 8188 0x80000004 s s' := by
  obtain ⟨use, m, s, hboot, hb⟩ := Layout.lowest.boot_spec fun _ _ => 0
  obtain ⟨use', s', hr, -, -, hroom, -⟩ := hb.first_large
  have hfit : s.large.nextVirtAddr + largePages 8188 * 4096 ≤ 0xC0000000 := by
    rw [largePages_8188]
    exact hb.fits (by norm_num)
  have hk : Layout.lowest.kmalloc 8188 s = .ok 0x80000004 s' := by
    rw [Layout.lowest.kmalloc_large (classOf_eq_none.mpr (by norm_num))]
    exact hr
  exact ⟨s, s', hboot, hk, (kmalloc_covers_iff hb.heap (by norm_num) hk (by norm_num)
    (Room.mono hroom (by norm_num) (by norm_num)) fun _ => Or.inl hfit).mpr
    ⟨by norm_num, fun _ => hfit.trans (by norm_num)⟩⟩

end RaxzusHeap
