import RaxzusHeap.FailedCalls
import RaxzusHeap.LargeSpace

/-! # The window of the large domain

`kmalloc_large` moves its cursor without looking at the end of its window.  In runs whose
requests fit (`InWindow`) the cursor, the pages of the domain and the kernel's direct map stay
where they belong (`large_window_kept`); a request of 1 GB moves the cursor past the end
(`window_passed`). -/

namespace RaxzusHeap

open Imperative FirstFit

/-- The call asks the large domain for at least one page, and for pages that fit into the rest
of the window unless the slot on top of the LIFO serves it; it does not run out of its region
or of frames below 1.25 GB. -/
structure InWindow (L : Layout) (c : HeapCall) : Prop where
  pages : ∀ n, c.op.large = some n → n ≠ 0 → 1 ≤ largePages n
  window : ∀ n, c.op.large = some n → n ≠ 0 → ¬ L.Reuses c.before (largePages n) →
    c.before.large.nextVirtAddr + largePages n * 4096 ≤ 0xC0000000
  region : ∀ d n, c.op.small = some (d, n) → (c.before.domains d).nextFreeBlock = 0 →
    (c.before.domains d).nextVirtAddr < d.virtBase + 0x10000000
  room : Room c.after.allocated 3 0x50000
  write : ∀ p k b n, c.op = .write p k b → c.live p = some n → n + 4099 < 2 ^ 32

section Runs

variable {L : Layout} {live : ℕ → Option ℕ} {s : State}

theorem HeapRun.inWindow (run : HeapRun L (InWindow L) live s) :
    (∃ use ranges, HeapInv L use live ranges s) ∧ Room s.allocated 3 0x50000 := by
  apply run.invariant (I := fun live s => (∃ use ranges, HeapInv L use live ranges s) ∧
    Room s.allocated 3 0x50000)
  · intro use m t hb
    exact ⟨⟨use, noLive, hb.heap⟩, hb.bounded.low.room⟩
  · rintro c ⟨⟨use, ranges, h⟩, hroom⟩ hlegal hr hG
    obtain ⟨use', ranges', h', _⟩ := h.call hlegal hr
      (fun d n hop hnil => ⟨hG.region d n hop hnil, hroom⟩)
      (fun n hop hn => ⟨hG.pages n hop hn, hG.window n hop hn, fun t => Room t.allocated 3 0x50000,
        fun _ _ hsub ht => Room.of_less ht hsub, fun _ _ _ _ ht => ht, hG.room⟩)
      (fun p n hp ⟨k, b, hop⟩ => hG.write p k b n hop hp)
    exact ⟨⟨use', ranges', h'⟩, hG.room⟩

/-- While every request fits: the cursor stays in the window, so do all pages in the directory
of the large domain, the kernel directory has none of its pages from `KERNEL_BASE` on, and the
direct map is intact. -/
theorem large_window_kept (run : HeapRun L (InWindow L) live s) :
    0x80000000 ≤ s.large.nextVirtAddr ∧ s.large.nextVirtAddr ≤ 0xC0000000 ∧
      (∀ p e, s.maps ((s.large.pageDirectory - KERNEL_BASE) / 4096) p = some e →
        0x80000 ≤ p ∧ p < 0xC0000) ∧
      (∀ p e, s.maps L.dirFrame p = some e → p < 0xC0000) ∧ L.DirectMap s := by
  obtain ⟨⟨use, ranges, h⟩, _⟩ := run.inWindow
  refine ⟨h.large.cursor_ge, h.large.cursor_le, fun p e hm => ?_,
    fun p e hm => (h.pages.inv.pte _ p e hm).1, h.pages.inv.direct⟩
  obtain ⟨D, hD⟩ := h.large.home
  have hdir : (s.large.pageDirectory - KERNEL_BASE) / 4096 = D := by
    have haddr : s.large.pageDirectory = KERNEL_BASE + D * 4096 :=
      h.pages.dirs .large D hD (by simp)
    rw [haddr, Nat.add_sub_cancel_left, Nat.mul_div_cancel D (by norm_num)]
  rw [hdir] at hm
  rcases h.pages.inv.backed D p e hm with hu | hu
  · obtain ⟨_, hlt⟩ := h.pages.region _ p hu
    refine ⟨?_, hlt⟩
    by_contra hlow
    rcases h.pages.owner D p e hm hu with hK | hhome
    · have hkernel := h.pages.inv.use_dirFrame
      rw [← hK, hD] at hkernel
      cases hkernel
    · rw [hD] at hhome
      have hhome := Use.dir.inj hhome
      unfold homeOf at hhome
      split_ifs at hhome
      omega
  · have := h.pages.priv _ D p hu
    rw [hD] at this
    cases this

end Runs

/-- One request of 1 GB, right after booting. -/
theorem window_passed :
    ∃ s, Layout.lowest.boot (State.powerOn fun _ _ => 0) = .ok () s ∧
      (final (Layout.lowest.kmalloc 0x40000000 s)).large.nextVirtAddr = 0xC0001000 := by
  obtain ⟨use, m, s, hboot, hb⟩ := Layout.lowest.boot_spec fun _ _ => 0
  refine ⟨s, hboot, ?_⟩
  obtain ⟨t, ht, hcursor⟩ : ∃ t, Layout.lowest.largeTakeSlot 0x40001 s = .ok 0x80000000 t ∧
      t.large.nextVirtAddr = 0xC0001000 := by
    unfold Layout.largeTakeSlot takeCursor
    rw [run_bind_ok (run_get _)]
    rw [if_neg (by rw [not_not]; exact hb.largeHead), run_bind_ok (run_get _),
      run_bind_ok (modifyLarge_run _ _)]
    refine ⟨_, congrArg (EStateM.Result.ok · _) hb.largeCursor, ?_⟩
    change u32 (s.large.nextVirtAddr + u32 (0x40001 * 4096)) = _
    rw [hb.largeCursor]
    decide
  have hpages : largePages 0x40000000 = 0x40001 := by decide
  rw [Layout.lowest.kmalloc_large (by decide)]
  unfold Layout.kmallocLarge
  rw [if_neg (by decide), hpages, run_bind_ok ht, ← hcursor]
  -- the rest of the call leaves the record of the domain alone
  have hst := (lasting_large t.large).toStable
  refine congrArg LargeDomain.nextVirtAddr ?_
  refine Keeps.bind (hst.largeMapLoop _ _ _ _) (fun mapped => ?_) t rfl
  split_ifs
  · exact (hst.store _ _ _).bind fun _ => Keeps.pure _ _
  · exact Keeps.pure _ _

/-- Two pages right after booting. -/
theorem large_window_kept_first :
    ∃ s s₁, Layout.lowest.boot (State.powerOn fun _ _ => 0) = .ok () s ∧
      Layout.lowest.kmallocLarge 8188 s = .ok 0x80000004 s₁ ∧
      s₁.large.nextVirtAddr ≤ 0xC0000000 ∧ Layout.lowest.DirectMap s₁ := by
  obtain ⟨use, m, s, hboot, hb⟩ := Layout.lowest.boot_spec fun _ _ => 0
  obtain ⟨use₁, s₁, hr, h₁, -, hroom, -⟩ := hb.first_large
  have run : HeapRun Layout.lowest (InWindow Layout.lowest)
      (liveAfter noLive (.kmallocLarge 8188) (0x80000 * 4096 + 4)) s₁ := by
    apply (HeapRun.boot hboot).call (show Legal noLive (.kmallocLarge 8188) from trivial) hr
    refine ⟨fun n hn _ => ?_, fun n hn _ _ => ?_, fun d n hop => (by cases hop), ?_,
      fun p k b n hop => (by cases hop)⟩
    · cases hn
      decide
    · cases hn
      rw [largePages_8188]
      exact hb.fits (by norm_num)
    · exact Room.mono hroom (by norm_num) (by norm_num)
  obtain ⟨-, hle, -, -, hdirect⟩ := large_window_kept run
  exact ⟨s, s₁, hboot, hr, hle, hdirect⟩

end RaxzusHeap
