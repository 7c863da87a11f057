import RaxzusHeap.Limits
import RaxzusHeap.Budget

/-! # Calls that go through

A heap is `Stocked` when every size class and the window have pages left and enough frames below
1 GB are clear.  Each legal call then succeeds within the limits, and uses up no more than one
page of a class, the pages of its range and the frames behind them (`Stocked.call`). -/

namespace RaxzusHeap

open Imperative FirstFit

/-! ### Frames -/

/-- The frames of the image are in use, none from 1 GB on is, and `n` below are clear. -/
structure Ample (L : Layout) (n : ℕ) (s : State) : Prop where
  image : L.ImageMarked s
  low : s.FramesLow
  room : RoomBelow 0x40000 n s

namespace Ample

variable {L : Layout} {n : ℕ} {s s' : State}

theorem anti (h : Ample L n s) {k : ℕ} (hk : k ≤ n) : Ample L k s :=
  ⟨h.image, h.low, h.room.anti n k s hk⟩

theorem of_clear (h : Ample L n s) (himg : L.ImageMarked s')
    (hclear : ∀ g < 0x100000, s.allocated g = false → s'.allocated g = false) : Ample L n s' where
  image := himg
  low f h1 h2 := hclear f h2 (h.low f h1 h2)
  room := Room.of_free h.room fun g hg => hclear g (by omega)

theorem congr (h : Ample L n s) (ha : ∀ g, s'.allocated g = s.allocated g) : Ample L n s' := by
  apply h.of_clear
  · intro f hf
    rw [ha f, h.image f hf]
  · intro g _ hg
    rw [ha g, hg]

theorem take {f : ℕ} (h : Ample L (n + 1) s) (hf : s.FirstFree f) :
    f < 0x40000 ∧ Ample L n (s.take f) := by
  have hlt : f < 0x40000 := h.room.first_lt hf
  refine ⟨hlt, fun g hg => ?_, fun g h1 h2 => ?_, Room.take h.room (s.allocated_take f)⟩
  · rw [s.allocated_take, h.image g hg, Bool.true_or]
  · rw [s.allocated_take, h.low g h1 h2, Bool.false_or, decide_eq_false_iff_not]
    omega

end Ample

theorem frameCount_ample (L : Layout) : FrameCount L (Ample L) where
  anti _ _ _ hle h := h.anti hle
  congr _ _ _ ha _ _ h := h.congr ha
  kernelFrame n s h := by
    obtain ⟨f, -, hf⟩ := h.room.exists_first
    obtain ⟨hlt, htake⟩ := h.take hf
    rw [L.kernelFrame_eq h.image hf (by omega), takeFrame_low (by omega)]
    exact htake
  processFrame n s h := by
    obtain ⟨f, -, hf⟩ := h.room.exists_first
    obtain ⟨hlt, htake⟩ := h.take hf
    rw [L.processFrame_eq h.image hf (by omega), takeFrame_low (by omega)]
    exact htake

/-! ### Cursors -/

/-- The pages of the window that a call asks for. -/
def HeapOp.pages (op : HeapOp) : ℕ := (op.large.map largePages).getD 0

section Effect

variable {L : Layout} {use use' : ℕ → Use} {live ranges ranges' : ℕ → Option ℕ} {s s' : State}
  {op : HeapOp} {a : ℕ}

/-- A call adds at most one page to a class. -/
theorem Effect.cursor_le (he : Effect L use live ranges s op a use' ranges' s') (d : SizeClass) :
    (s'.domains d).nextVirtAddr ≤ (s.domains d).nextVirtAddr + 4096 := by
  cases he with
  | @popped _ e n _ _ _ hop ha hpop =>
      by_cases hed : d = e
      · subst hed
        cases hpop.growth with
        | inl hfast =>
            have := hfast.2.2.2.2.2
            omega
        | inr hslow =>
            obtain ⟨-, s₁, hx, -, -, -, hcur⟩ := hslow
            rw [hcur, hx.cursor]
      · rw [hpop.others.domains d hed]
        omega
  | @pushed _ p _ e hop hlive h1 h2 others cursor =>
      by_cases hed : d = e
      · subst hed
        omega
      · rw [others.domains d hed]
        omega
  | carved _ hc =>
      rw [hc.vars.domains]
      omega
  | returned _ _ hret =>
      rw [hret.vars.domains]
      omega
  | wrote _ _ _ _ hst =>
      rw [hst.vars.domains]
      omega
  | refused => omega

theorem Effect.window_le (he : Effect L use live ranges s op a use' ranges' s') :
    s'.large.nextVirtAddr ≤ s.large.nextVirtAddr + op.pages * 4096 := by
  cases he with
  | popped _ _ hpop =>
      rw [hpop.others.large]
      omega
  | pushed _ _ _ _ others =>
      rw [others.large]
      omega
  | @carved _ n q _ _ hop hc =>
      have hcur := hc.cursor
      simp only [HeapOp.pages, hop, Option.map_some, Option.getD_some]
      omega
  | returned _ _ hret =>
      rw [hret.cursor]
      omega
  | wrote _ _ _ _ hst =>
      rw [hst.vars.large]
      omega
  | refused => omega

end Effect

/-! ### Progress -/

/-- Each class has `c` more pages in its region, the window has `w`, and `k` frames below 1 GB
are clear. -/
structure Stocked (L : Layout) (c w k : ℕ) (live : ℕ → Option ℕ) (s : State) : Prop where
  heap : BoundedHeap L live s
  frames : Ample L k s
  region : ∀ d : SizeClass, (s.domains d).nextVirtAddr + c * 4096 ≤ d.virtBase + 0x10000000
  window : s.large.nextVirtAddr + w * 4096 ≤ 0xC0000000

theorem Booted.stocked {L : Layout} {use : ℕ → Use} {m : ℕ} {s : State} (h : Booted L use m s) :
    Stocked L 65280 0x40000 200000 noLive s where
  heap := h.bounded
  frames := ⟨h.heap.pages.inv.image, h.bounded.low, h.used.room (by norm_num)
    (by have := h.few; omega)⟩
  region d := by
    have hcur := h.cursor d
    omega
  window := by
    have hcur := h.largeCursor
    unfold LARGE_VIRT_BASE at hcur
    omega

namespace HeapInv

variable {L : Layout} {use : ℕ → Use} {live ranges : ℕ → Option ℕ} {s : State} {k : ℕ}

theorem small_ok (h : HeapInv L use live ranges s) {d : SizeClass} (hs : Ample L (k + 3) s)
    (hregion : (s.domains d).nextVirtAddr < d.virtBase + 0x10000000) :
    ∃ a s', L.heapDomainAlloc d s = .ok a s' ∧ Ample L k s' := by
  have hroom : Room s.allocated 3 0x40000 := hs.room.anti (k + 3) 3 s (Nat.le_add_left 3 k)
  have halloc := h.domainAlloc d (n := 0) (Nat.zero_le _) (m := 0x40000) (by norm_num)
    fun _ => ⟨hregion, hroom⟩
  have hcosts := ((frameCount_ample L).heapDomainAlloc d).ends hs
  obtain ⟨a, s', hr, -, hleft⟩ := ((halloc.and hcosts).mono (fun _ _ hq => hq)
    fun t hE => lt_irrefl _ hE.1.1).exists_ok
  exact ⟨a, s', hr, hleft⟩

theorem large_ok (h : HeapInv L use live ranges s) {n : ℕ} (hn : n + 4099 < 2 ^ 32)
    (hs : Ample L (3 + k + largePages n * 3) s)
    (hwindow : s.large.nextVirtAddr + largePages n * 4096 ≤ 0xC0000000) :
    ∃ a s', L.kmallocLarge n s = .ok a s' ∧ Ample L (3 + k) s' := by
  by_cases hn0 : n = 0
  · subst hn0
    exact ⟨0, s, rfl, hs.anti (Nat.le_add_right _ _)⟩
  have halloc := h.largeAlloc (m := 0x40000) (by norm_num) hn0 (largePages_pos hn)
    (fun _ => hwindow) (RoomBelow 0x40000 3) (fun _ _ hsub ht => Room.of_less ht hsub) (fun _ _ _ _ ht => ht)
  have hcosts := h.large.costs h.pages (frameCount_ample L) (k := 3 + k) hn0 (largePages_pos hn)
    (fun _ => hwindow) fun _ _ _ _ htook =>
      hs.of_clear htook.pages.inv.image fun g _ => htook.clear g
  obtain ⟨a, s', hr, -, hleft⟩ := ((halloc.and hcosts).mono (fun _ _ hq => hq) fun t hE =>
    lt_irrefl _ (hE.1 (hE.2.room.anti (3 + k) 3 t (Nat.le_add_right 3 k))).1).exists_ok
  exact ⟨a, s', hr, hleft⟩

theorem free_ok (h : HeapInv L use live ranges s) {p n : ℕ} (hp : live p = some n)
    (hs : Ample L k s) : ∃ s', L.kfreeHeap p s = .ok () s' ∧ Ample L k s' := by
  rcases window_cases (h.heap p n hp) with hge | ⟨d, h1, h2⟩
  · obtain ⟨q, N, use', s', rfl, hr, hret, h'⟩ := h.largeFree hp hge
    refine ⟨s', by rw [L.kfreeHeap_large hge, hr],
      hs.of_clear h'.pages.inv.image fun g hlt hg => ?_⟩
    have hfree := h.pages.inv.use_of_clear hlt hg
    apply h'.pages.inv.clear_of_free hlt
    rw [hret.kept g (fun x hx => by rw [hfree] at hx; cases hx), hfree]
  · obtain ⟨s', hr, -, -, -, -, halloc, -⟩ := h.domainFree hp h1 h2
    exact ⟨s', by rw [L.kfreeHeap_small h1 h2, hr], hs.congr halloc⟩

end HeapInv

namespace Stocked

variable {L : Layout} {c w k : ℕ} {live : ℕ → Option ℕ} {s : State} {op : HeapOp}

theorem mono (h : Stocked L c w k live s) {i j l : ℕ} (hc : i ≤ c) (hw : j ≤ w)
    (hk : l ≤ k) : Stocked L i j l live s where
  heap := h.heap
  frames := h.frames.anti hk
  region d := le_trans (Nat.add_le_add_left (Nat.mul_le_mul_right _ hc) _) (h.region d)
  window := le_trans (Nat.add_le_add_left (Nat.mul_le_mul_right _ hw) _) h.window

theorem same (h : Stocked L c w k live s) {s' : State}
    (heap : ∃ use ranges, HeapInv L use live ranges s')
    (alloc : ∀ g, s'.allocated g = s.allocated g)
    (vars : SameVars s s') : Stocked L c w k live s' where
  heap := ⟨heap, fun f h1 h2 => by rw [alloc f]; exact h.heap.low f h1 h2, h.heap.fit⟩
  frames := h.frames.congr alloc
  region d := by
    rw [vars.domains]
    exact h.region d
  window := by
    rw [vars.large]
    exact h.window

theorem window_fits (h : Stocked L c (w + op.pages) k live s) {n : ℕ} (hn : op.large = some n) :
    s.large.nextVirtAddr + largePages n * 4096 ≤ 0xC0000000 := by
  have hpages : op.pages = largePages n := by simp [HeapOp.pages, hn]
  rw [← hpages]
  exact le_trans (Nat.add_le_add_left (Nat.mul_le_mul_right _ (Nat.le_add_left _ _)) _) h.window

/-- A legal call succeeds. -/
theorem run (h : Stocked L (c + 1) (w + op.pages) (k + 3 + op.pages * 3) live s)
    (hlegal : Legal live op) (hsize : ∀ n, op.large = some n → n + 4099 < 2 ^ 32) :
    ∃ a s', L.heapCall op s = .ok a s' ∧ Ample L k s' := by
  obtain ⟨use, ranges, hh⟩ := h.heap.heap
  have hregion : ∀ d : SizeClass, (s.domains d).nextVirtAddr < d.virtBase + 0x10000000 := by
    intro d
    have := h.region d
    omega
  have hsmall : ∀ d, ∃ a s', L.heapDomainAlloc d s = .ok a s' ∧ Ample L k s' := fun d =>
    hh.small_ok (h.frames.anti (Nat.le_add_right _ _)) (hregion d)
  have hlarge : ∀ n, op.large = some n → ∃ a s', L.kmallocLarge n s = .ok a s' ∧ Ample L k s' := by
    intro n hn
    have hpages : op.pages = largePages n := by simp [HeapOp.pages, hn]
    have hframes := h.frames
    rw [hpages, Nat.add_comm k 3] at hframes
    obtain ⟨a, s', hr, hs⟩ := hh.large_ok (hsize n hn) hframes (h.window_fits hn)
    exact ⟨a, s', hr, hs.anti (Nat.le_add_left _ _)⟩
  have hfree : ∀ p n, live p = some n → ∃ s', L.kfreeHeap p s = .ok () s' ∧ Ample L k s' :=
    fun p n hp => hh.free_ok hp (h.frames.anti (by omega))
  cases op with
  | domainAlloc d => exact hsmall d
  | domainFree d p =>
      obtain ⟨⟨n, hp⟩, h1, h2⟩ := hlegal
      obtain ⟨s', hr, hs⟩ := hfree p n hp
      rw [L.kfreeHeap_small h1 h2] at hr
      exact ⟨0, s', run_bind_ok hr, hs⟩
  | kmallocLarge n => exact hlarge n rfl
  | kfreeLarge p =>
      obtain ⟨⟨n, hp⟩, hge⟩ := hlegal
      obtain ⟨s', hr, hs⟩ := hfree p n hp
      rw [L.kfreeHeap_large hge] at hr
      exact ⟨0, s', run_bind_ok hr, hs⟩
  | kmalloc n =>
      cases hclass : classOf n with
      | some d =>
          rw [Layout.heapCall, L.kmalloc_small hclass]
          exact hsmall d
      | none =>
          rw [Layout.heapCall, L.kmalloc_large hclass]
          exact hlarge n (if_pos hclass)
  | kfree p =>
      obtain ⟨n, hp⟩ := hlegal
      obtain ⟨s', hr, hs⟩ := hfree p n hp
      exact ⟨0, s', run_bind_ok hr, hs⟩
  | write p j b =>
      obtain ⟨n, hp, hj⟩ := hlegal
      obtain ⟨v, t, -, -, hr, -, hst⟩ := hh.write (b := b) hp (h.heap.fit p n hp) hj
      exact ⟨0, t, run_bind_ok hr, (h.frames.anti (by omega)).congr hst.alloc⟩

/-- A legal call succeeds, within the limits, and uses up no more than its share. -/
theorem call (h : Stocked L (c + 1) (w + op.pages) (k + 3 + op.pages * 3) live s)
    (hlegal : Legal live op) (hsize : ∀ n, op.large = some n → n + 4099 < 2 ^ 32) :
    ∃ a s', L.heapCall op s = .ok a s' ∧ WithinLimits L ⟨live, s, op, a, s'⟩ ∧
      (∀ d n, op.small = some (d, n) → a ≠ 0) ∧ Stocked L c w k (liveAfter live op a) s' := by
  obtain ⟨a, s', hr, hs⟩ := h.run hlegal hsize
  have hG : WithinLimits L ⟨live, s, op, a, s'⟩ :=
    { size := hsize
      frames := hs.low
      region := fun d n _ _ => by
        have := h.region d
        dsimp only
        omega
      window := fun n hn _ => h.window_fits hn }
  obtain ⟨use, ranges, hh⟩ := h.heap.heap
  obtain ⟨use', ranges', h', he, hfit⟩ := hh.callWithin h.heap.low h.heap.fit hlegal hr hG
  dsimp only at he
  refine ⟨a, s', hr, hG, fun d n hop => (he.of_small hop).1,
    ⟨⟨⟨use', ranges', h'⟩, hs.low, hfit⟩, hs, fun d => ?_, ?_⟩⟩
  · have hcur := he.cursor_le d
    have := h.region d
    omega
  · have hcur := he.window_le
    have := h.window
    omega

theorem kmalloc_small (h : Stocked L (c + 1) w (k + 3) live s) {d : SizeClass} {n : ℕ}
    (hclass : classOf n = some d) :
    ∃ a s', L.kmalloc n s = .ok a s' ∧ WithinLimits L ⟨live, s, .kmalloc n, a, s'⟩ ∧
      liveAfter live (.kmalloc n) a = Function.update live a (some n) ∧
      Stocked L c w k (liveAfter live (.kmalloc n) a) s' := by
  have hop : (HeapOp.kmalloc n).small = some (d, n) := by simp [HeapOp.small, hclass]
  have hlarge := HeapOp.large_of_small hop
  have hpages : (HeapOp.kmalloc n).pages = 0 := by simp [HeapOp.pages, hlarge]
  obtain ⟨a, s', hr, hG, ha, h'⟩ := call (by simpa [hpages] using h)
    (show Legal live (.kmalloc n) from trivial) fun m hm => by rw [hlarge] at hm; cases hm
  exact ⟨a, s', hr, hG, liveAfter_small hop (ha d n hop), h'⟩

theorem kmalloc_large {n N : ℕ} (h : Stocked L (c + 1) (w + N) (k + 3 + N * 3) live s)
    (hN : largePages n = N) (hclass : classOf n = none) (hn : n + 4099 < 2 ^ 32) :
    ∃ a s', L.kmalloc n s = .ok a s' ∧ WithinLimits L ⟨live, s, .kmalloc n, a, s'⟩ ∧
      Stocked L c w k (liveAfter live (.kmalloc n) a) s' := by
  have hlarge : (HeapOp.kmalloc n).large = some n := if_pos hclass
  have hpages : (HeapOp.kmalloc n).pages = N := by simp [HeapOp.pages, hlarge, hN]
  obtain ⟨a, s', hr, hG, -, h'⟩ := call (by rwa [hpages])
    (show Legal live (.kmalloc n) from trivial) fun m hm => by
      rw [hlarge] at hm
      cases hm
      exact hn
  exact ⟨a, s', hr, hG, h'⟩

theorem kfree (h : Stocked L (c + 1) w (k + 3) live s) {p : ℕ} (hp : live p ≠ none) :
    ∃ s', L.kfreeHeap p s = .ok () s' ∧ L.heapCall (.kfree p) s = .ok 0 s' ∧
      WithinLimits L ⟨live, s, .kfree p, 0, s'⟩ ∧
      Stocked L c w k (liveAfter live (.kfree p) 0) s' := by
  have hlegal : Legal live (.kfree p) := Option.ne_none_iff_exists'.mp hp
  obtain ⟨a, s', hr, hG, -, h'⟩ := call (by exact h) hlegal fun m hm => by cases hm
  obtain ⟨⟨⟩, t, hrun, hret⟩ := run_bind_eq_ok.mp hr
  cases hret
  exact ⟨s', hrun, hr, hG, h'⟩

end Stocked

theorem liveAfter_live {live : ℕ → Option ℕ} {op : HeapOp} {p a : ℕ} (hp : live p ≠ none)
    (hop : op.freed = none) : liveAfter live op a p ≠ none := by
  have hupdate : ∀ n, Function.update live a (some n) p ≠ none := by
    intro n
    by_cases hpa : p = a
    · rw [hpa, Function.update_self]
      exact Option.some_ne_none n
    · rwa [Function.update_of_ne hpa]
  cases op with
  | domainAlloc | kmallocLarge | kmalloc =>
      unfold liveAfter
      split_ifs
      · exact hp
      · exact hupdate _
  | write => exact hp
  | domainFree | kfreeLarge | kfree => cases hop

end RaxzusHeap
