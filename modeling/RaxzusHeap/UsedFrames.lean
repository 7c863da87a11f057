import RaxzusHeap.ProcessRuns
import RaxzusHeap.LargeFrames

/-! # The counter of used frames

`used_frames` goes up by one with every frame a search hands out and never down.  It is the
number of set bits as long as every search marks the frame it hands out (`Counts`), that is
below 2 GB, and no bit is cleared again; `CountRun` is a run of the kernel's allocators from
`init_pmm`, and `used_frames_counted` says which runs keep the counter right.

Freeing a range of several pages, or taking a freed range again, clears bits and leaves the
counter behind (`used_frames_left_behind`). -/

namespace RaxzusHeap

open Imperative FirstFit

/-- The number of set bits of the bitmap. -/
def State.markedFrames (s : State) : ℕ :=
  ((Finset.range 0x100000).filter fun f => s.allocated f = true).card

theorem State.markedFrames_congr {s s' : State} (h : ∀ g, s'.allocated g = s.allocated g) :
    s'.markedFrames = s.markedFrames := by
  unfold State.markedFrames
  simp only [h]

theorem State.markedFrames_le (s : State) : s.markedFrames ≤ 0x100000 := by
  have := Finset.card_filter_le (Finset.range 0x100000) fun f => s.allocated f = true
  rwa [Finset.card_range] at this

theorem State.markedFrames_take {s : State} {f : ℕ} (hf : f < 0x100000)
    (hclear : s.allocated f = false) : (s.take f).markedFrames = s.markedFrames + 1 := by
  have hset : (Finset.range 0x100000).filter (fun g => (s.take f).allocated g = true) =
      insert f ((Finset.range 0x100000).filter fun g => s.allocated g = true) := by
    ext g
    simp only [Finset.mem_filter, Finset.mem_range, Finset.mem_insert, State.allocated_take,
      Bool.or_eq_true, decide_eq_true_eq]
    constructor
    · rintro ⟨hg, h | h⟩
      · exact .inr ⟨hg, h⟩
      · exact .inl h
    · rintro (rfl | ⟨hg, h⟩)
      · exact ⟨hf, .inr rfl⟩
      · exact ⟨hg, .inl h⟩
  unfold State.markedFrames
  rw [hset, Finset.card_insert_of_notMem (by simp [hclear])]

theorem State.markedFrames_lt {s : State} {f : ℕ} (hf : f < 0x100000)
    (hclear : s.allocated f = false) : s.markedFrames < 0x100000 := by
  have := (s.take f).markedFrames_le
  rw [s.markedFrames_take hf hclear] at this
  omega

/-- The image is marked, and the counter is right while a frame below 2 GB is clear. -/
structure Counts (L : Layout) (s : State) : Prop where
  image : L.ImageMarked s
  used : (∃ f < 0x80000, s.allocated f = false) → s.usedFrames = s.markedFrames

section Searches

variable {L : Layout} {s : State}

theorem Counts.congr {s' : State} (h : Counts L s) (ha : ∀ g, s'.allocated g = s.allocated g)
    (hu : s'.usedFrames = s.usedFrames) : Counts L s' := by
  refine ⟨fun f hf => by rw [ha]; exact h.image f hf, fun ⟨f, hf, hclear⟩ => ?_⟩
  rw [hu, State.markedFrames_congr ha]
  exact h.used ⟨f, hf, by rw [← ha]; exact hclear⟩

theorem Counts.take (h : Counts L s) {f : ℕ} (hfree : s.FirstFree f) :
    Counts L (final (takeFrame f s)) := by
  by_cases hlow : f < 0x80000
  · rw [takeFrame_low hlow]
    refine ⟨fun g hg => ?_, fun _ => ?_⟩
    · rw [final_ok, State.allocated_take, h.image g hg]
      rfl
    · have hused := h.used ⟨f, hlow, hfree.1⟩
      have hlt := s.markedFrames_lt (by omega) hfree.1
      rw [final_ok, s.markedFrames_take (by omega) hfree.1]
      show u32 (s.usedFrames + 1) = _
      rw [hused, u32_of_lt (by omega)]
  · -- from 2 GB on the bitmap stays as it is, with no clear frame below
    obtain ⟨s', hs', hsame⟩ := takeFrame_high (Nat.le_of_not_lt hlow) s
    rw [hs', final_ok]
    refine ⟨fun g hg => by rw [hsame]; exact h.image g hg, fun ⟨g, hg, hclear⟩ => ?_⟩
    rw [hsame, hfree.2 g (by omega)] at hclear
    cases hclear

/-- The searches keep the counter right. -/
theorem frameCount_counts (L : Layout) : FrameCount L fun _ => Counts L where
  anti _ _ _ _ h := h
  congr _ _ _ ha hu _ h := h.congr ha hu
  kernelFrame := by
    intro n s h
    cases hscan : scan s.allocated 0x100000 with
    | none =>
        rw [L.kernelFrame_full (scan_eq_none.mp hscan)]
        exact h
    | some f =>
        obtain ⟨hlt, hfree⟩ := scan_eq_some.mp hscan
        rw [L.kernelFrame_eq h.image hfree hlt]
        exact h.take hfree
  processFrame := by
    intro n s h
    cases hscan : scan s.allocated 0x100000 with
    | none =>
        rw [processFrame_full (scan_eq_none.mp hscan)]
        exact h
    | some f =>
        obtain ⟨hlt, hfree⟩ := scan_eq_some.mp hscan
        rw [L.processFrame_eq h.image hfree hlt]
        exact h.take hfree

/-- `init_pmm` counts what it marks. -/
theorem Layout.initPmm_counts (L : Layout) {s₀ : State} (h0 : s₀.usedFrames = 0)
    (hr : L.initPmm s₀ = .ok () s) : Counts L s := by
  have hK : L.kernelFrames ≤ 1024 := L.high
  obtain ⟨s', hr', -, hmark⟩ := L.initPmm_spec s₀
  rw [hr] at hr'
  cases hr'
  have hcard : s.markedFrames = L.kernelFrames := by
    have hset : (Finset.range 0x100000).filter (fun f => s.allocated f = true) =
        Finset.range L.kernelFrames := by
      ext f
      simp only [Finset.mem_filter, Finset.mem_range]
      constructor
      · rintro ⟨hf, h⟩
        rw [hmark f hf] at h
        exact of_decide_eq_true h
      · intro hf
        exact ⟨by omega, by rw [hmark f (by omega)]; exact decide_eq_true hf⟩
    unfold State.markedFrames
    rw [hset, Finset.card_range]
  have hused : s.usedFrames = L.kernelFrames := by
    unfold Layout.initPmm at hr
    simp only [L.physEnd] at hr
    obtain ⟨_, s₁, hr₁, hr₂⟩ := run_bind_eq_ok.mp hr
    have h1 := times_of_ok (fun _ t => t.usedFrames = 0) hr₁ h0 fun i t t' _ ht hb => by
      cases hb
      exact ht
    rw [show (L.kernelFrames * 4096 + 4095) / 4096 = L.kernelFrames by omega] at hr₂
    exact times_of_ok (fun i t => t.usedFrames = i) hr₂ h1 fun i t t' hi ht hb => by
      rw [run_bind_ok (setFrame_low (by omega) t)] at hb
      cases hb
      show u32 (t.usedFrames + 1) = i + 1
      rw [ht, u32_of_lt (by omega)]
  refine ⟨fun f hf => ?_, fun _ => hused.trans hcard.symm⟩
  rw [hmark f (by omega)]
  exact decide_eq_true hf

end Searches

/-! ### The allocators -/

namespace FrameCount

variable {L : Layout} {room : ℕ → State → Prop}

theorem premapPage (h : FrameCount L room) (d : SizeClass) : Costs room 3 (L.premapPage d) := by
  have hrest : ∀ phys : ℕ, Costs room 2 (do
      let domain ← getDomain d
      let virt := domain.nextVirtAddr
      L.mapPage domain.pageDirectory virt phys PAGE_KERNEL
      L.mapPage L.kernelPageDir virt phys PAGE_KERNEL
      L.linkBlocks virt domain.blockSize domain.blocksPerPage domain.nextFreeBlock
      RaxzusHeap.modifyDomain d fun r => { r with nextFreeBlock := virt }
      RaxzusHeap.modifyDomain d fun r => { r with nextVirtAddr := u32 (r.nextVirtAddr + 4096) } :
        Kernel Unit) := by
    intro phys
    refine h.seq (.of_keeps fun n => fun s hs => hs) fun domain => ?_
    refine Costs.bind (k := 1) (l := 1) h.anti (h.mapPage _ _ _ _) fun _ => ?_
    refine Costs.bind (k := 1) (l := 0) h.anti (h.mapPage _ _ _ _) fun _ => ?_
    refine h.seq (h.linkBlocks _ _ _ _) fun _ => ?_
    exact h.seq (h.modifyDomain d _) fun _ => h.modifyDomain d _
  unfold Layout.premapPage
  refine Costs.bind (k := 1) (l := 2) h.anti h.processFrame fun phys => ?_
  split_ifs
  · exact h.seq (.of_keeps fun n => Keeps.throw _ _) fun _ => hrest phys
  · exact hrest phys

theorem initHeapDomain (h : FrameCount L room) (d : SizeClass) (blockSize virtBase : ℕ) :
    Costs room (1 + PREMAP_PAGES * 3) (L.initHeapDomain d blockSize virtBase) := by
  have hrest : ∀ physDir : ℕ, Costs room (PREMAP_PAGES * 3) (do
      let pageDirectory := u32 (physDir + 0xC0000000)
      RaxzusHeap.modifyDomain d fun r => { r with pageDirectory := pageDirectory }
      L.clearDirectory pageDirectory
      RaxzusHeap.modifyDomain d fun r =>
        { r with
          blockSize := blockSize
          blocksPerPage := 4096 / blockSize
          nextVirtAddr := virtBase
          nextFreeBlock := 0 }
      times PREMAP_PAGES fun _ => L.premapPage d : Kernel Unit) := by
    intro physDir
    refine h.seq (h.modifyDomain d _) fun _ => ?_
    refine h.seq (h.clearDirectory _) fun _ => ?_
    refine h.seq (h.modifyDomain d _) fun _ => ?_
    exact Costs.iterate h.anti (fun _ _ => h.premapPage d) PREMAP_PAGES ()
  unfold Layout.initHeapDomain
  refine Costs.bind h.anti h.kernelFrame fun physDir => ?_
  split_ifs
  · exact h.seq (.of_keeps fun n => Keeps.throw _ _) fun _ => hrest physDir
  · exact hrest physDir

theorem initLargeDomain (h : FrameCount L room) (hlarge : ∀ f, Costs room 0 (modifyLarge f)) :
    Costs room 1 L.initLargeDomain := by
  have hrest : ∀ physDir : ℕ, Costs room 0 (do
      let pageDirectory := u32 (physDir + 0xC0000000)
      modifyLarge fun r => { r with pageDirectory := pageDirectory }
      L.clearDirectory pageDirectory
      modifyLarge fun r => { r with nextVirtAddr := LARGE_VIRT_BASE }
      modifyLarge fun r => { r with nextFreeVirt := 0 } : Kernel Unit) := by
    intro physDir
    refine h.seq (hlarge _) fun _ => ?_
    refine h.seq (h.clearDirectory _) fun _ => ?_
    exact h.seq (hlarge _) fun _ => hlarge _
  unfold Layout.initLargeDomain
  refine Costs.bind (k := 1) (l := 0) h.anti h.kernelFrame fun physDir => ?_
  split_ifs
  · exact h.seq (.of_keeps fun n => Keeps.throw _ _) fun _ => hrest physDir
  · exact hrest physDir

theorem initAllHeaps (h : FrameCount L room) (hlarge : ∀ f, Costs room 0 (modifyLarge f)) :
    Costs room 5384 L.initAllHeaps := by
  have hd : ∀ d n b, Costs room 769 (L.initHeapDomain d n b) := h.initHeapDomain
  unfold Layout.initAllHeaps
  refine Costs.bind (k := 769) (l := 4615) h.anti (hd _ _ _) fun _ => ?_
  refine Costs.bind (k := 769) (l := 3846) h.anti (hd _ _ _) fun _ => ?_
  refine Costs.bind (k := 769) (l := 3077) h.anti (hd _ _ _) fun _ => ?_
  refine Costs.bind (k := 769) (l := 2308) h.anti (hd _ _ _) fun _ => ?_
  refine Costs.bind (k := 769) (l := 1539) h.anti (hd _ _ _) fun _ => ?_
  refine Costs.bind (k := 769) (l := 770) h.anti (hd _ _ _) fun _ => ?_
  exact Costs.bind (k := 769) (l := 1) h.anti (hd _ _ _) fun _ => h.initLargeDomain hlarge

theorem heapDomainFree (h : FrameCount L room) (d : SizeClass) (p : ℕ) :
    Costs room 0 (L.heapDomainFree d p) := by
  unfold Layout.heapDomainFree
  split_ifs
  · exact Costs.pure _
  · refine h.seq (.of_keeps fun n => fun s hs => hs) fun domain => ?_
    exact h.seq (h.store _ _) fun _ => h.modifyDomain d _

end FrameCount

/-! ### Runs -/

/-- What a client of the allocators calls after `init_pmm`. -/
inductive CountOp where
  | kernelFrame
  | processFrame
  | initAllHeaps
  | kmalloc (size : ℕ)
  | kfree (p : ℕ)
  | createProcess (func : ℕ) (isUser : Bool)

/-- Make the call; its result does not matter here. -/
def Layout.countCall (L : Layout) : CountOp → Kernel Unit
  | .kernelFrame => do
      let _ ← L.getNextFreeKernelFrame
      pure ()
  | .processFrame => do
      let _ ← getNextFreeProcessFrame
      pure ()
  | .initAllHeaps => L.initAllHeaps
  | .kmalloc size => do
      let _ ← L.kmalloc size
      pure ()
  | .kfree p => L.kfreeHeap p
  | .createProcess func isUser => do
      let _ ← L.createProcess func isUser
      pure ()

/-- A call between the state before and the state after it. -/
structure CountCall where
  pre : State
  op : CountOp
  post : State

/-- Runs from `init_pmm` whose calls all meet `G`. -/
inductive CountRun (L : Layout) (G : CountCall → Prop) : State → Prop
  | init {s₀ s : State} : s₀.usedFrames = 0 → L.initPmm s₀ = .ok () s → CountRun L G s
  | call {s s' : State} {op : CountOp} : CountRun L G s → L.countCall op s = .ok () s' →
      G ⟨s, op, s'⟩ → CountRun L G s'

/-- The call unmaps pages and gives their frames back: it frees a large range of several pages,
or it allocates one and finds a freed range on the LIFO that is long enough. -/
def Layout.Releases (L : Layout) (s : State) : CountOp → Prop
  | .kmalloc size => 4096 < size ∧ s.large.nextFreeVirt ≠ 0 ∧
      ∃ freedPages, s.peek L.dirFrame (u32 (s.large.nextFreeVirt + 4)) = some freedPages ∧
        largePages size ≤ freedPages
  | .kfree p => 0x80000000 ≤ p ∧
      ∃ pages, s.peek L.dirFrame (u32Sub p 4) = some pages ∧ 2 ≤ pages
  | _ => False

/-- The call releases no frame, and the frames below 2 GB last. -/
def Layout.CountsRight (L : Layout) (c : CountCall) : Prop :=
  ¬ L.Releases c.pre c.op ∧ ∃ f < 0x80000, c.post.allocated f = false

section Runs

variable {L : Layout} {room : ℕ → State → Prop} {s : State}

/-- Freeing a range of at most one page releases nothing. -/
theorem FrameCount.kfreeLarge (h : FrameCount L room)
    (hlarge : ∀ f, Costs room 0 (modifyLarge f)) (n p : ℕ)
    (hone : ∀ pages, s.peek L.dirFrame (u32Sub p 4) = some pages → pages ≤ 1) (hs : room n s) :
    room n (final (L.kfreeLarge p s)) := by
  unfold Layout.kfreeLarge
  split_ifs
  · exact hs
  · cases hpeek : s.peek L.dirFrame (u32Sub p 4) with
    | none =>
        have hload : L.load (u32Sub p 4) s = .error (.pageFault (u32Sub p 4)) s := by
          unfold Layout.load
          rw [hpeek]
        rw [run_bind_error hload]
        exact hs
    | some pages =>
        have hload : L.load (u32Sub p 4) s = .ok pages s := by
          unfold Layout.load
          rw [hpeek]
        have hzero : pages - 1 = 0 := by
          have := hone pages hpeek
          omega
        rw [run_bind_ok hload, hzero]
        have hrest : Costs room 0 (do
            let s ← get
            L.store (u32Sub p 4) s.large.nextFreeVirt
            L.store (u32 (u32Sub p 4 + 4)) pages
            modifyLarge fun r => { r with nextFreeVirt := u32Sub p 4 } : Kernel Unit) := by
          refine h.seq (.of_keeps fun n => Keeps.get _) fun t => ?_
          refine h.seq (h.store _ _) fun _ => ?_
          exact h.seq (h.store _ _) fun _ => hlarge _
        exact hrest n s hs

end Runs

section Main

variable {L : Layout} {s : State}

/-- A call that releases nothing keeps the counter right. -/
theorem Counts.call (h : Counts L s) {op : CountOp} (hop : ¬ L.Releases s op) :
    Counts L (final (L.countCall op s)) := by
  have hcount := frameCount_counts L
  have hlarge : ∀ f, Costs (fun _ => Counts L) 0 (modifyLarge f) :=
    fun f _ _ hs => hs.congr (fun _ => rfl) rfl
  have hdone : ∀ {x : Kernel ℕ}, Counts L (final (x s)) →
      Counts L (final ((do let _ ← x; pure ()) s : EStateM.Result Stop State Unit)) := by
    intro x hx
    cases hr : x s with
    | ok a t =>
        rw [run_bind_ok hr]
        rw [hr] at hx
        exact hx
    | error e t =>
        rw [run_bind_error hr]
        rw [hr] at hx
        exact hx
  cases op with
  | kernelFrame => exact hdone (hcount.kernelFrame 0 s h)
  | processFrame => exact hdone (hcount.processFrame 0 s h)
  | initAllHeaps => exact hcount.initAllHeaps hlarge 0 s h
  | kmalloc size =>
      refine hdone ?_
      cases hclass : classOf size with
      | some d =>
          rw [L.kmalloc_small hclass]
          exact hcount.heapDomainAlloc d 0 s h
      | none =>
          rw [L.kmalloc_large hclass]
          have hbig := classOf_eq_none.mp hclass
          exact hcount.kmallocLarge hlarge 0 size (fun hreuse => hop ⟨hbig, hreuse⟩) h
  | kfree p =>
      show Counts L (final (L.kfreeHeap p s))
      unfold Layout.kfreeHeap
      have hfree : ∀ d, Counts L (final (L.heapDomainFree d p s)) := fun d =>
        hcount.heapDomainFree d p 0 s h
      split_ifs with _ _ _ _ _ _ _ hge
      · exact hfree _
      · exact hfree _
      · exact hfree _
      · exact hfree _
      · exact hfree _
      · exact hfree _
      · exact hfree _
      · refine hcount.kfreeLarge hlarge 0 p (fun pages hpages => ?_) h
        by_contra hmany
        exact hop ⟨hge, pages, hpages, by omega⟩
      · exact h
  | createProcess func isUser =>
      have hx := hcount.createProcess func isUser 0 s h
      show Counts L (final ((do let _ ← L.createProcess func isUser; pure () : Kernel Unit) s))
      cases hr : L.createProcess func isUser s with
      | ok a t =>
          rw [run_bind_ok hr]
          rw [hr] at hx
          exact hx
      | error e t =>
          rw [run_bind_error hr]
          rw [hr] at hx
          exact hx

theorem CountRun.counts (run : CountRun L L.CountsRight s) :
    Counts L s ∧ ∃ f < 0x80000, s.allocated f = false := by
  induction run with
  | @init s₀ s h0 hr =>
      refine ⟨L.initPmm_counts h0 hr, 1024, by norm_num, ?_⟩
      obtain ⟨s', hr', -, hmark⟩ := L.initPmm_spec s₀
      rw [hr] at hr'
      cases hr'
      have hK : L.kernelFrames ≤ 1024 := L.high
      rw [hmark 1024 (by norm_num)]
      exact decide_eq_false (by omega)
  | @call s s' op _ hr hright ih =>
      have hcounts := ih.1.call hright.1
      rw [hr] at hcounts
      exact ⟨hcounts, hright.2⟩

/-- In every run that releases no frame and does not run out of frames below 2 GB the counter
is the number of set bits. -/
theorem used_frames_counted (run : CountRun L L.CountsRight s) :
    s.usedFrames = s.markedFrames := run.counts.1.used run.counts.2

end Main

/-! ### A range that is freed -/

section Counterexample

variable {L : Layout} {u : ℕ}

theorem keepsUsed_initPaging : Keeps (fun s : State => s.usedFrames = u) L.initPaging := by
  have hstore : ∀ va v, Keeps (fun s : State => s.usedFrames = u) (bootStore va v) := by
    intro va v s hs
    unfold bootStore
    split_ifs
    · exact hs
    · exact hs
  refine Keeps.bind (Keeps.times (fun i => (hstore _ _).bind fun _ => hstore _ _) _) fun _ => ?_
  refine Keeps.bind (Keeps.iterate (fun i carried => ?_) _ _) fun _ => Keeps.pure _ _
  unfold Layout.mapKernelMemoryStep
  dsimp only
  split_ifs
  · exact (hstore _ _).bind fun _ => (Keeps.pure _ _).bind fun _ =>
      (hstore _ _).bind fun _ => Keeps.pure _ _
  · exact (Keeps.pure _ _).bind fun _ => (hstore _ _).bind fun _ => Keeps.pure _ _

theorem keepsUsed_load (va : ℕ) : Keeps (fun s : State => s.usedFrames = u) (L.load va) := by
  intro s hs
  unfold Layout.load
  cases s.peek L.dirFrame va with
  | some v => exact hs
  | none => exact hs

theorem keepsUsed_store (va v : ℕ) : Keeps (fun s : State => s.usedFrames = u) (L.store va v) := by
  intro s hs
  unfold Layout.store
  cases s.walk L.dirFrame va with
  | some e => exact hs
  | none => exact hs

theorem keepsUsed_clearFrame (addr : ℕ) :
    Keeps (fun s : State => s.usedFrames = u) (clearFrame addr) := by
  unfold clearFrame
  split_ifs
  · exact Keeps.pure _ _
  · exact fun s hs => hs

theorem keepsUsed_clearEntry (dir virt : ℕ) (freeFrame : Bool) :
    Keeps (fun s : State => s.usedFrames = u) (L.clearEntry dir virt freeFrame) := by
  have hclear : ∀ a : ℕ, Keeps (fun s : State => s.usedFrames = u) (do
      L.store a 0
      modify (·.uninstall dir virt) : Kernel Unit) := fun a =>
    (keepsUsed_store _ _).bind fun _ => Keeps.modify fun _ hs => hs
  unfold Layout.clearEntry
  refine (keepsUsed_load _).bind fun entry => ?_
  split_ifs
  · exact (keepsUsed_load _).bind fun e => (keepsUsed_clearFrame _).bind fun _ => hclear _
  · exact hclear _
  · exact Keeps.pure _ _

theorem keepsUsed_kfreeLarge (p : ℕ) : Keeps (fun s : State => s.usedFrames = u) (L.kfreeLarge p) := by
  unfold Layout.kfreeLarge
  split_ifs
  · exact Keeps.pure _ _
  · refine (keepsUsed_load _).bind fun pages => ?_
    refine Keeps.bind (Keeps.times (fun i => ?_) _) fun _ => ?_
    · exact (Keeps.get _).bind fun s =>
        (keepsUsed_clearEntry _ _ _).bind fun _ => keepsUsed_clearEntry _ _ _
    · refine (Keeps.get _).bind fun s => ?_
      refine (keepsUsed_store _ _).bind fun _ => (keepsUsed_store _ _).bind fun _ => ?_
      exact Keeps.modify fun _ hs => hs

theorem State.markedFrames_erase {s s' : State} {f : ℕ} (hf : f < 0x100000)
    (hset : s.allocated f = true)
    (h : ∀ g < 0x100000, s'.allocated g = true ↔ s.allocated g = true ∧ g ≠ f) :
    s'.markedFrames + 1 = s.markedFrames := by
  have herase : (Finset.range 0x100000).filter (fun g => s'.allocated g = true) =
      ((Finset.range 0x100000).filter fun g => s.allocated g = true).erase f := by
    ext g
    simp only [Finset.mem_filter, Finset.mem_range, Finset.mem_erase]
    constructor
    · rintro ⟨hg, hset'⟩
      obtain ⟨h1, h2⟩ := (h g hg).mp hset'
      exact ⟨h2, hg, h1⟩
    · rintro ⟨h2, hg, h1⟩
      exact ⟨hg, (h g hg).mpr ⟨h1, h2⟩⟩
  unfold State.markedFrames
  rw [herase]
  exact Finset.card_erase_add_one (by simp [hf, hset])

theorem Booted.counted {use : ℕ → Use} {m : ℕ} {s : State} {mem : ℕ → ℕ → Word}
    (hboot : L.boot (State.powerOn mem) = .ok () s) (hb : Booted L use m s) :
    CountRun L L.CountsRight s := by
  unfold Layout.boot at hboot
  obtain ⟨_, t, hr, hboot⟩ := run_bind_eq_ok.mp hboot
  obtain ⟨_, t', hr', hheaps⟩ := run_bind_eq_ok.mp hboot
  have hzero : t.usedFrames = 0 := keepsUsed_initPaging.ok hr rfl
  have hlow : ∃ f < 0x80000, s.allocated f = false := by
    have := hb.few
    refine ⟨7000, by norm_num, ?_⟩
    rw [hb.used 7000 (by norm_num)]
    exact decide_eq_false (by omega)
  exact .call (.init hzero hr') (show L.countCall .initAllHeaps t' = _ from hheaps) ⟨id, hlow⟩

/-- After booting the counter is right. -/
theorem used_frames_counted_boot :
    ∃ s, Layout.lowest.boot (State.powerOn fun _ _ => 0) = .ok () s ∧
      s.usedFrames = s.markedFrames := by
  obtain ⟨use, m, s, hboot, hb⟩ := Layout.lowest.boot_spec fun _ _ => 0
  exact ⟨s, hboot, used_frames_counted (Booted.counted hboot hb)⟩

/-- Freeing a range of two pages clears a bit and leaves the counter as it is. -/
theorem used_frames_left_behind :
    ∃ s s₁ s₂, Layout.lowest.boot (State.powerOn fun _ _ => 0) = .ok () s ∧
      Layout.lowest.kmalloc 8188 s = .ok 0x80000004 s₁ ∧
      Layout.lowest.kfreeHeap 0x80000004 s₁ = .ok () s₂ ∧
      s₁.usedFrames = s₁.markedFrames ∧ s₂.usedFrames = s₂.markedFrames + 1 := by
  obtain ⟨use, m, s, hboot, hb⟩ := Layout.lowest.boot_spec fun _ _ => 0
  obtain ⟨use₁, s₁, hr₁, h₁, hcur₁, hroom₁, -⟩ := hb.first_large
  obtain ⟨q, N, use₂, s₂, hq, hr₂, hret, h₂, -⟩ := h₁.kfreeLarge_ok (n := 8188)
    (Function.update_self ..)
  obtain rfl : q = 0x80000 := by omega
  obtain rfl : N = 2 := by
    have := hret.range
    rw [Function.update_self] at this
    exact (Option.some.inj this).symm
  have hkmalloc : Layout.lowest.kmalloc 8188 s = .ok 0x80000004 s₁ := by
    rw [Layout.lowest.kmalloc_large (by decide)]
    exact hr₁
  have hcounted : s₁.usedFrames = s₁.markedFrames := by
    have hkept : ¬ Layout.lowest.Releases s (.kmalloc 8188) := fun hrel => hrel.2.1 hb.largeHead
    have hcounts := (Booted.counted hboot hb).counts.1.call hkept
    have hcall : Layout.lowest.countCall (.kmalloc 8188) s = .ok () s₁ := by
      show (do let _ ← Layout.lowest.kmalloc 8188; pure () : Kernel Unit) s = _
      rw [run_bind_ok hkmalloc]
      rfl
    rw [hcall] at hcounts
    obtain ⟨f, hf, hfree⟩ := Room.exists_first hroom₁
    exact hcounts.used ⟨f, by omega, hfree.1⟩
  -- the frame of the second page
  obtain ⟨f, hf⟩ : Backed use₁ 0x80001 := by
    refine (h₁.heap.large.backed _ (by norm_num)).mpr ⟨0x80000, 2, Function.update_self .., by norm_num, ?_⟩
    rw [held_live (Function.update_self ..)]
    norm_num
  have halloc := h₁.heap.pages.inv.alloc
  have halloc' := h₂.heap.pages.inv.alloc
  have hlt := h₁.heap.pages.inv.range f (by rw [hf]; simp)
  have herase : s₂.markedFrames + 1 = s₁.markedFrames := by
    refine State.markedFrames_erase (f := f) (by omega)
      ((halloc f (by omega)).mpr (by rw [hf]; simp)) fun g hg => ?_
    rw [halloc g hg, halloc' g hg]
    by_cases hgf : g = f
    · subst hgf
      rw [hret.freed g _ hf (by norm_num) (by norm_num)]
      simp
    · have hkept : use₂ g = use₁ g := by
        refine hret.kept g fun p hp => ?_
        by_contra hout
        obtain rfl : p = 0x80001 := by omega
        exact hgf (h₁.heap.pages.frame_unique hp hf)
      rw [hkept]
      simp [hgf]
  have hsame : s₂.usedFrames = s₁.usedFrames := (keepsUsed_kfreeLarge _).ok hr₂ rfl
  refine ⟨s, s₁, s₂, hboot, hkmalloc, ?_, hcounted, by omega⟩
  rw [Layout.lowest.kfreeHeap_large (by norm_num)]
  exact hr₂

end Counterexample

end RaxzusHeap
