import RaxzusHeap.Isolation
import RaxzusHeap.SmallRuns
import RaxzusHeap.UsedFrames

/-! # Calls that fail

`kmalloc` returns NULL when the search for a frame comes back empty.  A size class searches
before it changes anything (`heapDomainAlloc_zero`).  The large domain has taken a range by
then and gives nothing back, but no state of the kernel lets it get there: the bits of the
frames from 2 GB on are never set (`KernelRun.unspent`), so the search always finds one
(`processFrame_ne_zero`).

The runs are those of the whole kernel, with calls of any size and with whatever a call leaves
behind once memory or a region is used up.  All that is asked of the state is that 0 is not
among the addresses the heap hands out next (`NullApart`), as it would be for a size class that
has run on through the whole half of the kernel. -/

namespace RaxzusHeap

open Imperative FirstFit Linked

/-- The bitmap, all of memory with its directories, tables and links, and the records of the
domains are what they were. -/
structure NoTrace (s s' : State) : Prop where
  bitmap : s'.bitmap = s.bitmap
  mem : s'.mem = s.mem
  domains : s'.domains = s.domains
  large : s'.large = s.large

theorem NoTrace.refl (s : State) : NoTrace s s := ⟨rfl, rfl, rfl, rfl⟩

/-- Neither the next page of a size class nor the pointer into the slot on top of the LIFO is
NULL. -/
structure NullApart (s : State) : Prop where
  cursors : ∀ d, (s.domains d).nextVirtAddr ≠ 0
  head : u32 (s.large.nextFreeVirt + 4) ≠ 0

/-! ### A frame that is never marked -/

/-- The frame at 2 GB. -/
def boundaryFrame : ℕ := 0x80000

/-- The frame at 2 GB is clear, and the cursor of the large domain is the start of a page. -/
structure Unspent (s : State) : Prop where
  clear : s.allocated boundaryFrame = false
  aligned : s.large.nextVirtAddr % 4096 = 0

theorem lasting_unspent : Lasting Unspent :=
  have h : Lasting fun s => s.allocated boundaryFrame = false := lasting_clear le_rfl
  { bits := fun s i w hi hs => ⟨h.bits s i w hi hs.clear, hs.aligned⟩
    used := fun s n hs => ⟨h.used s n hs.clear, hs.aligned⟩
    write := fun s f i v hs => ⟨h.write s f i v hs.clear, hs.aligned⟩
    install := fun s d va e hs => ⟨h.install s d va e hs.clear, hs.aligned⟩
    noteTable := fun s f hs => ⟨h.noteTable s f hs.clear, hs.aligned⟩
    clear := fun s i w hs => ⟨h.clear s i w hs.clear, hs.aligned⟩
    uninstall := fun s d va hs => ⟨h.uninstall s d va hs.clear, hs.aligned⟩ }

theorem frameCount_unspent (L : Layout) : FrameCount L fun _ => Unspent where
  anti _ _ _ _ hs := hs
  congr _ _ _ ha _ hl hs := by
    refine ⟨?_, ?_⟩
    · rw [ha]
      exact hs.clear
    · rw [hl]
      exact hs.aligned
  kernelFrame _ s hs := lasting_unspent.kernelWordLoop _ _ _ s hs
  processFrame _ s hs := lasting_unspent.processWordLoop _ _ s hs

theorem Unspent.setHead {s : State} (h : Unspent s) (v : ℕ) :
    Unspent (s.setLarge fun r => { r with nextFreeVirt := v }) := ⟨h.clear, h.aligned⟩

section Calls

variable (L : Layout)

theorem Unspent.takeCursor (N : ℕ) : Keeps Unspent (takeCursor N) := by
  intro s hs
  unfold RaxzusHeap.takeCursor
  rw [run_bind_ok (run_get s), run_bind_ok (modifyLarge_run _ s)]
  refine ⟨hs.clear, ?_⟩
  show u32 (s.large.nextVirtAddr + u32 (N * 4096)) % 4096 = 0
  have haligned := hs.aligned
  unfold u32
  omega

theorem Unspent.largeTakeSlot (N : ℕ) : Keeps Unspent (L.largeTakeSlot N) := by
  unfold Layout.largeTakeSlot
  refine (Keeps.get Unspent).bind fun s => ?_
  split_ifs
  · refine (lasting_unspent.load L _).bind fun freedPages => ?_
    split_ifs
    · refine (lasting_unspent.load L _).bind fun next => ?_
      refine Keeps.bind (fun s hs => hs.setHead _) fun _ => ?_
      exact (lasting_unspent.largeUnmapPage L _ _).bind fun _ => Keeps.pure Unspent _
    · exact Unspent.takeCursor N
  · exact Unspent.takeCursor N

theorem Unspent.kmallocLarge (size : ℕ) : Keeps Unspent (L.kmallocLarge size) := by
  unfold Layout.kmallocLarge
  split_ifs
  · exact Keeps.pure Unspent _
  · refine (Unspent.largeTakeSlot L _).bind fun virt => ?_
    refine (lasting_unspent.largeMapLoop L _ _ _).bind fun mapped => ?_
    split_ifs
    · exact (lasting_unspent.store L _ _).bind fun _ => Keeps.pure Unspent _
    · exact Keeps.pure Unspent _

theorem Unspent.kfreeLarge (p : ℕ) : Keeps Unspent (L.kfreeLarge p) := by
  unfold Layout.kfreeLarge
  split_ifs
  · exact Keeps.pure Unspent _
  · refine (lasting_unspent.load L _).bind fun pages => ?_
    refine (Keeps.times (fun i => lasting_unspent.largeUnmapPage L _ _) _).bind fun _ => ?_
    refine (Keeps.get Unspent).bind fun s => (lasting_unspent.store L _ _).bind fun _ => ?_
    exact (lasting_unspent.store L _ _).bind fun _ => fun s hs => hs.setHead _

/-- No call of the heap marks the frame at 2 GB or moves the cursor by part of a page. -/
theorem Layout.heapCall_unspent (op : HeapOp) : Keeps Unspent (L.heapCall op) := by
  have hcount := frameCount_unspent L
  have hfree : ∀ d p, Keeps Unspent (L.heapDomainFree d p) := fun d p s hs =>
    hcount.heapDomainFree d p 0 s hs
  have halloc : ∀ d, Keeps Unspent (L.heapDomainAlloc d) := fun d s hs =>
    hcount.heapDomainAlloc d 0 s hs
  cases op with
  | domainAlloc d => exact halloc d
  | domainFree d p => exact (hfree d p).bind fun _ => Keeps.pure _ _
  | kmallocLarge size => exact Unspent.kmallocLarge L size
  | kfreeLarge p => exact (Unspent.kfreeLarge L p).bind fun _ => Keeps.pure _ _
  | kmalloc size =>
      show Keeps _ (L.kmalloc size)
      cases hclass : classOf size with
      | some d =>
          rw [L.kmalloc_small hclass]
          exact halloc d
      | none =>
          rw [L.kmalloc_large hclass]
          exact Unspent.kmallocLarge L size
  | kfree p =>
      refine Keeps.bind ?_ fun _ => Keeps.pure _ _
      unfold Layout.kfreeHeap
      split_ifs
      · exact hfree _ p
      · exact hfree _ p
      · exact hfree _ p
      · exact hfree _ p
      · exact hfree _ p
      · exact hfree _ p
      · exact hfree _ p
      · exact Unspent.kfreeLarge L p
      · exact Keeps.pure _ _
  | write p k b =>
      refine Keeps.bind ?_ fun _ => Keeps.pure _ _
      exact (lasting_unspent.load L _).bind fun w => lasting_unspent.store L _ _

end Calls

theorem KernelRun.unspent {L : Layout} {G : HeapCall → Prop} {C : CreateCall → Prop}
    {live : ℕ → Option ℕ} {procs : List Process} {s : State} (run : KernelRun L G C live procs s) :
    Unspent s := by
  induction run with
  | @boot mem t h =>
      obtain ⟨use, m, t', hrun, hb⟩ := L.boot_spec mem
      rw [hrun] at h
      cases h
      have hfew := hb.few
      refine ⟨?_, ?_⟩
      · rw [boundaryFrame, hb.used _ (by norm_num)]
        exact decide_eq_false (by omega)
      · rw [hb.largeCursor]
        decide
  | heap _ _ _ hr _ ih => exact (L.heapCall_unspent _).ok hr ih
  | @create live procs s func isUser r s' _ hr _ ih =>
      have hkept := (frameCount_unspent L).createProcess func isUser 0 s ih
      rw [hr] at hkept
      exact hkept

/-! ### The search for a frame -/

theorem processBitLoop_ok {index : ℕ} {s s' : State} {r : Option ℕ} :
    ∀ {n b : ℕ} {w : Word}, processBitLoop index n b w s = .ok r s' →
      (r = none ∧ s' = s) ∨ ∃ a, r = some a ∧ a ≠ 0
  | 0, _, _, hr => by
      cases hr
      exact .inl ⟨rfl, rfl⟩
  | n + 1, b, w, hr => by
      rw [processBitLoop] at hr
      simp only at hr
      split_ifs at hr with h0
      · rw [run_bind_error (run_throw _ s)] at hr
        cases hr
      · rw [run_bind_ok (run_get s)] at hr
        split_ifs at hr
        · obtain ⟨_, s₁, -, hr⟩ := run_bind_eq_ok.mp hr
          obtain ⟨_, s₂, -, hr⟩ := run_bind_eq_ok.mp hr
          cases hr
          exact .inr ⟨_, rfl, h0⟩
        · exact processBitLoop_ok hr

theorem processWordLoop_zero {s s' : State} :
    ∀ {n index : ℕ}, processWordLoop n index s = .ok 0 s' → s' = s
  | 0, _, hr => by
      cases hr
      rfl
  | n + 1, index, hr => by
      rw [processWordLoop, run_bind_ok (run_get s)] at hr
      split_ifs at hr
      · exact processWordLoop_zero hr
      · obtain ⟨r, s₁, hbit, hrest⟩ := run_bind_eq_ok.mp hr
        obtain ⟨rfl, rfl⟩ | ⟨a, rfl, ha⟩ := processBitLoop_ok hbit
        · exact processWordLoop_zero hrest
        · cases hrest
          exact absurd rfl ha

/-- The search stops at the word of the clear frame at the latest. -/
theorem processWordLoop_ne_zero {s s' : State} (hleft : s.allocated boundaryFrame = false) :
    ∀ {n index : ℕ}, index + n = bitmapSize → index ≤ 16384 →
      processWordLoop n index s ≠ .ok 0 s'
  | 0, index, hn, hle => by
      rw [bitmapSize] at hn
      omega
  | n + 1, index, hn, hle => by
      intro hr
      have hlast : index = 16384 → s.bitmap index ≠ 0xFFFFFFFF#32 := by
        rintro rfl hfull
        have hset := word_full.mp hfull 0 (by norm_num)
        rw [show 16384 * 32 + 0 = boundaryFrame by decide, hleft] at hset
        cases hset
      rw [processWordLoop, run_bind_ok (run_get s)] at hr
      split_ifs at hr with hfull
      · have hne : index ≠ 16384 := fun h => hlast h hfull
        exact processWordLoop_ne_zero hleft (by omega) (by omega) hr
      · obtain ⟨r, s₁, hbit, hrest⟩ := run_bind_eq_ok.mp hr
        obtain ⟨rfl, rfl⟩ | ⟨a, rfl, ha⟩ := processBitLoop_ok hbit
        · by_cases hat : index = 16384
          · -- its first bit is clear
            subst hat
            have hloop := processBitLoop_eq (s := s₁) (show 16384 < 32768 by norm_num) (by norm_num)
              (show 0 < 32 by norm_num) hleft 32 0 (by norm_num) le_rfl (fun c _ hc => by omega)
            obtain ⟨s₂, hs₂⟩ := takeFrame_ok (16384 * 32 + 0) s₁
            rw [run_bind_ok hs₂, show (1#32 <<< 0 : Word) = 1 by decide, hbit] at hloop
            cases hloop
          · exact processWordLoop_ne_zero hleft (by omega) (by omega) hrest
        · cases hrest
          exact absurd rfl ha

theorem processFrame_ne_zero {s s' : State} (hleft : s.allocated boundaryFrame = false) :
    getNextFreeProcessFrame s ≠ .ok 0 s' :=
  processWordLoop_ne_zero hleft rfl (by norm_num)

/-! ### Size classes -/

theorem Layout.heapDomainAlloc_zero (L : Layout) {d : SizeClass} {s s' : State}
    (hcursor : (s.domains d).nextVirtAddr ≠ 0) (hr : L.heapDomainAlloc d s = .ok 0 s') :
    s' = s := by
  have hrun := hr
  unfold Layout.heapDomainAlloc at hrun
  rw [run_bind_ok (show getDomain d s = .ok (s.domains d) s from rfl)] at hrun
  split_ifs at hrun with hnil
  · -- the block on top of the free list is returned
    obtain ⟨_, s₁, -, hrun⟩ := run_bind_eq_ok.mp hrun
    rw [run_bind_ok (show modifyDomain d _ s₁ = .ok () _ from rfl)] at hrun
    injection hrun with hzero
    exact absurd hzero hnil
  · obtain ⟨phys, s₁, hframe, hrun⟩ := run_bind_eq_ok.mp hrun
    by_cases hphys : phys = 0
    · subst hphys
      rw [if_pos rfl] at hrun
      cases hrun
      exact processWordLoop_zero hframe
    · obtain ⟨hzero, -⟩ := L.heapDomainAlloc_slow hr (not_not.mp hnil) hframe hphys
      exact absurd hzero.symm hcursor

/-! ### The large domain -/

/-- A range starts at the cursor or at the slot on top of the LIFO. -/
theorem Layout.largeTakeSlot_start (L : Layout) {N virt : ℕ} {s s₁ : State}
    (hr : L.largeTakeSlot N s = .ok virt s₁) :
    virt = s.large.nextVirtAddr ∨ virt = s.large.nextFreeVirt := by
  have hcursor : takeCursor N s = .ok virt s₁ → virt = s.large.nextVirtAddr := by
    intro hr
    unfold takeCursor at hr
    rw [run_bind_ok (run_get s), run_bind_ok (modifyLarge_run _ s)] at hr
    cases hr
    rfl
  unfold Layout.largeTakeSlot at hr
  rw [run_bind_ok (run_get s)] at hr
  split_ifs at hr
  · obtain ⟨freedPages, t, hload, hr⟩ := run_bind_eq_ok.mp hr
    obtain ⟨rfl, -⟩ := L.load_ok hload
    split_ifs at hr
    · obtain ⟨next, _, -, hr⟩ := run_bind_eq_ok.mp hr
      obtain ⟨_, _, -, hr⟩ := run_bind_eq_ok.mp hr
      obtain ⟨_, _, -, hr⟩ := run_bind_eq_ok.mp hr
      cases hr
      exact .inr rfl
    · exact .inl (hcursor hr)
  · exact .inl (hcursor hr)

/-- With a clear frame left, one turn of the mapping loop does not give up. -/
theorem Layout.largeMapPage_true (L : Layout) {virt i : ℕ} {b : Bool} {s s' : State}
    (hleft : s.allocated boundaryFrame = false) (hr : L.largeMapPage virt i s = .ok b s') :
    b = true := by
  unfold Layout.largeMapPage at hr
  obtain ⟨phys, s₁, hframe, hr⟩ := run_bind_eq_ok.mp hr
  split_ifs at hr with hphys
  · rw [hphys] at hframe
    exact absurd hframe (processFrame_ne_zero hleft)
  · obtain ⟨_, _, -, hr⟩ := run_bind_eq_ok.mp hr
    obtain ⟨_, _, -, hr⟩ := run_bind_eq_ok.mp hr
    obtain ⟨_, _, -, hr⟩ := run_bind_eq_ok.mp hr
    cases hr
    rfl

theorem Layout.kmallocLarge_ne_zero (L : Layout) {size a : ℕ} {s s' : State} (h : Unspent s)
    (hnull : NullApart s) (hsize : size ≠ 0) (hr : L.kmallocLarge size s = .ok a s') : a ≠ 0 := by
  unfold Layout.kmallocLarge at hr
  rw [if_neg hsize] at hr
  obtain ⟨virt, s₁, htake, hr⟩ := run_bind_eq_ok.mp hr
  obtain ⟨mapped, s₂, hloop, hr⟩ := run_bind_eq_ok.mp hr
  have hleft : s₁.allocated boundaryFrame = false := ((Unspent.largeTakeSlot L _).ok htake h).clear
  have hlasting : Lasting fun t => t.allocated boundaryFrame = false := lasting_clear le_rfl
  obtain ⟨rfl, -⟩ := iterate_of_ok
    (fun _ b t => b = true ∧ t.allocated boundaryFrame = false) hloop ⟨rfl, hleft⟩ (by
      rintro i c d t t' - ⟨rfl, ht⟩ hbody
      rw [if_pos rfl] at hbody
      exact ⟨L.largeMapPage_true ht hbody, (hlasting.largeMapPage L virt i).ok hbody ht⟩)
  rw [if_pos rfl] at hr
  obtain ⟨_, s₃, -, hr⟩ := run_bind_eq_ok.mp hr
  cases hr
  rcases L.largeTakeSlot_start htake with rfl | rfl
  · -- the start of a page is not four bytes before the end of the address space
    have haligned := h.aligned
    unfold u32
    omega
  · exact hnull.head

/-! ### Runs of the kernel -/

theorem HeapInv.nullApart {L : Layout} {use : ℕ → Use} {live ranges : ℕ → Option ℕ} {s : State}
    (h : HeapInv L use live ranges s) : NullApart s where
  cursors d := by
    have h1 := (h.dom d).cursor_ge
    have h2 := d.virtBase_bounds
    omega
  head := by
    by_cases h0 : s.large.nextFreeVirt = 0
    · rw [h0]
      decide
    · obtain ⟨q, K, _, _, hq, hK, -⟩ := h.large.head h0
      have hin := h.large.within q K hK
      have hle := h.large.cursor_le
      unfold u32
      omega

/-- As long as the calls stay within their limits, NULL is apart from what the heap hands out. -/
theorem KernelRun.nullApart {L : Layout} {live : ℕ → Option ℕ} {procs : List Process} {s : State}
    (run : KernelRun L (CallFits L) CreationFits live procs s) : NullApart s := by
  obtain ⟨⟨use, ranges, h⟩, -, -⟩ := run.fits
  exact h.heap.nullApart

/-- In every run of the kernel, whatever its calls asked for and however little memory they left,
a `kmalloc` that returns NULL leaves everything as it was; a request to the large domain never
returns NULL. -/
theorem failed_kmalloc_no_trace {L : Layout} {G : HeapCall → Prop} {C : CreateCall → Prop}
    {live : ℕ → Option ℕ} {procs : List Process} {s s' : State} {size a : ℕ}
    (run : KernelRun L G C live procs s) (hnull : NullApart s)
    (hr : L.kmalloc size s = .ok a s') :
    (a = 0 → NoTrace s s') ∧ (4096 < size → a ≠ 0) := by
  have hlarge : 4096 < size → a ≠ 0 := by
    intro hsize
    rw [L.kmalloc_large (classOf_eq_none.mpr hsize)] at hr
    exact L.kmallocLarge_ne_zero run.unspent hnull (by omega) hr
  refine ⟨?_, hlarge⟩
  rintro rfl
  cases hclass : classOf size with
  | some d =>
      rw [L.kmalloc_small hclass] at hr
      rw [L.heapDomainAlloc_zero (hnull.cursors d) hr]
      exact NoTrace.refl s
  | none => exact absurd rfl (hlarge (classOf_eq_none.mp hclass))

/-- The second of two requests for two pages. -/
theorem failed_kmalloc_no_trace_pages : ∃ s₀ a₁ s₁ a₂ s₂,
    Layout.lowest.boot (State.powerOn fun _ _ => 0) = .ok () s₀ ∧
    Layout.lowest.kmalloc 8188 s₀ = .ok a₁ s₁ ∧ Layout.lowest.kmalloc 8188 s₁ = .ok a₂ s₂ ∧
    (a₂ = 0 → NoTrace s₁ s₂) ∧ (4096 < 8188 → a₂ ≠ 0) := by
  obtain ⟨use, m, s₀, hboot, hb⟩ := Layout.lowest.boot_spec fun _ _ => 0
  have hpages : (HeapOp.kmalloc 8188).pages = 2 := by decide
  have hsize : ∀ n, (HeapOp.kmalloc 8188).large = some n → n + 4099 < 2 ^ 32 := by
    rintro n hn
    cases hn
    norm_num
  have h₀ : Stocked Layout.lowest 2 (2 + (HeapOp.kmalloc 8188).pages)
      (9 + 3 + (HeapOp.kmalloc 8188).pages * 3) noLive s₀ := by
    rw [hpages]
    exact hb.stocked.mono (by norm_num) (by norm_num) (by norm_num)
  obtain ⟨a₁, s₁, hr₁, hG₁, -, h₁⟩ := h₀.call trivial hsize
  obtain ⟨a₂, s₂, hr₂, -⟩ := (h₁.mono (i := 0 + 1) (j := 0 + (HeapOp.kmalloc 8188).pages)
    (l := 0 + 3 + (HeapOp.kmalloc 8188).pages * 3) (by norm_num) (by rw [hpages])
    (by rw [hpages])).run trivial hsize
  have run := (KernelRun.boot (C := CreationFits) hboot).heap
    (show Legal noLive (.kmalloc 8188) from trivial) (fun p hp => by cases hp) hr₁ hG₁.callFits
  exact ⟨s₀, a₁, s₁, a₂, s₂, hboot, hr₁, hr₂, failed_kmalloc_no_trace run run.nullApart hr₂⟩

end RaxzusHeap
