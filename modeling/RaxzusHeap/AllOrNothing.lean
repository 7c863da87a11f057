import RaxzusHeap.KernelFrames
import RaxzusHeap.ProcessRuns

/-! # `create_process`, all or nothing

`create_process` takes a block, a directory, the stack, the code, a kernel stack, and page
tables on the way, and looks at the results of the first and the last request only.
`AllOrNothing` says what should come of a call: one more process in the list, with memory that
is new throughout, or nothing at all.

`CreateRoom` counts the frames of the call exactly, and while there is room below 1 GB the call
succeeds (`createProcess_all_or_nothing`).  Without it the call goes on with a frame that the
direct map does not show: after the last frame below 1 GB is taken it stops half-way, with a
block and a frame lost (`createProcess_half_done`). -/

namespace RaxzusHeap

open Imperative FirstFit Linked

/-- The frames that a process owns: its directory, its stack and the code of a user process. -/
def Process.frames (x : Process) : List ℕ :=
  (x.pageDir - KERNEL_BASE) / 4096 :: x.stack / 4096 :: x.code.toList.map (· / 4096)

/-- Frame `f` is not frame 0, was clear and is in use now. -/
structure NewFrame (s s' : State) (f : ℕ) : Prop where
  ne_zero : f ≠ 0
  clear : s.allocated f = false
  used : s'.allocated f = true

/-- The process `x` was appended to the list `l`, and all that it owns is new. -/
structure Appended (L : Layout) (live : ℕ → Option ℕ) (l : List ℕ) (isUser : Bool) (s : State)
    (x : Process) (s' : State) : Prop where
  list : ProcChain L s' s'.processLists (l ++ [x.pcb])
  index : s'.currentIndex = (s.currentIndex + 1) % 2 ^ 16
  pageDir : KERNEL_BASE ≤ x.pageDir ∧ L.fields s' x.pcb .pageDir = some x.pageDir
  kernelStackTop : L.fields s' x.pcb .kernelStackTop = some (x.kstack + 4096)
  code : x.code.isSome = isUser
  apart : x.frames.Nodup
  frames : ∀ f ∈ x.frames, NewFrame s s' f
  pcb : x.pcb ≠ 0 ∧ live x.pcb = none
  kstack : x.kstack ≠ 0 ∧ live x.kstack = none ∧ x.kstack ≠ x.pcb
  heap : ∃ use ranges, HeapInv L use (liveCreated live (some x)) ranges s'

/-- The list, the counter, the bitmap and the live blocks are as before. -/
structure Untouched (L : Layout) (live : ℕ → Option ℕ) (l : List ℕ) (s s' : State) : Prop where
  list : s'.processLists = s.processLists ∧ ProcChain L s' s'.processLists l
  index : s'.currentIndex = s.currentIndex
  bitmap : ∀ g, s'.allocated g = s.allocated g
  heap : ∃ use ranges, HeapInv L use live ranges s'

/-- However the call ends, it added one process or changed nothing. -/
def AllOrNothing (L : Layout) (live : ℕ → Option ℕ) (l : List ℕ) (func : ℕ) (isUser : Bool)
    (s : State) : Prop :=
  (∃ x s', L.createProcess func isUser s = .ok (some x) s' ∧ Appended L live l isUser s x s') ∨
    Untouched L live l s (final (L.createProcess func isUser s))

/-- The direct map shows room for the process, the code of a user process can be read, and the
counter agrees with the list on whether there are processes. -/
structure CreateMeets (L : Layout) (l : List ℕ) (func : ℕ) (isUser : Bool) (s : State) :
    Prop where
  room : s.CreateRoom L isUser 0x40000
  code : isUser = true → KernelCode func
  counter : s.currentIndex = 0 ↔ l = []

section Whole

variable {L : Layout} {use use' : ℕ → Use} {live live' ranges ranges' : ℕ → Option ℕ}
  {s s' : State} {l : List ℕ} {isUser : Bool} {x : Process}

theorem HeapInv.newFrame (h : HeapInv L use live ranges s) (h' : HeapInv L use' live' ranges' s')
    {f : ℕ} (hf : use f = .free) (hf' : use' f ≠ .free) : NewFrame s s' f := by
  have hlt := h'.pages.inv.range f hf'
  refine ⟨?_, ?_, (h'.pages.inv.alloc f (by omega)).mpr hf'⟩
  · rintro rfl
    rw [h.pages.inv.kernel_of_lt (Nat.succ_pos _)] at hf
    cases hf
  · cases ha : s.allocated f with
    | false => rfl
    | true => exact absurd hf ((h.pages.inv.alloc f (by omega)).mp ha)

/-- The frames of the process differ, and each is new. -/
theorem OwnMemory.new_frames {D : ℕ} (hD : OwnMemory use isUser x D use')
    (h : HeapInv L use live ranges s) (h' : HeapInv L use' live' ranges' s') :
    x.code.isSome = isUser ∧ x.frames.Nodup ∧ ∀ f ∈ x.frames, NewFrame s s' f := by
  obtain ⟨f, hstack, -, hffree, hf⟩ := hD.stack
  have hdir : (x.pageDir - KERNEL_BASE) / 4096 = D := by
    rw [hD.pageDir, Nat.add_sub_cancel_left, Nat.mul_div_cancel _ (by norm_num)]
  have hstackFrame : x.stack / 4096 = f := by
    rw [hstack, Nat.mul_div_cancel _ (by norm_num)]
  have hDf : D ≠ f := by
    rintro rfl
    rw [hD.dir.dir] at hf
    cases hf
  have hDnew : NewFrame s s' D := h.newFrame h' hD.dir.free (by rw [hD.dir.dir]; simp)
  have hfnew : NewFrame s s' f := h.newFrame h' hffree (by rw [hf]; simp)
  have hcode := hD.code
  unfold Process.frames
  rw [hdir, hstackFrame]
  cases isUser with
  | false =>
      have hnone : x.code = none := hcode
      rw [hnone]
      exact ⟨rfl, by simp [hDf], by simp [hDnew, hfnew]⟩
  | true =>
      obtain ⟨g, hsome, -, hgfree, hg⟩ := hcode
      have hgnew : NewFrame s s' g := h.newFrame h' hgfree (by rw [hg]; simp)
      have hDg : D ≠ g := by
        rintro rfl
        rw [hD.dir.dir] at hg
        cases hg
      have hfg : f ≠ g := by
        rintro rfl
        rw [hf] at hg
        injection hg with _ hpage
        exact absurd hpage (by decide)
      have hframe : g * 4096 / 4096 = g := Nat.mul_div_cancel g (by norm_num)
      rw [hsome]
      exact ⟨rfl, by simp [hDf, hDg, hfg, hframe], by simp [hDnew, hfnew, hgnew, hframe]⟩

/-- A process that was created was appended. -/
theorem Created.appended (hc : Created L use live l s isUser x use' live' s')
    (h : HeapInv L use live ranges s) (h' : HeapInv L use' live' ranges' s')
    (hcounter : s.currentIndex = 0 ↔ l = []) : Appended L live l isUser s x s' := by
  obtain ⟨D, hD⟩ := hc.memory
  obtain ⟨hcode, hnodup, hnew⟩ := hD.new_frames h h'
  have hpcb := hc.pcbBlock.1
  have hkstack := hc.kstackBlock.1
  have hpcbBase := SizeClass.heap128.virtBase_bounds
  have hkstackBase := SizeClass.heap4k.virtBase_bounds
  exact
    { list := by
        have hlist := hc.list
        by_cases h0 : s.currentIndex = 0
        · rw [if_pos h0] at hlist
          rw [hcounter.mp h0]
          exact hlist
        · rw [if_neg h0] at hlist
          exact hlist
      index := hc.index
      pageDir := ⟨by rw [hD.pageDir]; exact Nat.le_add_right _ _, hc.pageDir⟩
      kernelStackTop := hc.kernelStackTop
      code := hcode
      apart := hnodup
      frames := hnew
      pcb := ⟨by omega, hc.pcb⟩
      kstack := ⟨by omega, hc.kstack, hc.apart⟩
      heap := by
        rw [hc.blocks] at h'
        exact ⟨use', ranges', h'⟩ }

/-- From any state of the heap and the list: while there is room for the process below 1 GB,
`create_process` is all or nothing. -/
theorem createProcess_all_or_nothing (h : HeapInv L use live ranges s)
    (hl : ProcChain L s s.processLists l) (hlive : ∀ q ∈ l, live q = some PCB_SIZE)
    (hindex : s.currentIndex < 2 ^ 16) (func : ℕ) (hc : CreateMeets L l func isUser s) :
    AllOrNothing L live l func isUser s := by
  have hends := h.createProcessTight (by norm_num) hc.room hl hlive hindex func
  obtain ⟨r, s', hr, x, use', live', rfl, h', hcreated, -⟩ :=
    (hends.mono (fun _ _ hq => hq) fun _ hE => by
      rcases hE with hlt | ⟨hu, hcode⟩ | ⟨hne, hnil⟩
      · exact absurd hlt (lt_irrefl _)
      · exact hcode (hc.code hu)
      · exact hne (hc.counter.mpr hnil)).exists_ok
  exact Or.inl ⟨x, s', hr, hcreated.appended h h' hc.counter⟩

end Whole

/-- A user process right after `boot`. -/
theorem createProcess_all_or_nothing_boot : ∃ use m s, Booted Layout.lowest use m s ∧
    AllOrNothing Layout.lowest noLive [] 0xC0101000 true s := by
  obtain ⟨use, m, s, -, hb⟩ := Layout.lowest.boot_spec fun _ _ => 0
  have hfew := hb.few
  have hroom : RoomBelow 0x40000 12 s := hb.used.room (by norm_num) (by omega)
  have hl : ProcChain Layout.lowest s s.processLists [] := by
    rw [hb.noList.2]
    exact Chain.nil
  have hcode : KernelCode 0xC0101000 := by
    unfold KernelCode KERNEL_BASE
    norm_num
  refine ⟨use, m, s, hb, createProcess_all_or_nothing hb.heap hl (fun q hq => by cases hq)
    (by rw [hb.noList.1]; norm_num) 0xC0101000 ⟨?_, fun _ => hcode, iff_of_true hb.noList.1 rfl⟩⟩
  exact .of_room hb.creating.region hroom (by norm_num)

/-! ### Only with room -/

section Only

variable {L : Layout} {use : ℕ → Use} {live ranges : ℕ → Option ℕ} {s : State} {l : List ℕ}
  {isUser : Bool}

theorem Making.directory_kept {use₁ : ℕ → Use} {live₁ : ℕ → Option ℕ} {s₂ : State} {p m : ℕ}
    (h : Making L ranges live use s p use₁ live₁ s₂) (hm : m ≤ 0x50000) (hroom : RoomBelow m 1 s₂)
    {f : ℕ → Kernel (Option Process)}
    (hf : ∀ g procDir, Costs (fun _ s => s.allocated g = true) 7 (f procDir)) :
    ∃ g, s₂.allocated g = false ∧
      (final ((L.createProcessPageDirectory >>= f) s₂)).allocated g = true := by
  obtain ⟨D, hDm, hfirst⟩ := Room.exists_first hroom
  have htake : L.getNextFreeKernelFrame s₂ = .ok (D * 4096) (s₂.take D) := by
    rw [L.kernelFrame_eq h.heap.pages.inv.image hfirst (by omega), takeFrame_low (by omega)]
  refine ⟨D, hfirst.1, ?_⟩
  refine Keeps.final_bind (P := fun t : State => t.allocated D = true) ?_ ?_
  · unfold Layout.createProcessPageDirectory
    rw [run_bind_ok htake]
    have hclear := (frameCount_kept L D).clearDirectory (u32 (D * 4096 + 0xC0000000))
    have hrest := (frameCount_kept L D).seq hclear fun _ =>
      Costs.pure (u32 (D * 4096 + 0xC0000000))
    apply hrest 0
    rw [State.allocated_take]
    simp
  · exact fun procDir s hs => hf D procDir 0 s hs

/-- However it ends, the call takes a frame. -/
theorem HeapInv.createProcess_takes (h : HeapInv L use live ranges s)
    (hroom : s.CreateRoom L isUser 0x50000) (hindex : s.currentIndex < 2 ^ 16) (func : ℕ) :
    ∃ g, s.allocated g = false ∧ (final (L.createProcess func isUser s)).allocated g = true := by
  have hsmall : L.kmalloc PCB_SIZE = L.heapDomainAlloc .heap128 := L.kmalloc_small (by decide)
  unfold Layout.createProcess
  cases hr₁ : L.kmalloc PCB_SIZE s with
  | error e t =>
      have hslow := h.domainAllocTight .heap128 (n := PCB_SIZE) (by decide) le_rfl
        (hroom.block (by norm_num))
      rw [← hsmall] at hslow
      obtain ⟨-, hfault⟩ := hslow.error hr₁
      rw [run_bind_error hr₁]
      exact hfault.lost
  | ok p s₁ =>
      obtain ⟨use₁, h₁, hp0, -, -, -, hspent₁, -⟩ :=
        (h.startProcess le_rfl (hroom.block (by norm_num))).ok hr₁
      obtain ⟨s₂, hr₂, h₂, -, -, -, halloc₂⟩ := h₁.initPcb hindex
      have hown := hroom.own
      have hroom₂ : RoomBelow 0x50000 1 s₂ := by
        refine (hspent₁.same halloc₂) _ _ (RoomBelow.anti _ _ s ?_ hown)
        unfold State.ownFrames
        omega
      obtain ⟨g, hclear, hset⟩ := h₂.directory_kept le_rfl hroom₂ fun g procDir =>
        (frameCount_kept L g).afterDirectory p procDir func isUser
      rw [run_bind_ok hr₁, if_neg hp0, run_bind_ok hr₂]
      refine ⟨g, ?_, hset⟩
      -- the allocator clears no frame
      rw [halloc₂] at hclear
      by_contra hne
      rw [Bool.not_eq_false] at hne
      have hkept := (frameCount_kept L g).heapDomainAlloc .heap128 0 s hne
      rw [← hsmall, hr₁] at hkept
      rw [show s₁.allocated g = true from hkept] at hclear
      cases hclear

/-- While there are frames below 1.25 GB, a call that is all or nothing had the room below 1 GB,
and a counter that agrees with the list. -/
theorem createProcess_all_only (h : HeapInv L use live ranges s)
    (hl : ProcChain L s s.processLists l) (hlive : ∀ q ∈ l, live q = some PCB_SIZE)
    (hindex : s.currentIndex < 2 ^ 16) (func : ℕ) (hroom : s.CreateRoom L isUser 0x50000)
    (hall : AllOrNothing L live l func isUser s) :
    s.CreateRoom L isUser 0x40000 ∧ (s.currentIndex = 0 ↔ l = []) := by
  rcases hall with ⟨x, s', hr, happ⟩ | hnothing
  · obtain ⟨y, use', live', hy, -, hc, -, hlow, hnil⟩ :=
      (h.createProcessTight le_rfl hroom hl hlive hindex func).ok hr
    cases hy
    refine ⟨hlow, fun h0 => ?_, hnil⟩
    have hlist := hc.list
    rw [if_pos h0] at hlist
    have happended := happ.list.unique hlist
    simpa using happended
  · obtain ⟨g, hclear, hset⟩ := h.createProcess_takes hroom hindex func
    rw [hnothing.bitmap g, hclear] at hset
    cases hset

end Only

/-- A kernel process right after `boot`. -/
theorem createProcess_all_only_boot : ∃ use m s, Booted Layout.lowest use m s ∧
    s.CreateRoom Layout.lowest false 0x40000 ∧ (s.currentIndex = 0 ↔ ([] : List ℕ) = []) := by
  obtain ⟨use, m, s, -, hb⟩ := Layout.lowest.boot_spec fun _ _ => 0
  have hfew := hb.few
  have hroom : RoomBelow 0x50000 12 s := hb.used.room (by norm_num) (by omega)
  have hl : ProcChain Layout.lowest s s.processLists [] := by
    rw [hb.noList.2]
    exact Chain.nil
  obtain ⟨x, s', use', live', hr, h', hc⟩ := hb.createProcess_ok 0xC0101000
  have happ := hc.appended hb.heap h'.heap (iff_of_true hb.noList.1 rfl)
  refine ⟨use, m, s, hb, createProcess_all_only hb.heap hl (fun q hq => by cases hq)
    (by rw [hb.noList.1]; norm_num) 0xC0101000 ?_ (Or.inl ⟨x, s', hr, happ⟩)⟩
  exact .of_room hb.creating.region hroom (by norm_num)

/-! ### Half-way -/

section Fault

variable {L : Layout} {live : ℕ → Option ℕ} {m : ℕ} {s : State}

/-- With no frame below 1 GB left the call stops in the new directory. -/
theorem LowFull.createProcess_faults (h : LowFull L live m s) (func : ℕ) (isUser : Bool) :
    ∃ e s', L.createProcess func isUser s = .error e s' ∧ s.allocated m = false ∧
      s'.allocated m = true := by
  obtain ⟨use, ranges, hheap⟩ := h.heap
  have hge := h.ge
  have hlt := h.lt
  have hindex : s.currentIndex < 2 ^ 16 := by
    rw [h.noList.1]
    norm_num
  -- the block comes from the free list, so the bitmap is as before
  have hslow : ∀ {P : Prop}, (s.domains .heap128).nextFreeBlock = 0 → P :=
    fun hnil => absurd hnil h.spare
  obtain ⟨p, s₁, hr₁, use₁, h₁, hp0, -⟩ := ((hheap.startProcess (m := 0) (by norm_num)
    hslow).mono (fun _ _ hq => hq) fun _ hE => absurd hE (Nat.not_lt_zero _)).exists_ok
  have hsmall : L.kmalloc PCB_SIZE = L.heapDomainAlloc .heap128 := L.kmalloc_small (by decide)
  have hpop := (hheap.domainAllocTight .heap128 (n := PCB_SIZE) (m := 0) (by decide) (by norm_num)
    hslow).ok (by rw [← hsmall]; exact hr₁)
  obtain ⟨_, -, hpop⟩ := hpop
  have halloc₁ : ∀ g, s₁.allocated g = s.allocated g := by
    cases hpop.growth with
    | inl hfast => exact hfast.2.2.1
    | inr hgrown => exact hslow hgrown.1
  obtain ⟨s₂, hr₂, h₂, -, -, -, halloc₂⟩ := h₁.initPcb hindex
  have hused₂ : s₂.UsedBelow m := (h.used.congr halloc₁).congr halloc₂
  -- the directory lies beyond 1 GB
  have hframe : L.getNextFreeKernelFrame s₂ = .ok (m * 4096) (s₂.take m) := by
    rw [L.kernelFrame_eq h₂.heap.pages.inv.image (hused₂.first (by omega)) (by omega),
      takeFrame_low (by omega)]
  have hfault := h₂.heap.pages.clearDirectory_fault hge (by omega)
  refine ⟨.pageFault ((m - 0x40000) * 4096 + 4 * 0), s₂.take m, ?_, ?_, ?_⟩
  · unfold Layout.createProcess
    rw [run_bind_ok hr₁, if_neg hp0, run_bind_ok hr₂]
    apply run_bind_error
    unfold Layout.createProcessPageDirectory
    rw [run_bind_ok hframe]
    exact run_bind_error hfault
  · rw [h.used m (by omega)]
    simp
  · rw [State.allocated_take]
    simp

end Fault

/-- A run of `kmalloc` alone after which `create_process` stops half-way: nothing is listed, but
the bitmap has changed. -/
theorem createProcess_half_done : ∃ live s,
    KernelRun Layout.lowest (fun _ => True) (fun _ => True) live [] s ∧
    (∃ e s', Layout.lowest.createProcess 0xC0101000 false s = .error e s' ∧
      ∃ g, s.allocated g = false ∧ s'.allocated g = true) ∧
    ¬ AllOrNothing Layout.lowest live [] 0xC0101000 false s := by
  obtain ⟨live, S, m, s, h, h1, h2⟩ := Crowding.exists_run Layout.lowest
  obtain ⟨m', a, s', hr, hfull⟩ := h.last h1 h2
  have hlegal : Legal live (.kmalloc 81916) := trivial
  have hrun := h.run.heap hlegal (fun p hp => by cases hp) hr trivial
  obtain ⟨e, t, hfault, hclear, hset⟩ := hfull.createProcess_faults 0xC0101000 false
  refine ⟨_, s', hrun, ⟨e, t, hfault, m', hclear, hset⟩, ?_⟩
  rintro (⟨x, u, hok, -⟩ | hnothing)
  · rw [hfault] at hok
    cases hok
  · have hsame := hnothing.bitmap m'
    rw [hfault] at hsame
    have hfinal : t.allocated m' = s'.allocated m' := hsame
    rw [hset, hclear] at hfinal
    cases hfinal

end RaxzusHeap
