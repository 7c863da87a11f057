import RaxzusHeap.KernelRuns
import RaxzusHeap.LargeRuns

/-! # Runs of `create_process` alone

Nothing is ever released in such a run, so the frames in use are those below some `m`
(`Packed`), and every process costs at least four of them or, as long as blocks of the
premapped pages are left, three.  A process directory beyond 1 GB cannot be built, hence no
run gets anywhere near the end of a region, and the invariant of the kernel holds without
any further assumption (`CreateRun.creating`). -/

namespace RaxzusHeap

open Imperative FirstFit Linked

/-- Runs of `create_process` from power-on. -/
def CreateRun (L : Layout) : (ℕ → Option ℕ) → List Process → State → Prop :=
  KernelRun L (fun _ => False) (fun _ => True)

namespace FrameCount

variable {L : Layout} {room : ℕ → State → Prop}

theorem storeField (h : FrameCount L room) (p : ℕ) (field : PcbField) (v : ℕ) :
    Costs room 0 (L.storeField p field v) := h.store _ _

theorem initPcb (h : FrameCount L room) (p : ℕ) : Costs room 0 (L.initPcb p) := by
  unfold Layout.initPcb
  refine h.seq (.of_keeps fun n => Keeps.get _) fun s => ?_
  refine h.seq (h.storeField _ _ _) fun _ => ?_
  refine h.seq (h.storeField _ _ _) fun _ => ?_
  exact h.seq (h.storeField _ _ _) fun _ => h.storeField _ _ _

theorem loop (_ : FrameCount L room) {body : ℕ → Kernel Unit} (hb : ∀ i, Costs room 0 (body i))
    (k : ℕ) : Costs room 0 (times k body) :=
  .of_keeps fun n => Keeps.times (fun i s hs => hb i n s hs) k

theorem clearDirectory (h : FrameCount L room) (dir : ℕ) : Costs room 0 (L.clearDirectory dir) := by
  unfold Layout.clearDirectory
  refine h.seq (h.loop (fun i => h.store _ _) _) fun _ => ?_
  exact h.loop (fun i => h.seq (h.load _) fun _ => h.store _ _) _

theorem makeDirectory (h : FrameCount L room) : Costs room 1 L.createProcessPageDirectory := by
  unfold Layout.createProcessPageDirectory
  refine Costs.bind (k := 1) (l := 0) h.anti h.kernelFrame fun dirPhys => ?_
  exact h.seq (h.clearDirectory _) fun _ => Costs.pure _

theorem copyFunction (h : FrameCount L room) (codePhys func : ℕ) :
    Costs room 0 (L.copyFunction codePhys func) := by
  unfold Layout.copyFunction
  refine h.loop (fun i => ?_) _
  refine h.seq (h.seq (h.load _) fun _ => Costs.pure _) fun b => ?_
  exact h.seq (h.load _) fun _ => h.store _ _

theorem mapProcess (h : FrameCount L room) (procDir stackPhys func : ℕ) (isUser : Bool) :
    Costs room 3 (L.mapProcess procDir stackPhys func isUser) := by
  cases isUser with
  | true =>
      refine Costs.bind (k := 1) (l := 2) h.anti (h.mapPage _ _ _ _) fun _ => ?_
      refine Costs.bind (k := 1) (l := 1) h.anti h.processFrame fun codePhys => ?_
      refine Costs.bind (k := 1) (l := 0) h.anti (h.mapPage _ _ _ _) fun _ => ?_
      exact h.seq (h.copyFunction _ _) fun _ => Costs.pure _
  | false =>
      refine Costs.bind (k := 1) (l := 2) h.anti (h.mapPage _ _ _ _) fun _ => ?_
      exact h.free 2 (Costs.pure _)

theorem pushWords (h : FrameCount L room) (ws : List ℕ) (sp : ℕ) :
    Costs room 0 (L.pushWords ws sp) := by
  induction ws generalizing sp with
  | nil => exact Costs.pure _
  | cons w ws ih => exact h.seq (h.store _ _) fun _ => ih _

theorem walkToEnd (h : FrameCount L room) (fuel a : ℕ) : Costs room 0 (L.walkToEnd fuel a) := by
  induction fuel generalizing a with
  | zero => exact .of_keeps fun n => Keeps.throw _ _
  | succ fuel ih =>
      refine h.seq (h.load _) fun next => ?_
      split_ifs
      · exact ih next
      · exact Costs.pure _

theorem addProcess (h : FrameCount L room) (p : ℕ) : Costs room 0 (L.addProcess p) := by
  unfold Layout.addProcess
  refine h.seq (.of_keeps fun n => Keeps.get _) fun s => ?_
  split_ifs
  · refine h.seq (h.assign (fun _ _ => rfl) (fun _ => rfl) fun _ => rfl) fun _ => ?_
    exact h.assign (fun _ _ => rfl) (fun _ => rfl) fun _ => rfl
  · refine h.seq (h.assign (fun _ _ => rfl) (fun _ => rfl) fun _ => rfl) fun _ => ?_
    refine h.seq (h.walkToEnd _ _) fun c => ?_
    exact h.seq (h.storeField _ _ _) fun _ => h.storeField _ _ _

/-- What is left of `create_process` once the directory is there. -/
theorem afterDirectory (h : FrameCount L room) (p procDir func : ℕ) (isUser : Bool) :
    Costs room 7 (do
      L.storeField p .pageDir procDir
      let stackPhys ← getNextFreeProcessFrame
      let code ← L.mapProcess procDir stackPhys func isUser
      let base := u32 (stackPhys + 0xC0000000)
      let sp ← L.pushWords (initialFrame func isUser) (u32 (base + PROC_STACK_SIZE))
      L.storeField p .savedEsp (u32 (PROC_STACK_VIRT + u32Sub sp base))
      L.storeField p .stackTop (PROC_STACK_VIRT + PROC_STACK_SIZE)
      let kstack ← L.kmalloc 4096
      if kstack = 0 then throw .halted
      L.storeField p .kernelStackTop (u32 (kstack + 4096))
      L.addProcess p
      pure (some ⟨p, procDir, stackPhys, code, kstack⟩) : Kernel (Option Process)) := by
  have hend : ∀ kstack x, Costs room 0 (do
      L.storeField p .kernelStackTop (u32 (kstack + 4096))
      L.addProcess p
      pure x : Kernel (Option Process)) := fun kstack x =>
    h.seq (h.storeField _ _ _) fun _ => h.seq (h.addProcess p) fun _ => Costs.pure _
  rw [L.kmalloc_small (d := .heap4k) (by decide)]
  refine h.seq (h.storeField _ _ _) fun _ => ?_
  refine Costs.bind (k := 1) (l := 6) h.anti h.processFrame fun stackPhys => ?_
  refine Costs.bind (k := 3) (l := 3) h.anti (h.mapProcess _ _ _ _) fun code => ?_
  refine h.seq (h.pushWords _ _) fun sp => ?_
  refine h.seq (h.storeField _ _ _) fun _ => ?_
  refine h.seq (h.storeField _ _ _) fun _ => ?_
  refine Costs.bind (k := 3) (l := 0) h.anti (h.heapDomainAlloc _) fun kstack => ?_
  split_ifs
  · exact h.seq (.of_keeps fun n => Keeps.throw _ _) fun _ => hend _ _
  · exact hend _ _

theorem createProcess (h : FrameCount L room) (func : ℕ) (isUser : Bool) :
    Costs room 11 (L.createProcess func isUser) := by
  unfold Layout.createProcess
  rw [L.kmalloc_small (d := .heap128) (by decide)]
  refine Costs.bind (k := 3) (l := 8) h.anti (h.heapDomainAlloc _) fun p => ?_
  split_ifs
  · exact h.free 8 (Costs.pure _)
  · refine h.seq (h.initPcb p) fun _ => ?_
    exact Costs.bind (k := 1) (l := 7) h.anti h.makeDirectory fun procDir =>
      h.afterDirectory p procDir func isUser

end FrameCount

/-! ### The invariant -/

/-- The kernel after creating `procs`, with the frames below `m` in use. -/
structure Creating (L : Layout) (use : ℕ → Use) (live ranges : ℕ → Option ℕ)
    (procs : List Process) (m : ℕ) (s : State) : Prop where
  kernel : KernelInv L use live ranges procs s
  used : s.UsedBelow m
  low : L.kernelFrames ≤ m
  high : m ≤ 0x4000A
  frames : ∃ c, (s.domains .heap4k).nextVirtAddr = SizeClass.heap4k.virtBase + c * 4096 ∧
    3 * procs.length + c + 258 ≤ m
  mine : ∀ p, live p ≠ none → ProcessBlock procs p
  head : procs ≠ [] → s.processLists ≠ 0

section Steps

variable {L : Layout} {use use' : ℕ → Use} {live live' ranges ranges' : ℕ → Option ℕ}
  {procs : List Process} {s s' : State} {x : Process} {m m' : ℕ}

/-- Neither of the two regions is exhausted. -/
theorem Creating.region (h : Creating L use live ranges procs m s) (d : SizeClass)
    (hd : d = .heap128 ∨ d = .heap4k) (hnil : (s.domains d).nextFreeBlock = 0) :
    (s.domains d).nextVirtAddr < d.virtBase + 0x10000000 := by
  obtain ⟨c, hc, hframes⟩ := h.frames
  have hhigh := h.high
  cases hd with
  | inl hd =>
      subst hd
      by_contra hend
      have hle := (h.kernel.heap.dom .heap128).blocks_le hnil (n := 0x40000)
        (S := (procs.map Process.pcb).toFinset) (fun p hp hlive => ?_) ?_
      · have hcard := (procs.map Process.pcb).toFinset_card_le
        rw [List.length_map] at hcard
        omega
      · obtain ⟨y, hy, hpy⟩ := h.mine p hlive
        have hy' := h.kernel.home y hy
        have h1 := hp.2.1
        have h2 := (h.kernel.heap.dom .heap128).cursor_le
        have h3 := hy'.kstackBlock.1
        simp only [SizeClass.virtBase] at h1 h2 h3
        have hpcb : p = y.pcb := hpy.resolve_right (by omega)
        rw [hpcb, List.mem_toFinset]
        exact List.mem_map_of_mem hy
      · simp only [SizeClass.virtBase, SizeClass.blockSize] at hend ⊢
        omega
  | inr hd =>
      subst hd
      by_contra hend
      have hle := (h.kernel.heap.dom .heap4k).blocks_le hnil (n := c)
        (S := (procs.map Process.kstack).toFinset) (fun p hp hlive => ?_) ?_
      · have hcard := (procs.map Process.kstack).toFinset_card_le
        rw [List.length_map] at hcard
        rw [hc] at hend
        omega
      · obtain ⟨y, hy, hpy⟩ := h.mine p hlive
        have hy' := h.kernel.home y hy
        have h1 := hp.1
        have h3 := hy'.pcbBlock.2.1
        simp only [SizeClass.virtBase] at h1 h3
        have hkstack : p = y.kstack := hpy.resolve_left (by omega)
        rw [hkstack, List.mem_toFinset]
        exact List.mem_map_of_mem hy
      · rw [hc]
        exact le_rfl

theorem frame_taken (h : HeapInv L use live ranges s) (h' : HeapInv L use' live' ranges' s')
    (hu : s.UsedBelow m) (hu' : s'.UsedBelow m') {g : ℕ} (hg : use g = .free)
    (hg' : use' g ≠ .free) : m ≤ g ∧ g < m' := by
  have hlt := h'.pages.inv.range g hg'
  have halloc := h.pages.inv.alloc g (by omega)
  have halloc' := (h'.pages.inv.alloc g (by omega)).mpr hg'
  rw [hu' g (by omega), decide_eq_true_iff] at halloc'
  rw [hu g (by omega), decide_eq_true_iff, hg] at halloc
  have hnot : ¬ g < m := fun hlt => halloc.mp hlt rfl
  omega

/-- What one process takes: at least three frames, or four when its kernel stack needs a new
page. -/
theorem Created.frames {l : List ℕ} {isUser : Bool} (h : HeapInv L use live ranges s)
    (hc : Created L use live l s isUser x use' live' s') (h' : HeapInv L use' live' ranges' s')
    (hu : s.UsedBelow m) (hu' : s'.UsedBelow m') :
    m < 0x40000 ∧ ∃ k, (s'.domains .heap4k).nextVirtAddr =
      (s.domains .heap4k).nextVirtAddr + k * 4096 ∧ m + 3 + k ≤ m' := by
  obtain ⟨D, hD⟩ := hc.memory
  obtain ⟨f, -, -, hffree, hf⟩ := hD.stack
  obtain ⟨t, ht⟩ := hD.table
  have htfree : use t = .free := by
    by_contra hne
    have hold := hc.kept t hne
    rw [ht] at hold
    -- the directory of the table was not there before
    have hfree := hD.dir.free
    cases (h.pages.inv.tableDir t D _ hold.symm).1 with
    | inl hK => rw [hK, h.pages.inv.use_dirFrame] at hfree; cases hfree
    | inr ho => rw [ho.choose_spec] at hfree; cases hfree
  have h1 := frame_taken h h' hu hu' hD.dir.free (by rw [hD.dir.dir]; simp)
  have h2 := frame_taken h h' hu hu' hffree (by rw [hf]; simp)
  have h3 := frame_taken h h' hu hu' htfree (by rw [ht]; simp)
  have hDf : D ≠ f := by rintro rfl; rw [hD.dir.dir] at hf; cases hf
  have hDt : D ≠ t := by rintro rfl; rw [hD.dir.dir] at ht; cases ht
  have hft : f ≠ t := by rintro rfl; rw [hf] at ht; cases ht
  have hlow := hD.low
  refine ⟨by omega, ?_⟩
  cases hc.grown with
  | inl hsame => exact ⟨0, by rw [hsame]; omega, by omega⟩
  | inr hmore =>
      obtain ⟨hcursor, g, q, hgfree, hg⟩ := hmore
      have h4 := frame_taken h h' hu hu' hgfree (by rw [hg]; simp)
      have hDg : D ≠ g := by rintro rfl; rw [hD.dir.dir] at hg; cases hg
      have hfg : f ≠ g := by rintro rfl; rw [hf] at hg; cases hg
      have htg : t ≠ g := by rintro rfl; rw [ht] at hg; cases hg
      exact ⟨1, by rw [hcursor], by omega⟩

/-- The next process. -/
theorem Creating.step (h : Creating L use live ranges procs m s) {func : ℕ} {isUser : Bool}
    {r : Option Process} (hr : L.createProcess func isUser s = .ok r s') :
    ∃ use' m', Creating L use' (liveCreated live r) ranges (procs ++ r.toList) m' s' := by
  have hhigh := h.high
  obtain ⟨l, -, -, hends⟩ := h.kernel.createProcess (n := 0) le_rfl
    (h.used.room (by norm_num) (by omega)) h.region func isUser
  obtain ⟨x, use', live', rfl, hkernel', hc, -⟩ := hends.ok hr
  have hlive : liveCreated live (some x) = live' := hc.blocks.symm
  -- the frames in use are again the lowest ones
  have hpacked : Packed L (m + 11) (0 + 11) s := ⟨m, h.low, by omega, h.used⟩
  obtain ⟨m', hlow', hle', hused'⟩ :=
    (((frameCount_packed L (M := m + 11) (by omega)).createProcess func isUser).ends hpacked).ok hr
  obtain ⟨c, hcursor, hframes⟩ := h.frames
  obtain ⟨hlt, k, hgrown, hmore⟩ := hc.frames h.kernel.heap hkernel'.heap h.used hused'
  rw [hlive]
  refine ⟨use', m', hkernel', hused', hlow', by omega, ⟨c + k, ?_, ?_⟩, fun p hp => ?_, fun _ => ?_⟩
  · rw [hgrown, hcursor]
    omega
  · rw [List.length_append, Option.toList_some, List.length_singleton]
    omega
  · rw [hc.blocks] at hp
    by_cases hk : p = x.kstack
    · exact ⟨x, by simp, Or.inr hk⟩
    · rw [Function.update_of_ne hk] at hp
      by_cases hpcb : p = x.pcb
      · exact ⟨x, by simp, Or.inl hpcb⟩
      · rw [Function.update_of_ne hpcb] at hp
        obtain ⟨y, hy, hpy⟩ := h.mine p hp
        exact ⟨y, List.mem_append_left _ hy, hpy⟩
  · have hlist := hc.list
    intro h0
    rw [h0] at hlist
    have hnil := hlist.eq_nil
    split_ifs at hnil
    exact absurd hnil (by simp)

theorem Booted.creating (h : Booted L use m s) : Creating L use noLive noLive [] m s where
  kernel := h.kernelInv
  used := h.used
  low := h.image_le
  high := by
    have := h.few
    omega
  frames := by
    refine ⟨256, h.cursor _, ?_⟩
    have hK : L.kernelFrames = L.dirFrame + 258 := rfl
    have hlow := L.low
    have himage := h.image_le
    rw [List.length_nil]
    omega
  mine p hp := absurd rfl hp
  head hne := absurd rfl hne

theorem Booted.createProcess_ok (h : Booted L use m s) (func : ℕ) :
    ∃ x s' use' live', L.createProcess func false s = .ok (some x) s' ∧
      KernelInv L use' live' noLive [x] s' ∧
      Created L use noLive [] s false x use' live' s' := by
  have hfew := h.few
  obtain ⟨l, hl, hmem, hends⟩ := h.kernelInv.createProcess (n := 0) (m := 0x40000) (by norm_num)
    (h.used.room (by norm_num) (by omega)) h.creating.region func false
  have hnil : l = [] := by
    rw [h.noList.2] at hl
    exact hl.eq_nil
  subst hnil
  obtain ⟨r, s', hr, x, use', live', rfl, h', hc, -⟩ := (hends.mono (fun _ _ hq => hq) fun _ hE => by
    rcases hE with hlt | ⟨hu, -⟩ | ⟨hindex, -⟩
    · exact absurd hlt (lt_irrefl _)
    · cases hu
    · exact hindex h.noList.1).exists_ok
  exact ⟨x, s', use', live', hr, h', hc⟩

theorem Booted.createProcess_run (h : Booted L use m s) {mem : ℕ → ℕ → Word}
    (hboot : L.boot (State.powerOn mem) = .ok () s) (func : ℕ) :
    ∃ x s', L.createProcess func false s = .ok (some x) s' ∧
      KernelRun L (WithinLimits L) CreateWithin (liveCreated noLive (some x)) [x] s' := by
  have hfew := h.few
  obtain ⟨x, s', -, -, hr, -, -⟩ := h.createProcess_ok func
  have hpacked : Packed L (m + 11) (0 + 11) s := ⟨m, h.image_le, by omega, h.used⟩
  obtain ⟨m', -, hle, hused⟩ :=
    (((frameCount_packed L (M := m + 11) (by omega)).createProcess func false).ends hpacked).ok hr
  exact ⟨x, s', hr, (KernelRun.boot hboot).create hr
    ⟨hused.framesLow (by omega), h.creating.region⟩⟩

end Steps

theorem CreateRun.creating {L : Layout} {live : ℕ → Option ℕ} {procs : List Process} {s : State}
    (run : CreateRun L live procs s) :
    ∃ use ranges m, Creating L use live ranges procs m s := by
  induction run with
  | @boot mem t h =>
      obtain ⟨use, m, t', hrun, hb⟩ := L.boot_spec mem
      rw [hrun] at h
      cases h
      exact ⟨use, noLive, m, hb.creating⟩
  | heap run legal own hr guard ih => exact guard.elim
  | create run hr guard ih =>
      obtain ⟨use, ranges, m, h⟩ := ih
      obtain ⟨use', m', h'⟩ := h.step hr
      exact ⟨use', ranges, m', h'⟩

end RaxzusHeap
