import RaxzusHeap.CreateProcess
import RaxzusHeap.LiveData

/-! # Runs of the kernel

`KernelRun` mixes the calls of heap clients with calls of `create_process`, in any order from
`boot` on.  The blocks of a process belong to the kernel: clients neither release nor write
them.

`KernelInv` adds the processes to the invariant of the heap: each of them still has its
blocks, its directory and its private pages (`Home`), and the list of processes consists of
their blocks.  A call of the heap leaves all of that alone (`KernelInv.heapCall`), and
`create_process` adds to it (`KernelInv.create`). -/

namespace RaxzusHeap

open Imperative FirstFit Linked

/-- The pointer a client hands to the heap. -/
def HeapOp.pointer : HeapOp → Option ℕ
  | .domainFree _ p => some p
  | .kfreeLarge p => some p
  | .kfree p => some p
  | .write p _ _ => some p
  | _ => none

/-- A block that belongs to one of the processes. -/
def ProcessBlock (procs : List Process) (p : ℕ) : Prop := ∃ x ∈ procs, p = x.pcb ∨ p = x.kstack

/-- The live blocks after `create_process`. -/
def liveCreated (live : ℕ → Option ℕ) : Option Process → ℕ → Option ℕ
  | none => live
  | some x => Function.update (Function.update live x.pcb (some PCB_SIZE)) x.kstack (some 4096)

/-- One call of `create_process` in a run. -/
structure CreateCall where
  before : State
  func : ℕ
  isUser : Bool
  result : Option Process
  after : State

/-- Runs of the kernel from power-on; `procs` are the processes created so far. -/
inductive KernelRun (L : Layout) (G : HeapCall → Prop) (C : CreateCall → Prop) :
    (ℕ → Option ℕ) → List Process → State → Prop
  | boot {mem s} (h : L.boot (State.powerOn mem) = .ok () s) : KernelRun L G C noLive [] s
  | heap {live procs s op a s'} (run : KernelRun L G C live procs s) (legal : Legal live op)
      (own : ∀ p, op.pointer = some p → ¬ ProcessBlock procs p)
      (hr : L.heapCall op s = .ok a s') (guard : G ⟨live, s, op, a, s'⟩) :
      KernelRun L G C (liveAfter live op a) procs s'
  | create {live procs s func isUser r s'} (run : KernelRun L G C live procs s)
      (hr : L.createProcess func isUser s = .ok r s') (guard : C ⟨s, func, isUser, r, s'⟩) :
      KernelRun L G C (liveCreated live r) (procs ++ r.toList) s'

/-! ### What a process keeps -/

/-- The directory and the private pages of a process are where they were put. -/
structure HomeMemory (use : ℕ → Use) (x : Process) (D : ℕ) : Prop where
  pageDir : x.pageDir = KERNEL_BASE + D * 4096
  low : D < 0x40000
  dir : use D = .dir .proc
  tables : ∀ t i, use t = .table D i → i = STACK_PAGE / 1024 ∨ i = CODE_PAGE / 1024
  stack : ∃ f, x.stack = f * 4096 ∧ f < 0x40000 ∧ use f = .priv D STACK_PAGE
  code : ∀ a, x.code = some a → ∃ g, a = g * 4096 ∧ g < 0x40000 ∧ use g = .priv D CODE_PAGE

/-- A process has its blocks, its memory and the fields that say where they are. -/
structure Home (L : Layout) (use : ℕ → Use) (live : ℕ → Option ℕ) (s : State) (x : Process) :
    Prop where
  pcb : live x.pcb = some PCB_SIZE
  pcbBlock : SizeClass.heap128.IsBlock (SizeClass.heap128.virtBase + 0x10000000) x.pcb
  kstack : live x.kstack = some 4096
  kstackBlock : SizeClass.heap4k.IsBlock (SizeClass.heap4k.virtBase + 0x10000000) x.kstack
  memory : ∃ D, HomeMemory use x D
  pageDir : L.fields s x.pcb .pageDir = some x.pageDir
  kernelStackTop : L.fields s x.pcb .kernelStackTop = some (x.kstack + 4096)

/-- The kernel between two calls. -/
structure KernelInv (L : Layout) (use : ℕ → Use) (live ranges : ℕ → Option ℕ)
    (procs : List Process) (s : State) : Prop where
  heap : HeapInv L use live ranges s
  home : ∀ x ∈ procs, Home L use live s x
  list : ∃ l, ProcChain L s s.processLists l ∧ ∀ q ∈ l, ∃ x ∈ procs, x.pcb = q
  index : s.currentIndex < 2 ^ 16

section Steps

variable {L : Layout} {use use' : ℕ → Use} {live live' ranges ranges' : ℕ → Option ℕ}
  {procs : List Process} {s s' : State} {x : Process} {op : HeapOp} {a n m : ℕ}

/-- Labels other than those of heap pages stay, and old process directories get no tables. -/
structure KeepsProcesses (use use' : ℕ → Use) : Prop where
  kept : ∀ g, use g ≠ .free → (∀ p, use g ≠ .page p) → use' g = use g
  tables : ∀ c, use c = .dir .proc → ∀ t i, use' t = .table c i → use t = .table c i

theorem HomeMemory.keep {D : ℕ} (h : HomeMemory use x D) (hk : KeepsProcesses use use') :
    HomeMemory use' x D where
  pageDir := h.pageDir
  low := h.low
  dir := by rw [hk.kept D (by rw [h.dir]; simp) (by rw [h.dir]; simp), h.dir]
  tables t i ht := h.tables t i (hk.tables D h.dir t i ht)
  stack := by
    obtain ⟨f, hx, hlow, hf⟩ := h.stack
    exact ⟨f, hx, hlow, by rw [hk.kept f (by rw [hf]; simp) (by rw [hf]; simp), hf]⟩
  code a ha := by
    obtain ⟨g, hx, hlow, hg⟩ := h.code a ha
    exact ⟨g, hx, hlow, by rw [hk.kept g (by rw [hg]; simp) (by rw [hg]; simp), hg]⟩

theorem Effect.keepsProcesses (he : Effect L use live ranges s op a use' ranges' s')
    (h : HeapPages L use s) : KeepsProcesses use use' := by
  cases he with
  | popped _ _ hpop =>
      exact ⟨fun g hg _ => hpop.kept g hg, fun c hc t i ht => hpop.tables h hc ht⟩
  | pushed => exact ⟨fun _ _ _ => rfl, fun _ _ _ _ ht => ht⟩
  | carved _ hc => exact ⟨fun g hg hp => hc.labels.kept g hg fun p _ => hp p, hc.labels.tables⟩
  | returned _ _ hret =>
      exact ⟨fun g hg hp => hret.labels.kept g hg fun p _ => hp p, hret.labels.tables⟩
  | wrote => exact ⟨fun _ _ _ => rfl, fun _ _ _ _ ht => ht⟩
  | refused => exact ⟨fun _ _ _ => rfl, fun _ _ _ _ ht => ht⟩

theorem Effect.processVars (he : Effect L use live ranges s op a use' ranges' s') :
    s'.currentIndex = s.currentIndex ∧ s'.processLists = s.processLists := by
  cases he with
  | popped _ _ hpop => exact ⟨hpop.others.currentIndex, hpop.others.processLists⟩
  | pushed _ _ _ _ hothers => exact ⟨hothers.currentIndex, hothers.processLists⟩
  | carved _ hc => exact ⟨hc.vars.currentIndex, hc.vars.processLists⟩
  | returned _ _ hret => exact ⟨hret.vars.currentIndex, hret.vars.processLists⟩
  | wrote _ _ _ _ hst => exact ⟨hst.vars.currentIndex, hst.vars.processLists⟩
  | refused => exact ⟨rfl, rfl⟩

theorem HeapOp.pointer_of_freed {p : ℕ} (h : op.freed = some p) : op.pointer = some p := by
  cases op with
  | domainFree | kfreeLarge | kfree => exact h
  | domainAlloc | kmallocLarge | kmalloc | write => cases h

theorem Effect.blockWords (he : Effect L use live ranges s op a use' ranges' s')
    (h : HeapInv L use live ranges s) (h' : HeapInv L use' (liveAfter live op a) ranges' s')
    (hfit : SizesFit live) {p : ℕ} (hp : live p = some n) (hother : op.pointer ≠ some p) {b : ℕ}
    (h1 : p ≤ b) (h2 : b < p + n) : s'.peek L.dirFrame b = s.peek L.dirFrame b := by
  by_cases hop : ∃ q k v, op = .write q k v
  · obtain ⟨q, k, v, rfl⟩ := hop
    cases he with
    | wrote hq hk hpeek hw hst =>
        have hqp : p ≠ q := fun e => hother (congrArg some e.symm)
        rw [hst.peek b (h.backed_live hp (hfit p n hp) h1 h2), if_neg]
        exact h.live_apart hp hq hqp (hfit p n hp) (hfit q _ hq) h1 h2 (Nat.le_add_right q k)
          (by omega)
    | popped hop => cases hop
    | pushed hop => cases hop
    | carved hop => cases hop
    | returned hop => cases hop
    | refused hop => cases hop
  · exact he.quiet h h' (fun q k v hw => hop ⟨q, k, v, hw⟩) hp (hfit p n hp)
      (fun hf => hother (HeapOp.pointer_of_freed hf)) h1 h2

/-- A call of a client keeps the processes. -/
theorem KernelInv.heapCall (h : KernelInv L use live ranges procs s)
    (he : Effect L use live ranges s op a use' ranges' s')
    (h' : HeapInv L use' (liveAfter live op a) ranges' s') (hfit : SizesFit live)
    (hown : ∀ p, op.pointer = some p → ¬ ProcessBlock procs p) :
    KernelInv L use' (liveAfter live op a) ranges' procs s' := by
  have hother : ∀ x ∈ procs, op.pointer ≠ some x.pcb ∧ op.pointer ≠ some x.kstack := fun x hx =>
    ⟨fun hp => hown _ hp ⟨x, hx, Or.inl rfl⟩, fun hp => hown _ hp ⟨x, hx, Or.inr rfl⟩⟩
  have hfields : ∀ x ∈ procs, L.fields s' x.pcb = L.fields s x.pcb := by
    intro x hx
    funext field
    have hlt := field.offset_lt
    exact he.blockWords h.heap h' hfit (h.home x hx).pcb (hother x hx).1 (by omega) (by omega)
  obtain ⟨hindex, hlists⟩ := he.processVars
  have hkeeps := he.keepsProcesses h.heap.pages
  refine ⟨h', fun x hx => ?_, ?_, by rw [hindex]; exact h.index⟩
  · have hx' := h.home x hx
    obtain ⟨D, hD⟩ := hx'.memory
    exact
      { pcb := he.live_kept hx'.pcb fun hf => (hother x hx).1 (HeapOp.pointer_of_freed hf)
        pcbBlock := hx'.pcbBlock
        kstack := he.live_kept hx'.kstack fun hf => (hother x hx).2 (HeapOp.pointer_of_freed hf)
        kstackBlock := hx'.kstackBlock
        memory := ⟨D, hD.keep hkeeps⟩
        pageDir := by rw [hfields x hx]; exact hx'.pageDir
        kernelStackTop := by rw [hfields x hx]; exact hx'.kernelStackTop }
  · obtain ⟨l, hl, hmem⟩ := h.list
    refine ⟨l, ?_, hmem⟩
    rw [hlists]
    refine hl.congr fun q hq => ?_
    obtain ⟨x, hx, rfl⟩ := hmem q hq
    rw [hfields x hx]

theorem KernelInv.list_live (h : KernelInv L use live ranges procs s) {l : List ℕ}
    (hmem : ∀ q ∈ l, ∃ x ∈ procs, x.pcb = q) : ∀ q ∈ l, live q = some PCB_SIZE := by
  intro q hq
  obtain ⟨x, hx, rfl⟩ := hmem q hq
  exact (h.home x hx).pcb

/-- A new process. -/
theorem Created.home {l : List ℕ} {isUser : Bool}
    (hc : Created L use live l s isUser x use' live' s') : Home L use' live' s' x where
  pcb := by
    rw [hc.blocks, Function.update_of_ne hc.apart.symm, Function.update_self]
  pcbBlock := hc.pcbBlock
  kstack := by rw [hc.blocks, Function.update_self]
  kstackBlock := hc.kstackBlock
  memory := by
    obtain ⟨D, hD⟩ := hc.memory
    obtain ⟨f, hx, hlow, -, hf⟩ := hD.stack
    refine ⟨D, hD.pageDir, hD.low, hD.dir.dir, hD.dir.tables, ⟨f, hx, hlow, hf⟩, fun a ha => ?_⟩
    have hcode := hD.code
    cases isUser with
    | true =>
        obtain ⟨g, hg, hlow, -, hlabel⟩ := hcode
        rw [hg] at ha
        cases ha
        exact ⟨g, rfl, hlow, hlabel⟩
    | false =>
        rw [show x.code = none from hcode] at ha
        cases ha
  pageDir := hc.pageDir
  kernelStackTop := hc.kernelStackTop

theorem Created.lives {l : List ℕ} {isUser : Bool}
    (hc : Created L use live l s isUser x use' live' s') {p : ℕ} (hp : live p = some n) :
    live' p = some n := by
  have hpcb : p ≠ x.pcb := by rintro rfl; rw [hc.pcb] at hp; cases hp
  have hkstack : p ≠ x.kstack := by rintro rfl; rw [hc.kstack] at hp; cases hp
  rw [hc.blocks, Function.update_of_ne hkstack, Function.update_of_ne hpcb, hp]

/-- A process more. -/
theorem KernelInv.create (h : KernelInv L use live ranges procs s) {l : List ℕ} {isUser : Bool}
    (hmem : ∀ q ∈ l, ∃ x ∈ procs, x.pcb = q)
    (hc : Created L use live l s isUser x use' live' s') (h' : HeapInv L use' live' ranges' s') :
    KernelInv L use' live' ranges' (procs ++ [x]) s' := by
  refine ⟨h', fun y hy => ?_, ⟨_, hc.list, fun q hq => ?_⟩, ?_⟩
  · cases List.mem_append.mp hy with
    | inl hy =>
        have hy' := h.home y hy
        obtain ⟨D, hD⟩ := hy'.memory
        exact
          { pcb := hc.lives hy'.pcb
            pcbBlock := hy'.pcbBlock
            kstack := hc.lives hy'.kstack
            kstackBlock := hy'.kstackBlock
            memory := ⟨D, hD.keep ⟨fun g hg _ => hc.kept g hg, hc.tables⟩⟩
            pageDir := by rw [hc.fields _ hy'.pcb _ (by simp) (by simp), hy'.pageDir]
            kernelStackTop := by rw [hc.fields _ hy'.pcb _ (by simp) (by simp), hy'.kernelStackTop] }
    | inr hy => rw [List.mem_singleton.mp hy]; exact hc.home
  · have hq' : q ∈ l ∨ q = x.pcb := by
      split_ifs at hq
      · exact Or.inr (List.mem_singleton.mp hq)
      · exact (List.mem_append.mp hq).imp_right List.mem_singleton.mp
    cases hq' with
    | inl hql =>
        obtain ⟨y, hy, rfl⟩ := hmem q hql
        exact ⟨y, List.mem_append_left _ hy, rfl⟩
    | inr hqx => exact ⟨x, by simp, hqx.symm⟩
  · rw [hc.index]
    exact Nat.mod_lt _ (by norm_num)

theorem KernelInv.createProcess (h : KernelInv L use live ranges procs s) (hm : m ≤ 0x50000)
    (hroom : RoomBelow m (n + 12) s)
    (hregion : ∀ d, d = .heap128 ∨ d = .heap4k → (s.domains d).nextFreeBlock = 0 →
      (s.domains d).nextVirtAddr < d.virtBase + 0x10000000) (func : ℕ) (isUser : Bool) :
    ∃ l, ProcChain L s s.processLists l ∧ (∀ q ∈ l, ∃ x ∈ procs, x.pcb = q) ∧
      Ends (L.createProcess func isUser) s
        (fun r s' => ∃ x use' live', r = some x ∧ KernelInv L use' live' ranges (procs ++ [x]) s' ∧
          Created L use live l s isUser x use' live' s' ∧ RoomBelow m n s')
        (fun _ => 0x40000 < m ∨ (isUser = true ∧ ¬ KernelCode func) ∨
          (s.currentIndex ≠ 0 ∧ l = [])) := by
  obtain ⟨l, hl, hmem⟩ := h.list
  refine ⟨l, hl, hmem, ?_⟩
  apply (h.heap.createProcess hm hroom hregion hl (h.list_live hmem) h.index func isUser).mono
  · rintro r s' ⟨x, use', live', rfl, h', hc, hleft⟩
    exact ⟨x, use', live', rfl, h.create hmem hc h', hc, hleft⟩
  · exact fun _ hE => hE

end Steps

/-! ### Runs within the limits -/

/-- The call leaves all frames from 1 GB on alone and exhausts no region. -/
structure CreateWithin (c : CreateCall) : Prop where
  frames : c.after.FramesLow
  region : ∀ d, d = .heap128 ∨ d = .heap4k → (c.before.domains d).nextFreeBlock = 0 →
    (c.before.domains d).nextVirtAddr < d.virtBase + 0x10000000

/-- What holds in a run within the limits. -/
structure BoundedKernel (L : Layout) (live : ℕ → Option ℕ) (procs : List Process) (s : State) :
    Prop where
  kernel : ∃ use ranges, KernelInv L use live ranges procs s
  low : s.FramesLow
  fit : SizesFit live

theorem Booted.kernelInv {L : Layout} {use : ℕ → Use} {m : ℕ} {s : State} (h : Booted L use m s) :
    KernelInv L use noLive noLive [] s where
  heap := h.heap
  home x hx := absurd hx List.not_mem_nil
  list := by
    refine ⟨[], ?_, fun q hq => absurd hq List.not_mem_nil⟩
    rw [h.noList.2]
    exact Chain.nil
  index := by
    rw [h.noList.1]
    norm_num

section Runs

variable {L : Layout} {live : ℕ → Option ℕ} {procs : List Process} {s s' : State}

theorem State.FramesLow.roomBelow (h : s.FramesLow) {n : ℕ} (hn : n ≤ 0x10000) :
    RoomBelow 0x50000 n s := by
  refine (Room.of_interval fun f h1 h2 => h f h1 (by omega)).mono ?_ le_rfl
  omega

theorem BoundedKernel.heapCall {op : HeapOp} {a : ℕ} (h : BoundedKernel L live procs s)
    (hlegal : Legal live op) (hown : ∀ p, op.pointer = some p → ¬ ProcessBlock procs p)
    (hr : L.heapCall op s = .ok a s') (hG : WithinLimits L ⟨live, s, op, a, s'⟩) :
    BoundedKernel L (liveAfter live op a) procs s' := by
  obtain ⟨use, ranges, hk⟩ := h.kernel
  obtain ⟨use', ranges', h', he, hfit⟩ := HeapInv.callWithin (c := ⟨live, s, op, a, s'⟩) hk.heap
    h.low h.fit hlegal hr hG
  exact ⟨⟨use', ranges', hk.heapCall he h' h.fit hown⟩, hG.frames, hfit⟩

theorem BoundedKernel.create {func : ℕ} {isUser : Bool} {r : Option Process}
    (h : BoundedKernel L live procs s) (hr : L.createProcess func isUser s = .ok r s')
    (hC : CreateWithin ⟨s, func, isUser, r, s'⟩) :
    BoundedKernel L (liveCreated live r) (procs ++ r.toList) s' := by
  obtain ⟨use, ranges, hk⟩ := h.kernel
  obtain ⟨l, -, -, hends⟩ := hk.createProcess (n := 0) le_rfl (h.low.roomBelow (by norm_num))
    hC.region func isUser
  obtain ⟨x, use', live', rfl, h', hc, -⟩ := hends.ok hr
  have hlive : liveCreated live (some x) = live' := hc.blocks.symm
  rw [hlive]
  refine ⟨⟨use', ranges, h'⟩, hC.frames, ?_⟩
  rw [← hlive]
  exact (h.fit.update _ (by norm_num [PCB_SIZE])).update _ (by norm_num)

theorem KernelRun.bounded (run : KernelRun L (WithinLimits L) CreateWithin live procs s) :
    BoundedKernel L live procs s := by
  induction run with
  | @boot mem t h =>
      obtain ⟨use, m, t', hrun, hb⟩ := L.boot_spec mem
      rw [hrun] at h
      cases h
      exact ⟨⟨use, noLive, hb.kernelInv⟩, hb.bounded.low, hb.bounded.fit⟩
  | heap run legal own hr guard ih => exact ih.heapCall legal own hr guard
  | create run hr guard ih => exact ih.create hr guard

end Runs

end RaxzusHeap
