import RaxzusHeap.Scheduler
import RaxzusHeap.Lib.Bytes

/-! # The timer interrupt (`isr_wrapper_32`)

The machine as a context switch sees it: the registers, memory by page directory, and the
variables of the scheduler.

* **Memory.** The stack page and the code page of the process layout are private to each
  directory, everything else looks the same under all of them.  `Memory` keeps a byte for
  each address of each directory (`some d`) and of the shared part (`none`); `Memory.view` is
  what the machine sees under one directory.  Process control blocks are the records of
  `Sched`.
* **Privilege.** An interrupt from ring 3 pushes five words on the stack `tss.esp0` names, an
  interrupt from ring 0 three words on the running stack; `iret` pops what it finds from the
  ring of the `CS` it pops.
* **Instructions** of the stub that touch the state are one function or one record update
  each, in the order of `interrupt_stubs.s`. -/

namespace RaxzusHeap

open Bytes Linked

/-- What a process has in the processor, apart from `SS`. -/
structure Context where
  eax : Word
  ebx : Word
  ecx : Word
  edx : Word
  ebp : Word
  esi : Word
  edi : Word
  esp : Word
  eip : Word
  cs : Word
  eflags : Word
  cr3 : Word
deriving DecidableEq

/-- The processor. -/
structure Cpu extends Context where
  ss : Word

/-- Memory by directory: `some d` for the pages private to `d`, `none` for the rest. -/
abbrev Memory := Option Word → Mem

/-- The addresses at which every process has pages of its own. -/
def PrivateAddr (a : ℕ) : Prop :=
  (PROC_STACK_VIRT ≤ a ∧ a < PROC_STACK_VIRT + PROC_STACK_SIZE) ∨
    (PROC_CODE_VIRT ≤ a ∧ a < PROC_CODE_VIRT + 4096)

instance (a : ℕ) : Decidable (PrivateAddr a) := inferInstanceAs (Decidable (_ ∨ _))

/-- Which memory address `a` belongs to under directory `d`. -/
def home (d : Word) (a : ℕ) : Option Word := if PrivateAddr a then some d else none

/-- Memory as seen under directory `d`. -/
def Memory.view (mem : Memory) (d : Word) : Mem := fun a => mem (home d a) a

/-- Memory after everything seen under `d` was replaced by `m`. -/
def Memory.setView (mem : Memory) (d : Word) (m : Mem) : Memory :=
  fun h a => if h = home d a then m a else mem h a

/-- The machine. -/
structure Os where
  cpu : Cpu
  mem : Memory
  sched : Sched
  espAddressVariable : Word

/-- The ring a code segment selector stands for. -/
def privilege (cs : Word) : ℕ := cs.toNat % 4

/-- What a call of the C handler leaves in the registers it may use and on the stack below
the stack pointer. -/
structure Scratch where
  depth : ℕ
  bytes : Mem
  ecx : Word
  edx : Word

/-- What the allocators handed to `create_process`. -/
structure NewProcess where
  pcb : Word
  pageDir : Word
  kstack : Word

/-- The physical address of the directory of a process. -/
def PCB.cr3 (p : PCB) : Word := p.pageDir - 0xC0000000

namespace Os

/-- Memory under the directory in CR3. -/
def view (o : Os) : Mem := o.mem.view o.cpu.cr3

/-- Push words on the running stack, the first one first. -/
def pushAll (o : Os) (ws : List Word) : Os :=
  let r := Bytes.pushAll o.view o.cpu.esp ws
  { o with
    mem := o.mem.setView o.cpu.cr3 r.1
    cpu := { o.cpu with esp := r.2 } }

/-- The word `k` places above the stack pointer. -/
def top (o : Os) (k : ℕ) : Word := stackWord o.view o.cpu.esp k

/-- The frame the processor pushes: five words on the stack of the TSS from an outer ring,
three words on the running stack from ring 0. -/
def pushInterruptFrame (o : Os) : Os :=
  let c := o.cpu
  if privilege c.cs ≠ 0 then
    Os.pushAll { o with cpu := { c with esp := o.sched.esp0, ss := 0x10 } }
      [c.ss, c.esp, c.eflags, c.cs, c.eip]
  else o.pushAll [c.eflags, c.cs, c.eip]

/-- The processor takes the interrupt. -/
def enterInterrupt (o : Os) : Os :=
  let eflags := o.cpu.eflags &&& ~~~ 0x200
  let o := o.pushInterruptFrame
  { o with cpu := { o.cpu with cs := 0x08, eflags := eflags } }

/-- `pusha`. -/
def pusha (o : Os) : Os :=
  let c := o.cpu
  o.pushAll [c.eax, c.ecx, c.edx, c.ebx, c.esp, c.ebp, c.esi, c.edi]

/-- `popa`. -/
def popa (o : Os) : Os :=
  { o with
    cpu := { o.cpu with
      edi := o.top 0
      esi := o.top 1
      ebp := o.top 2
      ebx := o.top 4
      edx := o.top 5
      ecx := o.top 6
      eax := o.top 7
      esp := o.cpu.esp + 32 } }

/-- `iret`. -/
def iret (o : Os) : Os :=
  let cpu := { o.cpu with eip := o.top 0, cs := o.top 1, eflags := o.top 2 }
  if privilege o.cpu.cs < privilege (o.top 1) then
    { o with cpu := { cpu with esp := o.top 3, ss := o.top 4 } }
  else { o with cpu := { cpu with esp := o.cpu.esp + 12 } }

/-- `call timer_interrupt_handler`. -/
def callHandler (fuel : ℕ) (x : Scratch) (o : Os) : Option Os := do
  let sched ← o.sched.timerInterruptHandler fuel
  let esp := o.cpu.esp.toNat
  pure { o with
    sched := sched
    mem := o.mem.setView o.cpu.cr3 fun a =>
      if esp - x.depth ≤ a ∧ a < esp then x.bytes a else o.view a
    cpu := { o.cpu with ecx := x.ecx, edx := x.edx } }

/-- The part of the stub between `je skip_switch` and `skip_switch`. -/
def switchProcess (o : Os) : Os :=
  let o := { o with
    sched := o.sched.setPcb o.cpu.eax fun p => { p with savedEsp := o.cpu.esp } }
  let o := { o with cpu := { o.cpu with ecx := (o.sched.pcb o.cpu.ebx).pageDir } }
  let o := { o with cpu := { o.cpu with ecx := o.cpu.ecx - 0xC0000000 } }
  let o := { o with cpu := { o.cpu with cr3 := o.cpu.ecx } }
  let o := { o with sched := { o.sched with currentProcess := o.cpu.ebx } }
  { o with cpu := { o.cpu with esp := (o.sched.pcb o.cpu.ebx).savedEsp } }

/-- `isr_wrapper_32`, from the interrupt to the end of `iret`. -/
def isrWrapper32 (fuel : ℕ) (x : Scratch) (o : Os) : Option Os := do
  let o := o.enterInterrupt.pusha
  let o := { o with espAddressVariable := o.cpu.esp }
  let o ← o.callHandler fuel x
  let o := { o with
    cpu := { o.cpu with eax := o.sched.currentProcess, ebx := o.sched.nextProcess } }
  let o := if o.cpu.eax = o.cpu.ebx then o else o.switchProcess
  pure o.popa.iret

/-- `create_process`.  The stack frame is written through the directory that maps it, where
the source goes through the direct map. -/
def createProcess (fuel func : ℕ) (isUser : Bool) (new : NewProcess) (o : Os) : Option Os := do
  let dir := new.pageDir - 0xC0000000
  let mem :=
    if isUser then
      o.mem.setView dir fun a =>
        if PROC_CODE_VIRT ≤ a ∧ a < PROC_CODE_VIRT + 4096 then o.view (func + (a - PROC_CODE_VIRT))
        else o.mem.view dir a
    else o.mem
  let stackTop := BitVec.ofNat 32 (PROC_STACK_VIRT + PROC_STACK_SIZE)
  let r := Bytes.pushAll (mem.view dir) stackTop
    ((initialFrame func isUser).map (BitVec.ofNat 32))
  let sched := o.sched.setPcb new.pcb fun _ =>
    { savedEsp := r.2
      pageDir := new.pageDir
      stackTop := stackTop
      pid := o.sched.currentIndex
      sleepTime := 0
      kernelStackTop := new.kstack + 4096
      next := 0
      prev := 0 }
  let sched ← sched.addToList fuel new.pcb
  pure { o with mem := mem.setView dir r.1, sched := sched }

/-- `init_process_scheduler`. -/
def initProcessScheduler (fuel func : ℕ) (new : NewProcess) (o : Os) : Option Os := do
  let o := { o with sched := { o.sched with currentIndex := 0 } }
  let o ← o.createProcess fuel func false new
  let o := { o with
    sched := { o.sched with
      currentProcess := o.sched.processLists
      nextProcess := o.sched.processLists } }
  let first := o.sched.pcb o.sched.currentProcess
  let o := { o with cpu := { o.cpu with cr3 := first.pageDir - 0xC0000000 } }
  let o := { o with cpu := { o.cpu with esp := first.savedEsp } }
  pure o.popa.iret

end Os

/-! ### Views -/

section Views

variable {mem : Memory} {d : Word} {m : Mem} {h : Option Word} {a : ℕ}

theorem Memory.view_setView (mem : Memory) (d : Word) (m : Mem) : (mem.setView d m).view d = m := by
  funext a
  simp [Memory.view, Memory.setView]

theorem Memory.setView_setView (mem : Memory) (d : Word) (m m' : Mem) :
    (mem.setView d m).setView d m' = mem.setView d m' := by
  funext h a
  by_cases hh : h = home d a <;> simp [Memory.setView, hh]

theorem Memory.setView_ne (hh : h ≠ home d a) : mem.setView d m h a = mem h a := if_neg hh

theorem Memory.setView_same (hm : m a = mem.view d a) : mem.setView d m h a = mem h a := by
  by_cases hh : h = home d a
  · rw [Memory.setView, if_pos hh, hm, hh]
    rfl
  · exact Memory.setView_ne hh

theorem home_private (ha : PrivateAddr a) : home d a = some d := if_pos ha

theorem home_shared (ha : ¬ PrivateAddr a) : home d a = none := if_neg ha

end Views

/-! ### Frames -/

/-- A byte of memory that belongs to a process: its private pages and its kernel stack. -/
def PCB.Owns (p : PCB) (h : Option Word) (a : ℕ) : Prop :=
  h = some p.cr3 ∨
    (h = none ∧ p.kernelStackTop.toNat ≤ a + 4096 ∧ a < p.kernelStackTop.toNat)

/-- Two blocks whose processes keep their memory in the same place. -/
structure PCB.SamePlace (p p' : PCB) : Prop where
  dir : p'.pageDir = p.pageDir
  stack : p'.kernelStackTop = p.kernelStackTop

namespace PCB.SamePlace

variable {p p' : PCB}

theorem cr3 (h : p.SamePlace p') : p'.cr3 = p.cr3 := by rw [PCB.cr3, PCB.cr3, h.dir]

theorem owns (h : p.SamePlace p') {b : Option Word} {a : ℕ} : p'.Owns b a ↔ p.Owns b a := by
  rw [PCB.Owns, PCB.Owns, h.cr3, h.stack]

end PCB.SamePlace

/-- The words `popa` and `iret` take a context from; `x` is the one `popa` skips. -/
def Context.frame (c : Context) (x ss : Word) : List Word :=
  [c.edi, c.esi, c.ebp, x, c.ebx, c.edx, c.ecx, c.eax, c.eip, c.cs, c.eflags] ++
    if privilege c.cs = 0 then [] else [c.esp, ss]

/-- The number of bytes of the frame. -/
def Context.frameSize (c : Context) : ℕ := if privilege c.cs = 0 then 44 else 52

theorem Context.length_frame (c : Context) (x ss : Word) :
    4 * (c.frame x ss).length = c.frameSize := by
  unfold Context.frame Context.frameSize
  split <;> rfl

/-- The context `c` of the process with block `p` waits at `esp`. -/
structure FrameAt (mem : Memory) (p : PCB) (esp : Word) (c : Context) : Prop where
  words : ∃ x ss, Holds (mem.view p.cr3) esp.toNat (c.frame x ss)
  room : esp.toNat + c.frameSize ≤ 2 ^ 32
  owned : ∀ a, esp.toNat ≤ a → a < esp.toNat + c.frameSize → p.Owns (home p.cr3 a) a
  esp : privilege c.cs = 0 → c.esp = esp + 44
  cr3 : c.cr3 = p.cr3

namespace FrameAt

variable {mem mem' : Memory} {p p' : PCB} {esp : Word} {c : Context}

theorem congr (h : FrameAt mem p esp c) (hm : ∀ b a, p.Owns b a → mem' b a = mem b a) :
    FrameAt mem' p esp c := by
  obtain ⟨x, ss, hw⟩ := h.words
  refine { h with words := ⟨x, ss, hw.congr fun a h1 h2 => ?_⟩ }
  rw [Context.length_frame] at h2
  exact hm _ _ (h.owned a h1 h2)

theorem of_same (h : FrameAt mem p esp c) (hp : p.SamePlace p') : FrameAt mem p' esp c :=
  { words := by rw [hp.cr3]; exact h.words
    room := h.room
    owned := fun a h1 h2 => by rw [hp.owns, hp.cr3]; exact h.owned a h1 h2
    esp := h.esp
    cr3 := by rw [hp.cr3]; exact h.cr3 }

/-- `popa` and `iret` in ring 0 restore the context that waits at the stack pointer. -/
theorem restore {o : Os} (h : FrameAt o.mem p o.cpu.esp c) (hcr3 : o.cpu.cr3 = p.cr3)
    (hring : privilege o.cpu.cs = 0) : o.popa.iret.cpu.toContext = c := by
  obtain ⟨x, ss, hw⟩ := h.words
  have hroom := h.room
  rw [← Context.length_frame c x ss] at hroom
  have hview : o.view = o.mem.view p.cr3 := by rw [Os.view, hcr3]
  have htop : ∀ k w, (c.frame x ss)[k]? = some w → o.top k = w := fun k w hk => by
    rw [Os.top, hview]
    exact hw.stackWord hroom hk
  -- after `popa` the same words are eight places nearer
  have hnear : ∀ k, o.popa.top k = o.top (k + 8) := fun k => by
    show stackWord o.view (o.cpu.esp + 32) k = stackWord o.view o.cpu.esp (k + 8)
    rw [stackWord, stackWord, show 4 * (k + 8) = 32 + 4 * k by omega, BitVec.ofNat_add,
      ← BitVec.add_assoc]
    rfl
  have h8 : o.top 8 = c.eip := htop 8 _ rfl
  have h9 : o.top 9 = c.cs := htop 9 _ rfl
  have h10 : o.top 10 = c.eflags := htop 10 _ rfl
  have hgeneral : o.popa.cpu.toContext =
      { c with esp := o.cpu.esp + 32, eip := o.cpu.eip, cs := o.cpu.cs,
               eflags := o.cpu.eflags } := by
    show Context.mk (o.top 7) (o.top 4) (o.top 6) (o.top 5) (o.top 2) (o.top 1) (o.top 0)
      (o.cpu.esp + 32) o.cpu.eip o.cpu.cs o.cpu.eflags o.cpu.cr3 = _
    rw [htop 7 _ rfl, htop 4 _ rfl, htop 6 _ rfl, htop 5 _ rfl, htop 2 _ rfl, htop 1 _ rfl,
      htop 0 _ rfl, hcr3, ← h.cr3]
  by_cases hk : privilege c.cs = 0
  · -- the frame of ring 0: the stack pointer goes on by the three words
    have hiret : o.popa.iret.cpu.toContext =
        { o.popa.cpu.toContext with
          eip := o.popa.top 0, cs := o.popa.top 1, eflags := o.popa.top 2
          esp := o.popa.cpu.esp + 12 } := by
      unfold Os.iret
      rw [hnear 1, h9, if_neg (by omega)]
    rw [hiret, hgeneral, hnear 0, hnear 1, hnear 2, h8, h9, h10]
    show { c with esp := o.cpu.esp + 32 + 12 } = c
    have hesp := h.esp hk
    rw [show o.cpu.esp + 32 + 12 = o.cpu.esp + 44 by rw [BitVec.add_assoc]; rfl, ← hesp]
  · have hiret : o.popa.iret.cpu.toContext =
        { o.popa.cpu.toContext with
          eip := o.popa.top 0, cs := o.popa.top 1, eflags := o.popa.top 2
          esp := o.popa.top 3 } := by
      have hlt : privilege o.popa.cpu.cs < privilege c.cs := by
        rw [show o.popa.cpu.cs = o.cpu.cs from rfl, hring]
        omega
      unfold Os.iret
      rw [hnear 1, h9, if_pos hlt]
    have h11 : o.top 11 = c.esp := htop 11 _ (by rw [Context.frame, if_neg hk]; rfl)
    rw [hiret, hgeneral, hnear 0, hnear 1, hnear 2, hnear 3, h8, h9, h10, h11]

end FrameAt

/-! ### Entering the stub -/

namespace Os

@[simp] theorem iret_mem (o : Os) : o.iret.mem = o.mem := by
  unfold iret
  split <;> rfl

@[simp] theorem iret_sched (o : Os) : o.iret.sched = o.sched := by
  unfold iret
  split <;> rfl

@[simp] theorem popa_mem (o : Os) : o.popa.mem = o.mem := rfl

@[simp] theorem popa_sched (o : Os) : o.popa.sched = o.sched := rfl

/-- The stack pointer the interrupt frame is pushed from. -/
def entryStack (o : Os) : Word := if privilege o.cpu.cs = 0 then o.cpu.esp else o.sched.esp0

/-- The state at the end of `pusha`. -/
structure Entered (o o₁ : Os) : Prop where
  esp : o₁.cpu.esp.toNat = o.entryStack.toNat - o.cpu.frameSize
  words : ∃ x ss, Holds o₁.view o₁.cpu.esp.toNat (o.cpu.frame x ss)
  mem : ∀ h a, (h = home o.cpu.cr3 a → a < o₁.cpu.esp.toNat ∨ o.entryStack.toNat ≤ a) →
    o₁.mem h a = o.mem h a
  cr3 : o₁.cpu.cr3 = o.cpu.cr3
  cs : o₁.cpu.cs = 0x08
  sched : o₁.sched = o.sched

/-- A state whose memory and stack pointer are those after some pushes. -/
theorem pushes_spec {o o₁ : Os} {sp : Word} {ws : List Word} (hfit : 4 * ws.length ≤ sp.toNat)
    (hmem : o₁.mem = o.mem.setView o.cpu.cr3 (Bytes.pushAll o.view sp ws).1)
    (hesp : o₁.cpu.esp = (Bytes.pushAll o.view sp ws).2) (hcr3 : o₁.cpu.cr3 = o.cpu.cr3) :
    o₁.cpu.esp.toNat = sp.toNat - 4 * ws.length ∧
      Holds o₁.view o₁.cpu.esp.toNat ws.reverse ∧
      ∀ h a, (h = home o.cpu.cr3 a → a < o₁.cpu.esp.toNat ∨ sp.toNat ≤ a) →
        o₁.mem h a = o.mem h a := by
  obtain ⟨htop, hwords, hrest⟩ := pushAll_spec (m := o.view) hfit
  have hview : o₁.view = (Bytes.pushAll o.view sp ws).1 := by
    rw [Os.view, hcr3, hmem, Memory.view_setView]
  rw [← hesp] at htop
  refine ⟨htop, ?_, fun h a ha => ?_⟩
  · rw [hview, htop]
    exact hwords
  · rw [hmem]
    by_cases hh : h = home o.cpu.cr3 a
    · exact Memory.setView_same (hrest a (by rw [← htop]; exact ha hh))
    · exact Memory.setView_ne hh

/-- The words of `pusha`, with `x` for the stack pointer. -/
def generalWords (c : Cpu) (x : Word) : List Word :=
  [c.eax, c.ecx, c.edx, c.ebx, x, c.ebp, c.esi, c.edi]

/-- The pushes of the interrupt and of `pusha` are one sequence of pushes. -/
theorem pushAll_pusha (o : Os) (ws : List Word) (cs eflags : Word) :
    ∃ x o₁, Os.pusha { o.pushAll ws with
        cpu := { (o.pushAll ws).cpu with cs := cs, eflags := eflags } } = o₁ ∧
      o₁.mem = o.mem.setView o.cpu.cr3
        (Bytes.pushAll o.view o.cpu.esp (ws ++ generalWords o.cpu x)).1 ∧
      o₁.cpu.esp = (Bytes.pushAll o.view o.cpu.esp (ws ++ generalWords o.cpu x)).2 ∧
      o₁.cpu.cr3 = o.cpu.cr3 ∧ o₁.cpu.cs = cs ∧ o₁.sched = o.sched := by
  have hview : (o.pushAll ws).view = (Bytes.pushAll o.view o.cpu.esp ws).1 :=
    Memory.view_setView _ _ _
  refine ⟨(Bytes.pushAll o.view o.cpu.esp ws).2, _, rfl, ?_, ?_, rfl, rfl, rfl⟩
  · show (o.pushAll ws).mem.setView o.cpu.cr3 (Bytes.pushAll (o.pushAll ws).view
      (Bytes.pushAll o.view o.cpu.esp ws).2 (generalWords o.cpu _)).1 = _
    rw [hview, Bytes.pushAll_append]
    exact Memory.setView_setView _ _ _ _
  · show (Bytes.pushAll (o.pushAll ws).view (Bytes.pushAll o.view o.cpu.esp ws).2
      (generalWords o.cpu _)).2 = _
    rw [hview, Bytes.pushAll_append]
    rfl

theorem entered {o : Os} (hfit : o.cpu.frameSize ≤ o.entryStack.toNat) :
    Entered o o.enterInterrupt.pusha := by
  have hpushes : ∃ x ss,
      o.enterInterrupt.pusha.mem = o.mem.setView o.cpu.cr3
        (Bytes.pushAll o.view o.entryStack (o.cpu.frame x ss).reverse).1 ∧
      o.enterInterrupt.pusha.cpu.esp =
        (Bytes.pushAll o.view o.entryStack (o.cpu.frame x ss).reverse).2 ∧
      o.enterInterrupt.pusha.cpu.cr3 = o.cpu.cr3 ∧ o.enterInterrupt.pusha.cpu.cs = 0x08 ∧
      o.enterInterrupt.pusha.sched = o.sched := by
    by_cases hring : privilege o.cpu.cs = 0
    · have hpush : o.pushInterruptFrame = o.pushAll [o.cpu.eflags, o.cpu.cs, o.cpu.eip] :=
        if_neg (by omega)
      obtain ⟨x, o₁, rfl, hspec⟩ := pushAll_pusha o [o.cpu.eflags, o.cpu.cs, o.cpu.eip] 0x08
        (o.cpu.eflags &&& ~~~ 0x200)
      have hframe : (o.cpu.frame x o.cpu.ss).reverse =
          [o.cpu.eflags, o.cpu.cs, o.cpu.eip] ++ generalWords o.cpu x := by
        rw [Context.frame, if_pos hring]
        rfl
      refine ⟨x, o.cpu.ss, ?_⟩
      rw [hframe, enterInterrupt, hpush, show o.entryStack = o.cpu.esp from if_pos hring]
      exact hspec
    · let entry : Os := { o with cpu := { o.cpu with esp := o.sched.esp0, ss := 0x10 } }
      let user : List Word := [o.cpu.ss, o.cpu.esp, o.cpu.eflags, o.cpu.cs, o.cpu.eip]
      have hpush : o.pushInterruptFrame = entry.pushAll user := if_pos hring
      obtain ⟨x, o₁, rfl, hspec⟩ := pushAll_pusha entry user 0x08 (o.cpu.eflags &&& ~~~ 0x200)
      have hframe : (o.cpu.frame x o.cpu.ss).reverse = user ++ generalWords o.cpu x := by
        rw [Context.frame, if_neg hring]
        rfl
      refine ⟨x, o.cpu.ss, ?_⟩
      rw [hframe, enterInterrupt, hpush, show o.entryStack = o.sched.esp0 from if_neg hring]
      exact hspec
  obtain ⟨x, ss, hmem, hesp, hcr3, hcs, hsched⟩ := hpushes
  have hlen : 4 * (o.cpu.frame x ss).reverse.length = o.cpu.frameSize := by
    rw [List.length_reverse, Context.length_frame]
  obtain ⟨htop, hwords, hrest⟩ := pushes_spec (by rw [hlen]; exact hfit) hmem hesp hcr3
  rw [List.reverse_reverse] at hwords
  rw [hlen] at htop
  exact ⟨htop, ⟨x, ss, hwords⟩, hrest, hcr3, hcs, hsched⟩

/-- There is room on the running stack for the frame and for the handler. -/
def Room (o : Os) (x : Scratch) : Prop :=
  if privilege o.cpu.cs = 0 then
    PROC_STACK_VIRT + 44 + x.depth ≤ o.cpu.esp.toNat ∧
      o.cpu.esp.toNat ≤ PROC_STACK_VIRT + PROC_STACK_SIZE
  else 52 + x.depth ≤ 4096

/-- The state in which the stub compares `current_process` and `next_process`. -/
structure AtSwitch (o : Os) (fuel : ℕ) (x : Scratch) (o₂ : Os) : Prop where
  handler : o.sched.timerInterruptHandler fuel = some o₂.sched
  eax : o₂.cpu.eax = o₂.sched.currentProcess
  ebx : o₂.cpu.ebx = o₂.sched.nextProcess
  cr3 : o₂.cpu.cr3 = o.cpu.cr3
  cs : o₂.cpu.cs = 0x08
  esp : o₂.cpu.esp.toNat = o.entryStack.toNat - o.cpu.frameSize
  words : ∃ y ss, Holds o₂.view o₂.cpu.esp.toNat (o.cpu.frame y ss)
  mem : ∀ h a, (h = home o.cpu.cr3 a →
    a < o.entryStack.toNat - o.cpu.frameSize - x.depth ∨ o.entryStack.toNat ≤ a) →
    o₂.mem h a = o.mem h a

theorem callHandler_spec {o o' : Os} {fuel : ℕ} {x : Scratch}
    (hrun : o.callHandler fuel x = some o') :
    o.sched.timerInterruptHandler fuel = some o'.sched ∧
      o'.cpu = { o.cpu with ecx := x.ecx, edx := x.edx } ∧
      ∀ h a, (h = home o.cpu.cr3 a → a < o.cpu.esp.toNat - x.depth ∨ o.cpu.esp.toNat ≤ a) →
        o'.mem h a = o.mem h a := by
  simp only [callHandler, Option.bind_eq_bind, Option.bind_eq_some_iff, Option.pure_def,
    Option.some.injEq] at hrun
  obtain ⟨sched, hsched, rfl⟩ := hrun
  refine ⟨hsched, rfl, fun h a ha => ?_⟩
  show o.mem.setView o.cpu.cr3 (fun a =>
    if o.cpu.esp.toNat - x.depth ≤ a ∧ a < o.cpu.esp.toNat then x.bytes a else o.view a) h a = _
  by_cases hh : h = home o.cpu.cr3 a
  · have hout := ha hh
    exact Memory.setView_same (if_neg (by omega))
  · exact Memory.setView_ne hh

theorem isrWrapper32_eq_some {o o' : Os} {fuel : ℕ} {x : Scratch}
    (hfit : o.cpu.frameSize ≤ o.entryStack.toNat) (hrun : o.isrWrapper32 fuel x = some o') :
    ∃ o₂, AtSwitch o fuel x o₂ ∧
      o' = (if o₂.cpu.eax = o₂.cpu.ebx then o₂ else o₂.switchProcess).popa.iret := by
  have hin := entered hfit
  rw [isrWrapper32] at hrun
  generalize o.enterInterrupt.pusha = o₁ at hin hrun
  simp only [Option.bind_eq_bind, Option.bind_eq_some_iff, Option.pure_def,
    Option.some.injEq] at hrun
  obtain ⟨o₂, hcall, rfl⟩ := hrun
  obtain ⟨hsched, hcpu, hmem⟩ := callHandler_spec hcall
  obtain ⟨y, ss, hw⟩ := hin.words
  have hesp : o₂.cpu.esp = o₁.cpu.esp := by rw [hcpu]
  have hcr3 : o₂.cpu.cr3 = o.cpu.cr3 := by rw [hcpu]; exact hin.cr3
  have hview : ∀ a, o₁.cpu.esp.toNat ≤ a → o₂.view a = o₁.view a := fun a ha => by
    rw [Os.view, Os.view, Memory.view, Memory.view, hcr3, hin.cr3]
    exact hmem _ a fun _ => .inr ha
  refine ⟨{ o₂ with
      cpu := { o₂.cpu with eax := o₂.sched.currentProcess, ebx := o₂.sched.nextProcess } },
    ⟨?_, rfl, rfl, hcr3, ?_, ?_, ⟨y, ss, ?_⟩, fun h a ha => ?_⟩, rfl⟩
  · rw [← hin.sched]
    exact hsched
  · show o₂.cpu.cs = 0x08
    rw [hcpu]
    exact hin.cs
  · show o₂.cpu.esp.toNat = _
    rw [hesp]
    exact hin.esp
  · show Holds o₂.view o₂.cpu.esp.toNat _
    rw [hesp]
    exact hw.congr fun a h1 _ => hview a h1
  · show o₂.mem h a = o.mem h a
    have hbelow := hin.esp
    rw [← hin.mem h a fun hh => (ha hh).imp (by omega) id]
    refine hmem h a fun hh => ?_
    rw [show o₁.cpu.cr3 = o.cpu.cr3 from hin.cr3] at hh
    have := ha hh
    show a < o₁.cpu.esp.toNat - x.depth ∨ o₁.cpu.esp.toNat ≤ a
    omega

end Os

end RaxzusHeap
