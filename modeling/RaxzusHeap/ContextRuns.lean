import RaxzusHeap.ContextSwitch

/-! # Runs of processes under the timer

A run starts with `init_process_scheduler` and goes on with steps of the running process,
calls of `create_process` and timer interrupts, in any order.  `Run o l ctx` keeps with the
machine `o` the processes `l` created so far and, for each of them, the context `ctx` it had
when it was last interrupted, or that of its first frame if it never ran.

`Inv` says that every process but the running one waits in a frame of its own memory
(`FrameAt`) from which `popa` and `iret` take just that context; `contexts_preserved` reads
off what a timer interrupt resumes. -/

namespace RaxzusHeap

open Bytes Linked

/-- The context `create_process` lays out. -/
def initialContext (func : ℕ) (isUser : Bool) (pageDir : Word) : Context where
  eax := 0
  ebx := 0
  ecx := 0
  edx := 0
  ebp := 0
  esi := 0
  edi := 0
  esp := BitVec.ofNat 32 (PROC_STACK_VIRT + PROC_STACK_SIZE)
  eip := if isUser then BitVec.ofNat 32 PROC_CODE_VIRT else BitVec.ofNat 32 func
  cs := if isUser then 0x1B else 0x08
  eflags := 0x202
  cr3 := pageDir - 0xC0000000

namespace Os

variable {o o' : Os} {l : List Word} {ctx : Word → Context} {fuel func : ℕ} {isUser : Bool}
  {new : NewProcess} {x : Scratch}

/-- The block of a new process. -/
def newBlock (o : Os) (new : NewProcess) (savedEsp : Word) : PCB where
  savedEsp := savedEsp
  pageDir := new.pageDir
  stackTop := BitVec.ofNat 32 (PROC_STACK_VIRT + PROC_STACK_SIZE)
  pid := o.sched.currentIndex
  sleepTime := 0
  kernelStackTop := new.kstack + 4096
  next := 0
  prev := 0

theorem initialContext_privilege (func : ℕ) (isUser : Bool) (pageDir : Word) :
    privilege (initialContext func isUser pageDir).cs = if isUser then 3 else 0 := by
  cases isUser <;> simp [privilege, initialContext]

theorem initialFrame_reverse (func : ℕ) (isUser : Bool) (pageDir : Word) :
    ((initialFrame func isUser).map (BitVec.ofNat 32)).reverse =
      (initialContext func isUser pageDir).frame 0 0x23 := by
  rw [Context.frame, initialContext_privilege]
  cases isUser <;> rfl

/-- `create_process` leaves a frame of the initial context in the new process's stack page
and touches nothing but the pages of the new directory. -/
theorem createProcess_eq_some (hrun : o.createProcess fuel func isUser new = some o') :
    o'.cpu = o.cpu ∧
      (∀ h a, h ≠ some (new.pageDir - 0xC0000000) → o'.mem h a = o.mem h a) ∧
      ∃ esp, Sched.addToList fuel
          (o.sched.setPcb new.pcb fun _ => o.newBlock new esp) new.pcb = some o'.sched ∧
        FrameAt o'.mem (o.newBlock new esp) esp (initialContext func isUser new.pageDir) := by
  rw [createProcess] at hrun
  generalize hcode : (if isUser then o.mem.setView (new.pageDir - 0xC0000000) fun a =>
    if PROC_CODE_VIRT ≤ a ∧ a < PROC_CODE_VIRT + 4096 then o.view (func + (a - PROC_CODE_VIRT))
    else o.mem.view (new.pageDir - 0xC0000000) a else o.mem) = mem at hrun
  have hmem : ∀ h a, h ≠ some (new.pageDir - 0xC0000000) → mem h a = o.mem h a := fun h a hh => by
    rw [← hcode]
    split
    · by_cases ha : PrivateAddr a
      · exact Memory.setView_ne (by rwa [home_private ha])
      · exact Memory.setView_same (if_neg fun hc => ha (.inr hc))
    · rfl
  have hlen := Context.length_frame (initialContext func isUser new.pageDir) 0 0x23
  rw [← initialFrame_reverse, List.length_reverse] at hlen
  have hsize : (initialContext func isUser new.pageDir).frameSize =
      if isUser then 52 else 44 := by
    rw [Context.frameSize, initialContext_privilege]
    cases isUser <;> rfl
  have htop : (BitVec.ofNat 32 (PROC_STACK_VIRT + PROC_STACK_SIZE)).toNat = 0xC0000000 := by
    decide
  have hle : (initialContext func isUser new.pageDir).frameSize ≤ 52 := by
    rw [hsize]
    split <;> omega
  obtain ⟨hesp, hwords, hrest⟩ := pushAll_spec
    (m := mem.view (new.pageDir - 0xC0000000))
    (by rw [hlen, htop]; omega)
  rw [hlen, htop] at hesp hwords hrest
  simp only [Option.bind_eq_bind, Option.bind_eq_some_iff, Option.pure_def,
    Option.some.injEq] at hrun
  obtain ⟨sched, hadd, rfl⟩ := hrun
  refine ⟨rfl, fun h a hh => ?_, _, hadd, ?_⟩
  · show mem.setView _ _ h a = _
    rw [← hmem h a hh]
    by_cases ha : PrivateAddr a
    · exact Memory.setView_ne (by rwa [home_private ha])
    · refine Memory.setView_same (hrest a ?_)
      by_contra hin
      exact ha (.inl ⟨by unfold PROC_STACK_VIRT; omega,
        by unfold PROC_STACK_VIRT PROC_STACK_SIZE; omega⟩)
  · refine ⟨⟨0, 0x23, ?_⟩, ?_, fun a h1 h2 => ?_, fun hk => ?_, rfl⟩
    · show Holds ((mem.setView (new.pageDir - 0xC0000000) _).view (new.pageDir - 0xC0000000)) _ _
      rw [Memory.view_setView, hesp, ← initialFrame_reverse]
      exact hwords
    · omega
    · refine .inl (home_private (.inl ⟨?_, ?_⟩))
      · unfold PROC_STACK_VIRT
        omega
      · unfold PROC_STACK_VIRT PROC_STACK_SIZE
        omega
    · have h44 : (initialContext func isUser new.pageDir).frameSize = 44 := if_pos hk
      apply BitVec.eq_of_toNat_eq
      rw [BitVec.toNat_add, hesp, h44]
      exact htop

/-! ### Runs -/

/-- A step of the running process: it may change its registers, its own memory, shared memory
that is nobody's kernel stack, and its own `sleep_time`; not its ring or its directory. -/
structure ProcessStep (l : List Word) (o o' : Os) : Prop where
  cr3 : o'.cpu.cr3 = o.cpu.cr3
  ring : privilege o'.cpu.cs = privilege o.cpu.cs
  mem : ∀ q ∈ l, q ≠ o.sched.currentProcess → ∀ h a, (o.sched.pcb q).Owns h a →
    o'.mem h a = o.mem h a
  sched : ∃ t, o'.sched =
    o.sched.setPcb o.sched.currentProcess fun p => { p with sleepTime := t }

/-- What the allocators hand out is nobody's: the block, the directory, and a kernel stack
outside the private pages. -/
structure Fresh (o : Os) (l : List Word) (new : NewProcess) : Prop where
  pcb_ne : new.pcb ≠ 0
  pcb_new : new.pcb ∉ l
  dir : ∀ q ∈ l, (o.sched.pcb q).pageDir ≠ new.pageDir
  noWrap : new.kstack.toNat + 4096 < 2 ^ 32
  shared : ∀ a, new.kstack.toNat ≤ a → a < new.kstack.toNat + 4096 → ¬ PrivateAddr a
  kstack : ∀ q ∈ l, ∀ a, new.kstack.toNat ≤ a → a < new.kstack.toNat + 4096 →
    ¬ (o.sched.pcb q).Owns none a

/-- The interrupt flag. -/
def interruptsOn (o : Os) : Prop := o.cpu.eflags.getLsbD 9 = true

/-- The first process is started from kernel code. -/
structure Starts (o : Os) (fuel func : ℕ) (new : NewProcess) (o' : Os) : Prop where
  fresh : Fresh o [] new
  ring : privilege o.cpu.cs = 0
  run : o.initProcessScheduler fuel func new = some o'

/-- Runs of at most 65535 processes. -/
inductive Run : Os → List Word → (Word → Context) → Prop where
  | start {o o' : Os} {fuel func : ℕ} {new : NewProcess} : Starts o fuel func new o' →
      Run o' [new.pcb] fun _ => initialContext func false new.pageDir
  | step {o o' : Os} {l : List Word} {ctx : Word → Context} : Run o l ctx →
      ProcessStep l o o' → Run o' l ctx
  | create {o o' : Os} {l : List Word} {ctx : Word → Context} {fuel func : ℕ} {isUser : Bool}
      {new : NewProcess} : Run o l ctx → l.length + 1 < 65536 → Fresh o l new →
      o.createProcess fuel func isUser new = some o' →
      Run o' (l ++ [new.pcb])
        (Function.update ctx new.pcb (initialContext func isUser new.pageDir))
  | timer {o o' : Os} {l : List Word} {ctx : Word → Context} {fuel : ℕ} {x : Scratch} :
      Run o l ctx → o.interruptsOn → o.Room x → o.isrWrapper32 fuel x = some o' →
      Run o' l (Function.update ctx o.sched.currentProcess o.cpu.toContext)

/-- Every process has its own directory and its own kernel stack outside the private pages. -/
structure Places (s : Sched) (l : List Word) : Prop where
  apart : ∀ p ∈ l, ∀ q ∈ l, p ≠ q → ∀ h a, (s.pcb p).Owns h a → ¬ (s.pcb q).Owns h a
  low : ∀ p ∈ l, 4096 ≤ (s.pcb p).kernelStackTop.toNat
  shared : ∀ p ∈ l, ∀ a, (s.pcb p).Owns none a → ¬ PrivateAddr a

theorem Places.of_same {s s' : Sched} (h : Places s l)
    (hp : ∀ p ∈ l, (s.pcb p).SamePlace (s'.pcb p)) : Places s' l where
  apart p hpl q hql hne b a := by
    rw [(hp p hpl).owns, (hp q hql).owns]
    exact h.apart p hpl q hql hne b a
  low p hpl := by
    rw [(hp p hpl).stack]
    exact h.low p hpl
  shared p hpl a := by
    rw [(hp p hpl).owns]
    exact h.shared p hpl a

/-- What holds in every state of a run. -/
structure Inv (o : Os) (l : List Word) (ctx : Word → Context) : Prop where
  list : o.sched.ProcessList l
  current : o.sched.currentProcess ∈ l
  index : o.sched.currentIndex = l.length
  places : Places o.sched l
  cr3 : o.cpu.cr3 = (o.sched.pcb o.sched.currentProcess).cr3
  esp0 : privilege o.cpu.cs ≠ 0 →
    o.sched.esp0 = (o.sched.pcb o.sched.currentProcess).kernelStackTop
  saved : ∀ q ∈ l, q ≠ o.sched.currentProcess →
    FrameAt o.mem (o.sched.pcb q) (o.sched.pcb q).savedEsp (ctx q)

/-- The running stack is the current process's own, and there is room on it. -/
theorem Inv.stack_owned (h : Inv o l ctx) (hroom : o.Room x) :
    o.cpu.frameSize + x.depth ≤ o.entryStack.toNat ∧
      ∀ a, o.entryStack.toNat - o.cpu.frameSize - x.depth ≤ a → a < o.entryStack.toNat →
        (o.sched.pcb o.sched.currentProcess).Owns (home o.cpu.cr3 a) a := by
  unfold Room at hroom
  by_cases hring : privilege o.cpu.cs = 0
  · rw [if_pos hring] at hroom
    obtain ⟨hlow, hhigh⟩ := hroom
    rw [show o.entryStack = o.cpu.esp from if_pos hring,
      show o.cpu.frameSize = 44 from if_pos hring]
    refine ⟨by omega, fun a h1 h2 => .inl ?_⟩
    rw [home_private (.inl ⟨by omega, by omega⟩), h.cr3]
  · rw [if_neg hring] at hroom
    have hlow := h.places.low _ h.current
    rw [← h.esp0 hring] at hlow
    rw [show o.entryStack = o.sched.esp0 from if_neg hring,
      show o.cpu.frameSize = 52 from if_neg hring]
    refine ⟨by omega, fun a h1 h2 => ?_⟩
    have howns : (o.sched.pcb o.sched.currentProcess).Owns none a :=
      .inr ⟨rfl, by rw [← h.esp0 hring]; omega, by rw [← h.esp0 hring]; omega⟩
    rw [home_shared (h.places.shared _ h.current a howns)]
    exact howns

/-- At the comparison of the stub every process waits in its frame, the interrupted one at
the stack pointer. -/
theorem Inv.atSwitch {o₂ : Os} (h : Inv o l ctx) (hroom : o.Room x) (hat : AtSwitch o fuel x o₂) :
    FrameAt o₂.mem (o.sched.pcb o.sched.currentProcess) o₂.cpu.esp o.cpu.toContext ∧
      ∀ q ∈ l, q ≠ o.sched.currentProcess →
        FrameAt o₂.mem (o.sched.pcb q) (o.sched.pcb q).savedEsp (ctx q) := by
  obtain ⟨hfit, howned⟩ := h.stack_owned hroom
  have hesp := hat.esp
  have hlt := o.entryStack.isLt
  refine ⟨⟨?_, ?_, fun a h1 h2 => ?_, fun hk => ?_, h.cr3⟩, fun q hq hne => ?_⟩
  · obtain ⟨y, ss, hw⟩ := hat.words
    refine ⟨y, ss, ?_⟩
    rw [← h.cr3, ← hat.cr3]
    exact hw
  · show o₂.cpu.esp.toNat + o.cpu.frameSize ≤ 2 ^ 32
    omega
  · have h3 : a < o₂.cpu.esp.toNat + o.cpu.frameSize := h2
    rw [← h.cr3]
    exact howned a (by omega) (by omega)
  · have hk' : privilege o.cpu.cs = 0 := hk
    rw [show o.cpu.frameSize = 44 from if_pos hk',
      show o.entryStack = o.cpu.esp from if_pos hk'] at hesp
    rw [show o.cpu.frameSize = 44 from if_pos hk',
      show o.entryStack = o.cpu.esp from if_pos hk'] at hfit
    apply BitVec.eq_of_toNat_eq
    rw [BitVec.toNat_add, hesp]
    show o.cpu.esp.toNat = (o.cpu.esp.toNat - 44 + 44) % 2 ^ 32
    omega
  · refine (h.saved q hq hne).congr fun b a hqa => hat.mem b a fun hb => ?_
    -- a byte the stub wrote would belong to two processes
    by_contra hin
    have hcur := howned a (by omega) (by omega)
    rw [← hb] at hcur
    exact h.places.apart _ hq _ h.current hne b a hqa hcur

/-- The state before `popa`: the chosen process is current, its directory is loaded and the
stack pointer is at its frame; every other process waits. -/
structure Ready (o₃ : Os) (l : List Word) (ctx : Word → Context) (s : Sched) : Prop where
  list : o₃.sched.ProcessList l
  current : o₃.sched.currentProcess ∈ l
  next : o₃.sched.currentProcess = o₃.sched.nextProcess
  index : o₃.sched.currentIndex = s.currentIndex
  same : ∀ a, (s.pcb a).SamePlace (o₃.sched.pcb a)
  cr3 : o₃.cpu.cr3 = (o₃.sched.pcb o₃.sched.currentProcess).cr3
  esp0 : privilege (ctx o₃.sched.currentProcess).cs ≠ 0 →
    o₃.sched.esp0 = (o₃.sched.pcb o₃.sched.currentProcess).kernelStackTop
  cs : privilege o₃.cpu.cs = 0
  frame : FrameAt o₃.mem (o₃.sched.pcb o₃.sched.currentProcess) o₃.cpu.esp
    (ctx o₃.sched.currentProcess)
  saved : ∀ q ∈ l, q ≠ o₃.sched.currentProcess →
    FrameAt o₃.mem (o₃.sched.pcb q) (o₃.sched.pcb q).savedEsp (ctx q)

/-- `popa` and `iret` resume the current process and keep the invariant. -/
theorem Ready.resume {s : Sched} {o₃ : Os} (h : Ready o₃ l ctx s) (hplaces : Places s l)
    (hindex : s.currentIndex = l.length) :
    Inv o₃.popa.iret l ctx ∧
      o₃.popa.iret.cpu.toContext = ctx o₃.popa.iret.sched.currentProcess := by
  have hsched : o₃.popa.iret.sched = o₃.sched := by simp
  have hmem : o₃.popa.iret.mem = o₃.mem := by simp
  have hctx : o₃.popa.iret.cpu.toContext = ctx o₃.sched.currentProcess :=
    h.frame.restore h.cr3 h.cs
  have hcr3 : o₃.popa.iret.cpu.cr3 = (o₃.sched.pcb o₃.sched.currentProcess).cr3 := by
    rw [show o₃.popa.iret.cpu.cr3 = o₃.popa.iret.cpu.toContext.cr3 from rfl, hctx]
    exact h.frame.cr3
  refine ⟨⟨?_, ?_, ?_, ?_, ?_, fun hring => ?_, ?_⟩, by rw [hsched]; exact hctx⟩
  · rw [hsched]
    exact h.list
  · rw [hsched]
    exact h.current
  · rw [hsched, h.index, hindex]
  · rw [hsched]
    exact hplaces.of_same fun p _ => h.same p
  · rw [hsched]
    exact hcr3
  · rw [hsched]
    refine h.esp0 ?_
    rw [← hctx]
    exact hring
  · rw [hsched, hmem]
    exact h.saved

/-- The comparison of the stub and the switch make the chosen process ready, with the TSS set
to its kernel stack. -/
theorem Inv.ready {o₂ o₃ : Os} (h : Inv o l ctx) (hroom : o.Room x)
    (hat : AtSwitch o fuel x o₂)
    (ho₃ : o₃ = if o₂.cpu.eax = o₂.cpu.ebx then o₂ else o₂.switchProcess) :
    Ready o₃ l (Function.update ctx o.sched.currentProcess o.cpu.toContext) o.sched ∧
      o₃.sched.esp0 = (o₃.sched.pcb o₃.sched.currentProcess).kernelStackTop := by
  obtain ⟨hcurrent, hothers⟩ := h.atSwitch hroom hat
  have hhandled := h.list.handled h.current hat.handler
  have hpcb := hhandled.pcb
  have hsame : ∀ a, (o.sched.pcb a).SamePlace (o₂.sched.pcb a) := fun a => by
    obtain ⟨t, ht⟩ := hpcb a
    rw [ht]
    exact ⟨rfl, rfl⟩
  have hsaved : ∀ a, (o₂.sched.pcb a).savedEsp = (o.sched.pcb a).savedEsp := fun a => by
    obtain ⟨t, ht⟩ := hpcb a
    rw [ht]
  have hwait : ∀ q ∈ l, q ≠ o.sched.currentProcess →
      FrameAt o₂.mem (o₂.sched.pcb q) (o₂.sched.pcb q).savedEsp
        (Function.update ctx o.sched.currentProcess o.cpu.toContext q) := fun q hq hne => by
    rw [Function.update_of_ne hne, hsaved]
    exact (hothers q hq hne).of_same (hsame q)
  have hstopped : FrameAt o₂.mem (o₂.sched.pcb o.sched.currentProcess) o₂.cpu.esp
      (Function.update ctx o.sched.currentProcess o.cpu.toContext o.sched.currentProcess) := by
    rw [Function.update_self]
    exact hcurrent.of_same (hsame _)
  have hring : privilege o₂.cpu.cs = 0 := by
    rw [hat.cs]
    rfl
  rw [hat.eax, hat.ebx, hhandled.current] at ho₃
  by_cases hgo : o.sched.currentProcess = o₂.sched.nextProcess
  · -- the interrupted process goes on
    rw [if_pos hgo] at ho₃
    subst ho₃
    have hcur : o₃.sched.currentProcess = o.sched.currentProcess := hhandled.current
    have hesp0 : o₃.sched.esp0 = (o₃.sched.pcb o₃.sched.currentProcess).kernelStackTop := by
      rw [hhandled.esp0, ← hgo, hcur]
    refine ⟨⟨hhandled.list, ?_, ?_, hhandled.index, hsame, ?_, fun _ => hesp0, hring, ?_, ?_⟩,
      hesp0⟩
    · rw [hcur]
      exact h.current
    · rw [hcur, hgo]
    · rw [hat.cr3, h.cr3, hcur]
      exact (hsame _).cr3.symm
    · rw [hcur]
      exact hstopped
    · rw [hcur]
      exact hwait
  · -- another process is resumed; the interrupted one waits at the saved stack pointer
    rw [if_neg hgo] at ho₃
    subst ho₃
    have hnext : o₂.sched.nextProcess ≠ o.sched.currentProcess := fun e => hgo e.symm
    have hblock : ∀ a, o₂.switchProcess.sched.pcb a =
        if a = o.sched.currentProcess then { o₂.sched.pcb a with savedEsp := o₂.cpu.esp }
        else o₂.sched.pcb a := fun a => by
      show (if a = o₂.cpu.eax then _ else _) = _
      rw [hat.eax, hhandled.current]
      split
      · rename_i ha
        rw [ha]
      · rfl
    have hplace : ∀ a, (o₂.sched.pcb a).SamePlace (o₂.switchProcess.sched.pcb a) := fun a => by
      rw [hblock]
      split <;> exact ⟨rfl, rfl⟩
    have hcur : o₂.switchProcess.sched.currentProcess = o₂.sched.nextProcess := hat.ebx
    have hnew : o₂.switchProcess.sched.pcb o₂.sched.nextProcess =
        o₂.sched.pcb o₂.sched.nextProcess := by
      rw [hblock, if_neg hnext]
    have hcr3 : o₂.switchProcess.cpu.cr3 =
        (o₂.switchProcess.sched.pcb o₂.switchProcess.sched.currentProcess).cr3 := rfl
    have hesp : o₂.switchProcess.cpu.esp = (o₂.sched.pcb o₂.sched.nextProcess).savedEsp := by
      rw [← hnew, ← hat.ebx]
      rfl
    have hesp0 : o₂.switchProcess.sched.esp0 =
        (o₂.switchProcess.sched.pcb o₂.switchProcess.sched.currentProcess).kernelStackTop := by
      rw [hcur, hnew]
      exact hhandled.esp0
    refine ⟨⟨?_, ?_, hcur, ?_, fun a => ⟨?_, ?_⟩, hcr3, fun _ => hesp0, hring, ?_, ?_⟩, hesp0⟩
    · refine Chain.congr hhandled.list fun a _ => ?_
      rw [hblock]
      split <;> rfl
    · rw [hcur]
      exact hhandled.next
    · exact hhandled.index
    · rw [(hplace a).dir, (hsame a).dir]
    · rw [(hplace a).stack, (hsame a).stack]
    · rw [hcur, hnew, hesp]
      exact hwait _ hhandled.next hnext
    · intro q hq hne
      rw [hcur] at hne
      rcases eq_or_ne q o.sched.currentProcess with rfl | hqc
      · rw [hblock, if_pos rfl]
        exact hstopped.of_same ⟨rfl, rfl⟩
      · rw [hblock, if_neg hqc]
        exact hwait q hq hqc

theorem Inv.timer (h : Inv o l ctx) (hroom : o.Room x) (hrun : o.isrWrapper32 fuel x = some o') :
    Inv o' l (Function.update ctx o.sched.currentProcess o.cpu.toContext) ∧
      o'.cpu.toContext = Function.update ctx o.sched.currentProcess o.cpu.toContext
        o'.sched.currentProcess ∧
      o'.sched.esp0 = (o'.sched.pcb o'.sched.currentProcess).kernelStackTop := by
  obtain ⟨hfit, -⟩ := h.stack_owned hroom
  obtain ⟨o₂, hat, rfl⟩ := isrWrapper32_eq_some (by omega) hrun
  obtain ⟨hready, hesp0⟩ := h.ready hroom hat rfl
  obtain ⟨hinv, hctx⟩ := hready.resume h.places h.index
  exact ⟨hinv, hctx, by simpa using hesp0⟩

theorem Inv.timer_next (h : Inv o l ctx) (hroom : o.Room x)
    (hrun : o.isrWrapper32 fuel x = some o') : ∃ s',
      o.sched.timerInterruptHandler fuel = some s' ∧ o'.sched.currentProcess = s'.nextProcess := by
  obtain ⟨hfit, -⟩ := h.stack_owned hroom
  obtain ⟨o₂, hat, rfl⟩ := isrWrapper32_eq_some (by omega) hrun
  refine ⟨o₂.sched, hat.handler, ?_⟩
  by_cases hsame : o₂.cpu.eax = o₂.cpu.ebx
  · rw [if_pos hsame, iret_sched, popa_sched, ← hat.eax, ← hat.ebx, hsame]
  · rw [if_neg hsame, iret_sched, popa_sched, ← hat.ebx]
    rfl

theorem Inv.exists_timer (h : Inv o l ctx) (hroom : o.Room x) :
    ∃ fuel o', o.isrWrapper32 fuel x = some o' := by
  obtain ⟨hfit, -⟩ := h.stack_owned hroom
  have hsched : o.enterInterrupt.pusha.sched = o.sched := (entered (by omega)).sched
  obtain ⟨fuel, s', hs'⟩ := h.list.exists_handled h.current
  rw [← hsched] at hs'
  obtain ⟨o₂, hcall⟩ : ∃ o₂, callHandler fuel x { o.enterInterrupt.pusha with
      espAddressVariable := o.enterInterrupt.pusha.cpu.esp } = some o₂ := by
    refine ⟨_, Option.bind_eq_some_iff.mpr ⟨s', hs', rfl⟩⟩
  exact ⟨fuel, _, Option.bind_eq_some_iff.mpr ⟨o₂, hcall, rfl⟩⟩

theorem Inv.step (h : Inv o l ctx) (hstep : ProcessStep l o o') : Inv o' l ctx := by
  obtain ⟨t, hsched⟩ := hstep.sched
  have hblock : ∀ a, ∃ u, o'.sched.pcb a = { o.sched.pcb a with sleepTime := u } := fun a => by
    rw [hsched]
    by_cases ha : a = o.sched.currentProcess
    · exact ⟨t, by simp [Sched.setPcb, ha]⟩
    · exact ⟨(o.sched.pcb a).sleepTime, by simp [Sched.setPcb, ha]⟩
  have hsame : ∀ a, (o.sched.pcb a).SamePlace (o'.sched.pcb a) := fun a => by
    obtain ⟨u, hu⟩ := hblock a
    rw [hu]
    exact ⟨rfl, rfl⟩
  have hcur : o'.sched.currentProcess = o.sched.currentProcess := by rw [hsched]; rfl
  refine ⟨?_, ?_, ?_, h.places.of_same fun p _ => hsame p, ?_, fun hring => ?_,
    fun q hq hne => ?_⟩
  · show Chain _ _ o'.sched.processLists l
    rw [show o'.sched.processLists = o.sched.processLists by rw [hsched]; rfl]
    refine Chain.congr h.list fun a _ => ?_
    obtain ⟨u, hu⟩ := hblock a
    rw [hu]
  · rw [hcur]
    exact h.current
  · rw [hsched]
    exact h.index
  · rw [hstep.cr3, h.cr3, hcur, (hsame _).cr3]
  · rw [hcur, (hsame _).stack, hsched]
    exact h.esp0 (by rwa [hstep.ring] at hring)
  · rw [hcur] at hne
    obtain ⟨u, hu⟩ := hblock q
    rw [hu]
    exact ((h.saved q hq hne).congr fun b a => hstep.mem q hq hne b a).of_same ⟨rfl, rfl⟩

/-- A fresh process has its place apart from those on the list. -/
theorem Fresh.places {s' : Sched} (hf : Fresh o l new) (esp : Word) (h : Places o.sched l)
    (hold : ∀ p ∈ l, (o.sched.pcb p).SamePlace (s'.pcb p))
    (hnew : (o.newBlock new esp).SamePlace (s'.pcb new.pcb)) : Places s' (l ++ [new.pcb]) := by
  have htop : (new.kstack + 4096).toNat = new.kstack.toNat + 4096 := by
    rw [BitVec.toNat_add]
    have := hf.noWrap
    exact Nat.mod_eq_of_lt this
  have hblock : ∀ b a, (s'.pcb new.pcb).Owns b a ↔ b = some (new.pageDir - 0xC0000000) ∨
      (b = none ∧ new.kstack.toNat ≤ a ∧ a < new.kstack.toNat + 4096) := fun b a => by
    rw [hnew.owns]
    show b = some (new.pageDir - 0xC0000000) ∨
      (b = none ∧ (new.kstack + 4096).toNat ≤ a + 4096 ∧ a < (new.kstack + 4096).toNat) ↔ _
    rw [htop, Nat.add_le_add_iff_right]
  -- a byte of an old process is not one of the new process
  have hapart : ∀ p ∈ l, ∀ b a, (s'.pcb p).Owns b a → ¬ (s'.pcb new.pcb).Owns b a := by
    intro p hp b a hpa hna
    rw [hblock] at hna
    rw [(hold p hp).owns] at hpa
    obtain rfl | ⟨rfl, h1, h2⟩ := hna
    · obtain hcr3 | ⟨hnone, -⟩ := hpa
      · refine hf.dir p hp ?_
        have := Option.some.inj hcr3
        exact (sub_left_inj.mp this).symm
      · cases hnone
    · exact hf.kstack p hp a h1 h2 hpa
  have hplaces := h.of_same hold
  refine ⟨fun p hp q hq hne b a hpa => ?_, fun p hp => ?_, fun p hp a hpa => ?_⟩
  · rcases List.mem_append.mp hp with hp | hp <;> rcases List.mem_append.mp hq with hq | hq
    · exact hplaces.apart p hp q hq hne b a hpa
    · rw [List.mem_singleton.mp hq]
      exact hapart p hp b a hpa
    · rw [List.mem_singleton.mp hp] at hpa
      exact fun hqa => hapart q hq b a hqa hpa
    · exact absurd ((List.mem_singleton.mp hp).trans (List.mem_singleton.mp hq).symm) hne
  · rcases List.mem_append.mp hp with hp | hp
    · exact hplaces.low p hp
    · rw [List.mem_singleton.mp hp, hnew.stack]
      show 4096 ≤ (new.kstack + 4096).toNat
      omega
  · rcases List.mem_append.mp hp with hp | hp
    · exact hplaces.shared p hp a hpa
    · rw [List.mem_singleton.mp hp, hblock] at hpa
      obtain hnone | ⟨-, h1, h2⟩ := hpa
      · cases hnone
      · exact hf.shared a h1 h2

theorem Fresh.list (hf : Fresh o l new) (h : o.sched.ProcessList l) (esp : Word) :
    Sched.ProcessList (o.sched.setPcb new.pcb fun _ => o.newBlock new esp) l := by
  refine Chain.congr h fun a ha => ?_
  have hne : a ≠ new.pcb := ne_of_mem_of_not_mem ha hf.pcb_new
  simp [Sched.setPcb, hne]

theorem Inv.create (h : Inv o l ctx) (hfew : l.length + 1 < 65536) (hf : Fresh o l new)
    (hrun : o.createProcess fuel func isUser new = some o') :
    Inv o' (l ++ [new.pcb])
      (Function.update ctx new.pcb (initialContext func isUser new.pageDir)) := by
  obtain ⟨hcpu, hmem, esp, hadd, hframe⟩ := createProcess_eq_some hrun
  have hold : ∀ a ∈ l,
      (o.sched.setPcb new.pcb fun _ => o.newBlock new esp).pcb a = o.sched.pcb a :=
    fun a ha => if_neg (ne_of_mem_of_not_mem ha hf.pcb_new)
  have hself : (o.sched.setPcb new.pcb fun _ => o.newBlock new esp).pcb new.pcb =
      o.newBlock new esp := if_pos rfl
  obtain ⟨hlist', hindex', hadded⟩ := (hf.list h.list esp).addToList
    (List.ne_nil_of_mem h.current) h.index hfew
    hf.pcb_ne hf.pcb_new (by rw [hself]; rfl) hadd
  have hblock : ∀ a ∈ l, ∃ n p, o'.sched.pcb a = { o.sched.pcb a with next := n, prev := p } :=
    fun a ha => by
      obtain ⟨n, p, hp⟩ := hadded.pcb a
      exact ⟨n, p, by rw [hp, hold a ha]⟩
  have hsame : ∀ a ∈ l, (o.sched.pcb a).SamePlace (o'.sched.pcb a) := fun a ha => by
    obtain ⟨n, p, hp⟩ := hblock a ha
    rw [hp]
    exact ⟨rfl, rfl⟩
  obtain ⟨n, p, hnew⟩ := hadded.pcb new.pcb
  rw [hself] at hnew
  have hcur : o'.sched.currentProcess = o.sched.currentProcess := hadded.current
  refine ⟨hlist', ?_, ?_, hf.places esp h.places hsame (by rw [hnew]; exact ⟨rfl, rfl⟩), ?_,
    fun hring => ?_, fun q hq hne => ?_⟩
  · rw [hcur]
    exact List.mem_append_left _ h.current
  · rw [hindex', List.length_append]
    rfl
  · rw [hcpu, h.cr3, hcur, (hsame _ h.current).cr3]
  · rw [hcur, (hsame _ h.current).stack, hadded.esp0]
    exact h.esp0 (by rwa [hcpu] at hring)
  · rw [hcur] at hne
    rcases List.mem_append.mp hq with hq | hq
    · have hqn : q ≠ new.pcb := ne_of_mem_of_not_mem hq hf.pcb_new
      obtain ⟨n', p', hq'⟩ := hblock q hq
      rw [hq', Function.update_of_ne hqn]
      refine ((h.saved q hq hne).congr fun b a hqa => hmem b a ?_).of_same ⟨rfl, rfl⟩
      -- the pages of the new directory are not those of an old process
      rintro rfl
      obtain hcr3 | ⟨hnone, -⟩ := hqa
      · exact hf.dir q hq (sub_left_inj.mp (Option.some.inj hcr3).symm)
      · cases hnone
    · rw [List.mem_singleton.mp hq, hnew, Function.update_self]
      exact hframe.of_same ⟨rfl, rfl⟩

theorem Inv.create_awake (h : Inv o l ctx) (hfew : l.length + 1 < 65536) (hf : Fresh o l new)
    (hrun : o.createProcess fuel func isUser new = some o') :
    o'.sched.sleep new.pcb = 0 ∧ o'.sched.currentProcess = o.sched.currentProcess := by
  obtain ⟨-, -, esp, hadd, -⟩ := createProcess_eq_some hrun
  have hself : (o.sched.setPcb new.pcb fun _ => o.newBlock new esp).pcb new.pcb =
      o.newBlock new esp := if_pos rfl
  obtain ⟨-, -, hadded⟩ := (hf.list h.list esp).addToList (List.ne_nil_of_mem h.current) h.index
    hfew hf.pcb_ne hf.pcb_new (by rw [hself]; rfl) hadd
  obtain ⟨n, p, hnew⟩ := hadded.pcb new.pcb
  refine ⟨?_, hadded.current⟩
  rw [Sched.sleep, hnew, hself]
  rfl

theorem initProcessScheduler_eq_some (hrun : o.initProcessScheduler fuel func new = some o') :
    ∃ o₁ o₂ : Os,
      createProcess fuel func false new { o with sched := { o.sched with currentIndex := 0 } } =
        some o₁ ∧ o' = o₂.popa.iret ∧ o₂.mem = o₁.mem ∧
      o₂.sched = { o₁.sched with
        currentProcess := o₁.sched.processLists
        nextProcess := o₁.sched.processLists } ∧
      o₂.cpu = { o₁.cpu with
        cr3 := (o₁.sched.pcb o₁.sched.processLists).cr3
        esp := (o₁.sched.pcb o₁.sched.processLists).savedEsp } := by
  simp only [initProcessScheduler, Option.bind_eq_bind, Option.bind_eq_some_iff,
    Option.pure_def, Option.some.injEq] at hrun
  obtain ⟨o₁, hcreate, rfl⟩ := hrun
  exact ⟨o₁, _, hcreate, rfl, rfl, rfl, rfl⟩

theorem Starts.inv (h : Starts o fuel func new o') :
    Inv o' [new.pcb] (fun _ => initialContext func false new.pageDir) ∧
      o'.cpu.toContext = initialContext func false new.pageDir ∧
      (o'.sched.pcb new.pcb).pageDir = new.pageDir ∧
      (o'.sched.pcb new.pcb).kernelStackTop = new.kstack + 4096 := by
  obtain ⟨o₁, o₂, hcreate, rfl, hmem, hsched, hregs⟩ := initProcessScheduler_eq_some h.run
  obtain ⟨hcpu, -, esp, hadd, hframe⟩ := createProcess_eq_some hcreate
  generalize hs : Sched.setPcb _ new.pcb _ = s at hadd
  have hself : s.pcb new.pcb =
      newBlock { o with sched := { o.sched with currentIndex := 0 } } new esp := by
    rw [← hs]
    exact if_pos rfl
  have hzero : s.currentIndex = 0 := by
    rw [← hs]
    rfl
  obtain ⟨hlist, hindex, hadded⟩ :=
    Sched.addToList_first hzero h.fresh.pcb_ne (by rw [hself]; rfl) hadd
  obtain ⟨n, p, hnew⟩ := hadded.pcb new.pcb
  rw [hself] at hnew
  have hhead : o₁.sched.processLists = new.pcb := hlist.head_eq
  have hplaces : Places o₁.sched [new.pcb] :=
    h.fresh.places esp ⟨by simp, by simp, by simp⟩ (by simp)
      (by rw [hnew]; exact ⟨rfl, rfl⟩)
  have hready : Ready o₂ [new.pcb] (fun _ => initialContext func false new.pageDir)
      o₁.sched := by
    have hcur : o₂.sched.currentProcess = new.pcb := by rw [hsched]; exact hhead
    have hpcb : o₂.sched.pcb = o₁.sched.pcb := by rw [hsched]
    refine ⟨?_, ?_, by rw [hsched], by rw [hsched], fun a => by rw [hpcb]; exact ⟨rfl, rfl⟩, ?_,
      fun hring => ?_, ?_, ?_, fun q hq hne => ?_⟩
    · rw [hsched]
      exact hlist
    · rw [hcur]
      exact List.mem_singleton_self _
    · rw [hregs, hcur, hpcb, hhead]
    · exact absurd (by simp [initialContext_privilege]) hring
    · rw [hregs, hcpu]
      exact h.ring
    · rw [hmem, hcur, hpcb, hregs, hhead, hnew]
      exact hframe.of_same ⟨rfl, rfl⟩
    · exact absurd (List.mem_singleton.mp hq) (by rwa [hcur] at hne)
  obtain ⟨hinv, hctx⟩ := hready.resume hplaces hindex
  refine ⟨hinv, hctx, ?_⟩
  rw [iret_sched, popa_sched, hsched, hnew]
  exact ⟨rfl, rfl⟩

theorem Run.inv (h : Run o l ctx) : Inv o l ctx := by
  induction h with
  | start h => exact h.inv.1
  | step _ hstep ih => exact ih.step hstep
  | create _ hfew hf hrun ih => exact ih.create hfew hf hrun
  | timer _ _ hroom hrun ih => exact (ih.timer hroom hrun).1

/-- Every timer interrupt of a run comes to its end and resumes a process with the context it
had when it was last interrupted, or that of its first frame; the first process is started
with that of its first frame. -/
theorem contexts_preserved :
    (∀ o fuel func new o', Starts o fuel func new o' →
      o'.cpu.toContext = initialContext func false new.pageDir ∧
        o'.sched.currentProcess = new.pcb) ∧
    ∀ o l ctx x, Run o l ctx → o.interruptsOn → o.Room x →
      (∃ fuel o', o.isrWrapper32 fuel x = some o') ∧
      ∀ fuel o', o.isrWrapper32 fuel x = some o' →
        o'.sched.currentProcess ∈ l ∧
        o'.cpu.toContext = Function.update ctx o.sched.currentProcess o.cpu.toContext
          o'.sched.currentProcess ∧
        o'.sched.esp0 = (o'.sched.pcb o'.sched.currentProcess).kernelStackTop := by
  constructor
  · intro o fuel func new o' h
    obtain ⟨hinv, hctx, -⟩ := h.inv
    exact ⟨hctx, List.mem_singleton.mp hinv.current⟩
  · intro o l ctx x hrun _ hroom
    have hinv := hrun.inv
    refine ⟨hinv.exists_timer hroom, fun fuel o' hisr => ?_⟩
    obtain ⟨hinv', hctx, hesp0⟩ := hinv.timer hroom hisr
    exact ⟨hinv'.current, hctx, hesp0⟩

theorem createProcess_of_addToList (hadd : ∀ esp, ∃ s', Sched.addToList fuel
    (o.sched.setPcb new.pcb fun _ => o.newBlock new esp) new.pcb = some s') :
    ∃ o', o.createProcess fuel func isUser new = some o' := by
  obtain ⟨s', hs'⟩ := hadd _
  exact ⟨_, Option.bind_eq_some_iff.mpr ⟨s', hs', rfl⟩⟩

theorem exists_initProcessScheduler (o : Os) (func : ℕ) (new : NewProcess) :
    ∃ o', o.initProcessScheduler 0 func new = some o' := by
  have hcreate : ∃ o₁, { o with sched := { o.sched with currentIndex := 0 } }.createProcess 0 func
      false new = some o₁ := createProcess_of_addToList fun esp => ⟨_, if_pos rfl⟩
  obtain ⟨o₁, hcreate⟩ := hcreate
  simp only [initProcessScheduler, hcreate, Option.bind_eq_bind, Option.bind_some,
    Option.pure_def]
  exact ⟨_, rfl⟩

/-- An idle machine with interrupts off, in kernel code. -/
def idle : Os where
  cpu := { eax := 0, ebx := 0, ecx := 0, edx := 0, ebp := 0, esi := 0, edi := 0, esp := 0xC0009000,
           eip := 0xC0101000, cs := 0x08, eflags := 0x2, cr3 := 0x100000, ss := 0x10 }
  mem _ _ := 0
  sched := ⟨fun _ => ⟨0, 0, 0, 0, 0, 0, 0, 0⟩, 0, 0, 0, 0, 0, 0⟩
  espAddressVariable := 0

/-- The first process's block, directory and kernel stack as the heap hands them out. -/
def firstProcess : NewProcess := ⟨0x20000000, 0xC0A09000, 0x70000000⟩

theorem firstProcess_fresh : Fresh idle [] firstProcess where
  pcb_ne := by decide
  pcb_new := by simp
  dir := by simp
  noWrap := by decide
  shared a h1 h2 := by
    have hbase : firstProcess.kstack.toNat = 0x70000000 := rfl
    rw [hbase] at h1
    rintro (⟨h3, -⟩ | ⟨-, h4⟩)
    · unfold PROC_STACK_VIRT at h3
      rw [hbase] at h2
      omega
    · unfold PROC_CODE_VIRT at h4
      omega
  kstack q hq := absurd hq (by simp)

theorem firstProcess_starts : ∃ o, Starts idle 0 0xC0101000 firstProcess o := by
  obtain ⟨o, hrun⟩ := exists_initProcessScheduler idle 0xC0101000 firstProcess
  exact ⟨o, firstProcess_fresh, rfl, hrun⟩

/-- The next block, directory and kernel stack. -/
def secondProcess : NewProcess := ⟨0x20000080, 0xC0A0C000, 0x70001000⟩

theorem secondProcess_fresh (hdir : (o.sched.pcb firstProcess.pcb).pageDir = firstProcess.pageDir)
    (htop : (o.sched.pcb firstProcess.pcb).kernelStackTop = firstProcess.kstack + 4096) :
    Fresh o [firstProcess.pcb] secondProcess where
  pcb_ne := by decide
  pcb_new := by decide
  dir q hq := by
    rw [List.mem_singleton.mp hq, hdir]
    decide
  noWrap := by decide
  shared a h1 h2 := by
    have hbase : secondProcess.kstack.toNat = 0x70001000 := rfl
    rw [hbase] at h1
    rintro (⟨h3, -⟩ | ⟨-, h4⟩)
    · unfold PROC_STACK_VIRT at h3
      rw [hbase] at h2
      omega
    · unfold PROC_CODE_VIRT at h4
      omega
  kstack q hq a h1 _ := by
    have hbase : secondProcess.kstack.toNat = 0x70001000 := rfl
    have hend : (firstProcess.kstack + 4096).toNat = 0x70001000 := rfl
    rw [List.mem_singleton.mp hq]
    rintro (hcr3 | ⟨-, -, h3⟩)
    · cases hcr3
    · rw [htop, hend] at h3
      omega

/-- A user process is created, and the first timer interrupt switches to it. -/
theorem contexts_preserved_second : ∃ o₁ o₂ fuel o₃, Starts idle 0 0xC0101000 firstProcess o₁ ∧
    o₁.createProcess 1 0xC0102000 true secondProcess = some o₂ ∧
    o₂.isrWrapper32 fuel ⟨0, fun _ => 0, 0, 0⟩ = some o₃ ∧
    o₃.sched.currentProcess = secondProcess.pcb ∧
    o₃.cpu.toContext = initialContext 0xC0102000 true secondProcess.pageDir ∧
    o₃.sched.esp0 = (o₃.sched.pcb secondProcess.pcb).kernelStackTop := by
  obtain ⟨o₁, hstart⟩ := firstProcess_starts
  obtain ⟨hinv₁, hctx₁, hdir, htop⟩ := hstart.inv
  have hfresh := secondProcess_fresh hdir htop
  obtain ⟨o₂, hcreate⟩ : ∃ o₂, o₁.createProcess 1 0xC0102000 true secondProcess = some o₂ :=
    createProcess_of_addToList fun esp => (hfresh.list hinv₁.list esp).exists_addToList (by simp)
  have run := (Run.start hstart).create (by decide) hfresh hcreate
  have hregs := (createProcess_eq_some hcreate).1
  have hcontext : o₂.cpu.toContext = initialContext 0xC0101000 false firstProcess.pageDir := by
    rw [hregs, hctx₁]
  have hring : privilege o₂.cpu.cs = 0 := by
    rw [show o₂.cpu.cs = o₂.cpu.toContext.cs from rfl, hcontext]
    rfl
  have hroom : o₂.Room ⟨0, fun _ => 0, 0, 0⟩ := by
    rw [Room, if_pos hring, show o₂.cpu.esp = o₂.cpu.toContext.esp from rfl, hcontext]
    decide
  have hflags : o₂.interruptsOn := by
    rw [interruptsOn, show o₂.cpu.eflags = o₂.cpu.toContext.eflags from rfl, hcontext]
    rfl
  obtain ⟨⟨fuel, o₃, hrun⟩, hall⟩ := contexts_preserved.2 o₂ _ _ _ run hflags hroom
  obtain ⟨-, hctx₃, hesp0⟩ := hall fuel o₃ hrun
  -- the second process is asked first, and awake
  obtain ⟨hawake, hcur⟩ := hinv₁.create_awake (by decide) hfresh hcreate
  have hfirst : o₂.sched.currentProcess = firstProcess.pcb :=
    hcur.trans (List.mem_singleton.mp hinv₁.current)
  obtain ⟨s, hhandler, hnext⟩ := run.inv.timer_next hroom hrun
  have hsecond : o₃.sched.currentProcess = secondProcess.pcb :=
    hnext.trans (run.inv.list.handled_second hfirst hawake.le hhandler)
  have hne : secondProcess.pcb ≠ o₂.sched.currentProcess := by
    rw [hfirst]
    decide
  refine ⟨o₁, o₂, fuel, o₃, hstart, hcreate, hrun, hsecond, ?_, by rw [← hsecond]; exact hesp0⟩
  rw [hctx₃, hsecond, Function.update_of_ne hne, Function.update_self]

end Os

end RaxzusHeap
