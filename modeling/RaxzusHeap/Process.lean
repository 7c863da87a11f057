import RaxzusHeap.HeapDomain
import RaxzusHeap.Scheduler

/-! # Creating a process (`create_process`)

`create_process` on the machine of `Machine.lean`: the process control block and the kernel
stack are heap blocks, the directory, the stack and the code page are frames, and the list of
processes is threaded through the blocks in memory.

* **The block.** `struct PCB` is not packed but all its fields are words, so the offsets are
  those of `PcbField.offset`; the saved registers in the middle are used by no code.
* **The walk** to the end of the list changes nothing, so one that is not over after
  `2 ^ 32` blocks never ends; `WALK_FUEL` bounds it and the machine then counts as halted.
* **The result.** The source returns nothing.  `createProcess` returns what it acquired for
  the process it added, and `none` when it gave up; no code reads it. -/

namespace RaxzusHeap

open Imperative

/-- `sizeof(struct PCB)`. -/
def PCB_SIZE : ℕ := 100

/-- The fields of `struct PCB` that code uses. -/
inductive PcbField where
  | savedEsp
  | pageDir
  | stackTop
  | pid
  | sleepTime
  | kernelStackTop
  | next
  | prev
deriving DecidableEq, Repr

def PcbField.offset : PcbField → ℕ
  | savedEsp => 0
  | pageDir => 4
  | stackTop => 16
  | pid => 80
  | sleepTime => 84
  | kernelStackTop => 88
  | next => 92
  | prev => 96

/-- What `create_process` acquired: its block, the address of its directory, the physical
addresses of its stack and, for a user process, of its code, and the block of its kernel
stack. -/
structure Process where
  pcb : ℕ
  pageDir : ℕ
  stack : ℕ
  code : Option ℕ
  kstack : ℕ
deriving DecidableEq, Repr

/-- More blocks than there are addresses. -/
def WALK_FUEL : ℕ := 2 ^ 32

namespace Layout

variable (L : Layout)

/-- `p->field`. -/
def loadField (p : ℕ) (field : PcbField) : Kernel ℕ := L.load (u32 (p + field.offset))

/-- `p->field = v`. -/
def storeField (p : ℕ) (field : PcbField) (v : ℕ) : Kernel Unit :=
  L.store (u32 (p + field.offset)) v

/-- The first assignments of `create_process`. -/
def initPcb (newProcess : ℕ) : Kernel Unit := do
  let s ← get
  L.storeField newProcess .pid s.currentIndex
  L.storeField newProcess .sleepTime 0
  L.storeField newProcess .next 0
  L.storeField newProcess .prev 0

/-- The copy of the function into the code page. -/
def copyFunction (codePhys func : ℕ) : Kernel Unit := do
  let dst := u32 (codePhys + 0xC0000000)
  times 4096 fun i => do
    let b ← L.loadByte (u32 (func + i))
    L.storeByte (u32 (dst + i)) b

/-- The private pages of a process: its stack and, for a user process, its code. -/
def mapProcess (procDir stackPhys func : ℕ) : Bool → Kernel (Option ℕ)
  | true => do
      L.mapPage procDir PROC_STACK_VIRT stackPhys PAGE_USER
      let codePhys ← getNextFreeProcessFrame
      L.mapPage procDir PROC_CODE_VIRT codePhys PAGE_USER
      L.copyFunction codePhys func
      pure (some codePhys)
  | false => do
      L.mapPage procDir PROC_STACK_VIRT stackPhys PAGE_KERNEL
      pure none

/-- `*(--sp) = w` for each word in turn. -/
def pushWords : List ℕ → ℕ → Kernel ℕ
  | [], sp => pure sp
  | w :: ws, sp => do
      let sp := u32Sub sp 4
      L.store sp w
      pushWords ws sp

/-- The walk to the last block, with `fuel` steps left. -/
def walkToEnd : ℕ → ℕ → Kernel ℕ
  | 0, _ => throw .halted
  | fuel + 1, current => do
      let next ← L.loadField current .next
      if next ≠ 0 then walkToEnd fuel next else pure current

/-- The end of `create_process`: the block becomes the list or its last element. -/
def addProcess (newProcess : ℕ) : Kernel Unit := do
  let s ← get
  if s.currentIndex = 0 then do
    modify fun s => { s with processLists := newProcess }
    modify fun s => { s with currentIndex := (s.currentIndex + 1) % 2 ^ 16 }
  else do
    modify fun s => { s with currentIndex := (s.currentIndex + 1) % 2 ^ 16 }
    let current ← L.walkToEnd WALK_FUEL s.processLists
    L.storeField current .next newProcess
    L.storeField newProcess .prev current

/-- `create_process`. -/
def createProcess (func : ℕ) (isUser : Bool) : Kernel (Option Process) := do
  let newProcess ← L.kmalloc PCB_SIZE
  if newProcess = 0 then return none
  L.initPcb newProcess
  let procDir ← L.createProcessPageDirectory
  L.storeField newProcess .pageDir procDir
  let stackPhys ← getNextFreeProcessFrame
  let code ← L.mapProcess procDir stackPhys func isUser
  let base := u32 (stackPhys + 0xC0000000)
  let sp ← L.pushWords (initialFrame func isUser) (u32 (base + PROC_STACK_SIZE))
  L.storeField newProcess .savedEsp (u32 (PROC_STACK_VIRT + u32Sub sp base))
  L.storeField newProcess .stackTop (PROC_STACK_VIRT + PROC_STACK_SIZE)
  let kstack ← L.kmalloc 4096
  if kstack = 0 then throw .halted
  L.storeField newProcess .kernelStackTop (u32 (kstack + 4096))
  L.addProcess newProcess
  pure (some ⟨newProcess, procDir, stackPhys, code, kstack⟩)

end Layout

end RaxzusHeap
