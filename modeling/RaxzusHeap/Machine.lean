import RaxzusHeap.Lib.Imperative

/-! # The machine the heap runs on

A 32-bit x86 with two-level paging, as far as the allocator sees it.

* **Words.** Values of type `uint32_t` are natural numbers below `2 ^ 32`; arithmetic that
  can leave this range is wrapped explicitly by `u32` and `u32Sub`.  A cell of memory holds
  a `Word`, so whatever memory contains at power-on is in range.
* **Physical memory.** `State.mem f i` is word `i` (of 1024) of the 4 KB frame number `f`.
* **Paging.** `State.walk` is the MMU's two-level walk of a page directory.  The code of
  this development runs with the kernel directory in CR3, so `Layout.load` and
  `Layout.store` translate through it and stop with a page fault where it has no entry.
  A changed entry is flushed by `invlpg` at once in the source, so there is no TLB here.
  All accesses are to aligned words.
* **Layout.** `linker.ld` puts the kernel directory, the spare table, the 256 reserved page
  tables and `_heap_start` one after the other; `Layout` keeps the frame the first of them
  lies in, which is all that linking leaves open.
* **Kernel variables** (`bitmap`, the domains, the process list) are fields of `State`.
  The bitmap is indexed by an `int` as in `set_bit`; what lies outside `0 … 32767` stands
  for the memory around the array.
* **Ghost fields.** `maps` and `stale` are written by `map_page` and `large_unmap_page` and
  read by no code: the entry last installed for a page of a directory, and whether some
  new page table was drawn from a frame that still held a present entry. -/

namespace RaxzusHeap

open Imperative

/-- A 32-bit cell of memory. -/
abbrev Word := BitVec 32

/-- `uint32_t` arithmetic wraps modulo `2 ^ 32`. -/
def u32 (n : ℕ) : ℕ := n % 2 ^ 32

/-- `uint32_t` subtraction. -/
def u32Sub (a b : ℕ) : ℕ := (a + 2 ^ 32 - b) % 2 ^ 32

/-- Where the direct map of physical memory starts. -/
def KERNEL_BASE : ℕ := 0xC0000000

def PAGE_KERNEL : ℕ := 0x3
def PAGE_USER : ℕ := 0x7
def PAGE_READONLY : ℕ := 0x1
def PAGE_GLOBAL : ℕ := 0x100

/-- The seven size-class domains `heap_64`, …, `heap_4k`. -/
inductive SizeClass where
  | heap64
  | heap128
  | heap256
  | heap512
  | heap1k
  | heap2k
  | heap4k
deriving DecidableEq, Repr

/-- `heap_domain_t`. -/
structure HeapDomain where
  pageDirectory : ℕ
  blockSize : ℕ
  blocksPerPage : ℕ
  nextFreeBlock : ℕ
  nextVirtAddr : ℕ
deriving DecidableEq, Repr

/-- `large_domain_t`. -/
structure LargeDomain where
  pageDirectory : ℕ
  nextVirtAddr : ℕ
  nextFreeVirt : ℕ
deriving DecidableEq, Repr

/-- Where the linker placed `_kernel_page_dir`: the image starts at 1 MB, and `boot.s` maps
only the first 4 MB, which the whole image with its 258 reserved pages must fit in. -/
structure Layout where
  dirFrame : ℕ
  low : 256 ≤ dirFrame
  high : dirFrame + 258 ≤ 1024

namespace Layout

/-- `_kernel_page_dir`. -/
def kernelPageDir (L : Layout) : ℕ := KERNEL_BASE + L.dirFrame * 4096

/-- `_kernel_page_table`. -/
def kernelPageTable (L : Layout) : ℕ := L.kernelPageDir + 4096

/-- `_kernel_page_tables_base`. -/
def kernelPageTablesBase (L : Layout) : ℕ := L.kernelPageTable + 4096

/-- `_heap_start`. -/
def heapStart (L : Layout) : ℕ := L.kernelPageTablesBase + 256 * 4096

/-- Number of frames of the kernel image `[0, physical end of kernel)`. -/
def kernelFrames (L : Layout) : ℕ := L.dirFrame + 258

/-- The lowest placement there is: nothing before the reserved pages. -/
def lowest : Layout := ⟨256, by decide, by decide⟩

/-- The highest placement there is: the image fills the first 4 MB. -/
def highest : Layout := ⟨766, by decide, by decide⟩

end Layout

/-- The memory and the variables of the kernel. -/
structure State where
  mem : ℕ → ℕ → Word
  bitmap : ℤ → Word
  usedFrames : ℕ
  domains : SizeClass → HeapDomain
  large : LargeDomain
  currentIndex : ℕ
  processLists : ℕ
  maps : ℕ → ℕ → Option ℕ
  stale : Bool

/-- The state in which `kernel_main` starts: any contents of memory, variables zero. -/
def State.powerOn (mem : ℕ → ℕ → Word) : State where
  mem := mem
  bitmap _ := 0
  usedFrames := 0
  domains _ := ⟨0, 0, 0, 0, 0⟩
  large := ⟨0, 0, 0⟩
  currentIndex := 0
  processLists := 0
  maps _ _ := none
  stale := false

/-- Why the machine stopped. -/
inductive Stop where
  | pageFault (va : ℕ)
  | halted
deriving DecidableEq, Repr

/-- Code of the kernel. -/
abbrev Kernel := EStateM Stop State

namespace State

/-- Write `v` to word `i` of frame `f`. -/
def write (s : State) (f i v : ℕ) : State :=
  { s with mem := fun g j => if g = f ∧ j = i then BitVec.ofNat 32 v else s.mem g j }

/-- The page-table frame that entry `i` of the directory in frame `dir` points to. -/
def pde (s : State) (dir i : ℕ) : Option ℕ :=
  if (s.mem dir i).toNat % 2 = 1 then some ((s.mem dir i).toNat / 4096) else none

/-- The page-table entry the MMU finds for `va` under the directory in frame `dir`. -/
def walk (s : State) (dir va : ℕ) : Option ℕ :=
  match s.pde dir (va / 2 ^ 22) with
  | none => none
  | some t =>
      if (s.mem t (va / 4096 % 1024)).toNat % 2 = 1 then
        some (s.mem t (va / 4096 % 1024)).toNat
      else none

/-- The word of memory at `va` as seen under the directory in frame `dir`. -/
def peek (s : State) (dir va : ℕ) : Option ℕ :=
  (s.walk dir va).map fun e => (s.mem (e / 4096) (va % 4096 / 4)).toNat

/-- Ghost: `map_page` installed entry `e` for the page of `va` in the directory at virtual
address `dir`. -/
def install (s : State) (dir va e : ℕ) : State :=
  { s with maps := fun d p =>
      if d = (dir - KERNEL_BASE) / 4096 ∧ p = va / 4096 then some e else s.maps d p }

/-- Ghost: the entry of `va` in the directory at virtual address `dir` was cleared. -/
def uninstall (s : State) (dir va : ℕ) : State :=
  { s with maps := fun d p =>
      if d = (dir - KERNEL_BASE) / 4096 ∧ p = va / 4096 then none else s.maps d p }

/-- Frame `f` holds a word with the present bit set. -/
def dirty (s : State) (f : ℕ) : Bool :=
  (List.range 1024).any fun j => (s.mem f j).toNat % 2 == 1

/-- Ghost: the frame at physical address `phys` becomes a page table. -/
def noteTable (s : State) (phys : ℕ) : State :=
  { s with stale := s.stale || s.dirty (phys / 4096) }

/-- Replace the record of one size-class domain. -/
def setDomain (s : State) (d : SizeClass) (f : HeapDomain → HeapDomain) : State :=
  { s with domains := fun c => if c = d then f (s.domains c) else s.domains c }

end State

/-- `*(uint32_t*)va` under the kernel directory. -/
def Layout.load (L : Layout) (va : ℕ) : Kernel ℕ := fun s =>
  match s.peek L.dirFrame va with
  | some v => .ok v s
  | none => .error (.pageFault va) s

/-- `*(uint32_t*)va = v` under the kernel directory. -/
def Layout.store (L : Layout) (va v : ℕ) : Kernel Unit := fun s =>
  match s.walk L.dirFrame va with
  | some e => .ok () (s.write (e / 4096) (va % 4096 / 4) v)
  | none => .error (.pageFault va) s

/-- Byte `k` of a word, least significant first. -/
def byteOf (w k : ℕ) : ℕ := w / 256 ^ k % 256

/-- Replace byte `k` of a word. -/
def setByte (w k b : ℕ) : ℕ := w - byteOf w k * 256 ^ k + b % 256 * 256 ^ k

/-- `*(uint8_t*)va` under the kernel directory. -/
def Layout.loadByte (L : Layout) (va : ℕ) : Kernel ℕ := do
  let w ← L.load va
  pure (byteOf w (va % 4))

/-- `*(uint8_t*)va = b` under the kernel directory. -/
def Layout.storeByte (L : Layout) (va b : ℕ) : Kernel Unit := do
  let w ← L.load va
  L.store va (setByte w (va % 4) b)

end RaxzusHeap
