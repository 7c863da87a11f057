import RaxzusHeap.Paging

/-! # The heap (`heap_domain.c`)

Seven size-class domains, each a 256 MB window of virtual memory whose free blocks hold
the links of its free list, and the large domain, which maps whole pages and keeps freed
ranges on a LIFO threaded through their first page. -/

namespace RaxzusHeap

open Imperative

/-- Pages mapped into every size-class domain at start. -/
def PREMAP_PAGES : ℕ := 256

def LARGE_VIRT_BASE : ℕ := 0x80000000

namespace SizeClass

/-- The classes in the order of `init_all_heaps`. -/
def all : List SizeClass := [heap64, heap128, heap256, heap512, heap1k, heap2k, heap4k]

/-- The block size `init_all_heaps` passes. -/
def blockSize : SizeClass → ℕ
  | heap64 => 64
  | heap128 => 128
  | heap256 => 256
  | heap512 => 512
  | heap1k => 1024
  | heap2k => 2048
  | heap4k => 4096

/-- The region base `init_all_heaps` passes. -/
def virtBase : SizeClass → ℕ
  | heap64 => 0x10000000
  | heap128 => 0x20000000
  | heap256 => 0x30000000
  | heap512 => 0x40000000
  | heap1k => 0x50000000
  | heap2k => 0x60000000
  | heap4k => 0x70000000

end SizeClass

/-- Read the record of a domain. -/
def getDomain (d : SizeClass) : Kernel HeapDomain := do
  let s ← get
  pure (s.domains d)

/-- Update the record of a domain. -/
def modifyDomain (d : SizeClass) (f : HeapDomain → HeapDomain) : Kernel Unit :=
  modify (·.setDomain d f)

/-- Update the record of the large domain. -/
def modifyLarge (f : LargeDomain → LargeDomain) : Kernel Unit :=
  modify fun s => { s with large := f s.large }

/-- The number of pages `kmalloc_large` takes for `size` bytes and the header. -/
def largePages (size : ℕ) : ℕ := u32 (u32 (size + 4) + 4095) / 4096

/-- The fresh branches of `kmalloc_large`: carve the range off the cursor. -/
def takeCursor (pages : ℕ) : Kernel ℕ := do
  let s ← get
  let virtStart := s.large.nextVirtAddr
  modifyLarge fun r => { r with nextVirtAddr := u32 (r.nextVirtAddr + u32 (pages * 4096)) }
  pure virtStart

namespace Layout

variable (L : Layout)

/-- Link the blocks of the page at `virt` to one another, the last one to `tail`. -/
def linkBlocks (virt blockSize blocksPerPage tail : ℕ) : Kernel Unit := do
  times (u32Sub blocksPerPage 1) fun i => do
    let blockAddr := u32 (virt + u32 (i * blockSize))
    let nextBlock := u32 (virt + u32 ((i + 1) * blockSize))
    L.store blockAddr nextBlock
  let lastBlock := u32 (virt + u32 (u32Sub blocksPerPage 1 * blockSize))
  L.store lastBlock tail

/-- One turn of the premap loop of `init_heap_domain`. -/
def premapPage (d : SizeClass) : Kernel Unit := do
  let phys ← getNextFreeProcessFrame
  if phys = 0 then throw .halted
  let domain ← getDomain d
  let virt := domain.nextVirtAddr
  L.mapPage domain.pageDirectory virt phys PAGE_KERNEL
  L.mapPage L.kernelPageDir virt phys PAGE_KERNEL
  L.linkBlocks virt domain.blockSize domain.blocksPerPage domain.nextFreeBlock
  modifyDomain d fun r => { r with nextFreeBlock := virt }
  modifyDomain d fun r => { r with nextVirtAddr := u32 (r.nextVirtAddr + 4096) }

/-- `init_heap_domain`. -/
def initHeapDomain (d : SizeClass) (blockSize virtBase : ℕ) : Kernel Unit := do
  let physDir ← L.getNextFreeKernelFrame
  if physDir = 0 then throw .halted
  let pageDirectory := u32 (physDir + 0xC0000000)
  modifyDomain d fun r => { r with pageDirectory := pageDirectory }
  L.clearDirectory pageDirectory
  modifyDomain d fun r =>
    { r with
      blockSize := blockSize
      blocksPerPage := 4096 / blockSize
      nextVirtAddr := virtBase
      nextFreeBlock := 0 }
  times PREMAP_PAGES fun _ => L.premapPage d

/-- `heap_domain_alloc`. -/
def heapDomainAlloc (d : SizeClass) : Kernel ℕ := do
  let domain ← getDomain d
  if domain.nextFreeBlock ≠ 0 then do
    let ptr := domain.nextFreeBlock
    let next ← L.load ptr
    modifyDomain d fun r => { r with nextFreeBlock := next }
    pure ptr
  else do
    let phys ← getNextFreeProcessFrame
    if phys = 0 then return 0
    let virt := domain.nextVirtAddr
    L.mapPage domain.pageDirectory virt phys PAGE_KERNEL
    L.mapPage L.kernelPageDir virt phys PAGE_KERNEL
    L.linkBlocks virt domain.blockSize domain.blocksPerPage 0
    modifyDomain d fun r => { r with nextFreeBlock := virt }
    modifyDomain d fun r => { r with nextVirtAddr := u32 (r.nextVirtAddr + 4096) }
    let ptr := virt
    let next ← L.load ptr
    modifyDomain d fun r => { r with nextFreeBlock := next }
    pure ptr

/-- `heap_domain_free`. -/
def heapDomainFree (d : SizeClass) (ptr : ℕ) : Kernel Unit := do
  if ptr = 0 then return ()
  let domain ← getDomain d
  L.store ptr domain.nextFreeBlock
  modifyDomain d fun r => { r with nextFreeBlock := ptr }

/-- `init_large_domain`. -/
def initLargeDomain : Kernel Unit := do
  let physDir ← L.getNextFreeKernelFrame
  if physDir = 0 then throw .halted
  let pageDirectory := u32 (physDir + 0xC0000000)
  modifyLarge fun r => { r with pageDirectory := pageDirectory }
  L.clearDirectory pageDirectory
  modifyLarge fun r => { r with nextVirtAddr := LARGE_VIRT_BASE }
  modifyLarge fun r => { r with nextFreeVirt := 0 }

/-- Clear the entry of `virt` in the directory at virtual address `dir`, if it has a table
for it; `clear_frame` on the frame found there when `freeFrame` says so. -/
def clearEntry (dir virt : ℕ) (freeFrame : Bool) : Kernel Unit := do
  let dirIdx := virt >>> 22
  let tableIdx := (virt >>> 12) &&& 0x3FF
  let entry ← L.load (dir + 4 * dirIdx)
  if entry &&& 0x1 ≠ 0 then do
    let tblVirt := u32 ((entry &&& 0xFFFFF000) + 0xC0000000)
    if freeFrame then do
      let e ← L.load (u32 (tblVirt + 4 * tableIdx))
      let _ ← clearFrame (e &&& 0xFFFFF000)
      pure ()
    L.store (u32 (tblVirt + 4 * tableIdx)) 0
    modify (·.uninstall dir virt)

/-- `large_unmap_page`. -/
def largeUnmapPage (virt : ℕ) (freeFrame : Bool) : Kernel Unit := do
  let s ← get
  L.clearEntry s.large.pageDirectory virt false
  L.clearEntry L.kernelPageDir virt freeFrame

/-- The slot selection of `kmalloc_large`: the first page of the freed range on top of the
LIFO when that range is long enough, else the cursor. -/
def largeTakeSlot (pages : ℕ) : Kernel ℕ := do
  let s ← get
  if s.large.nextFreeVirt ≠ 0 then do
    let candidate := s.large.nextFreeVirt
    let freedPages ← L.load (u32 (candidate + 4))
    if pages ≤ freedPages then do
      let next ← L.load candidate
      modifyLarge fun r => { r with nextFreeVirt := next }
      L.largeUnmapPage candidate true
      pure candidate
    else takeCursor pages
  else takeCursor pages

/-- One turn of the mapping loop of `kmalloc_large`: `false` when no frame is left. -/
def largeMapPage (virtStart i : ℕ) : Kernel Bool := do
  let phys ← getNextFreeProcessFrame
  if phys = 0 then return false
  let virt := u32 (virtStart + u32 (i * 4096))
  let s ← get
  L.mapPage s.large.pageDirectory virt phys PAGE_KERNEL
  L.mapPage L.kernelPageDir virt phys PAGE_KERNEL
  pure true

/-- `kmalloc_large`. -/
def kmallocLarge (size : ℕ) : Kernel ℕ := do
  if size = 0 then return 0
  let pages := largePages size
  let virtStart ← L.largeTakeSlot pages
  let mapped ← iterate pages true fun i mapped =>
    if mapped then L.largeMapPage virtStart i else pure false
  if mapped then do
    L.store virtStart pages
    pure (u32 (virtStart + 4))
  else pure 0

/-- `kfree_large`. -/
def kfreeLarge (ptr : ℕ) : Kernel Unit := do
  if ptr = 0 then return ()
  let realStart := u32Sub ptr 4
  let pages ← L.load realStart
  times (pages - 1) fun i => L.largeUnmapPage (u32 (realStart + u32 ((i + 1) * 4096))) true
  let s ← get
  L.store realStart s.large.nextFreeVirt
  L.store (u32 (realStart + 4)) pages
  modifyLarge fun r => { r with nextFreeVirt := realStart }

/-- `init_all_heaps`. -/
def initAllHeaps : Kernel Unit := do
  L.initHeapDomain .heap64 64 0x10000000
  L.initHeapDomain .heap128 128 0x20000000
  L.initHeapDomain .heap256 256 0x30000000
  L.initHeapDomain .heap512 512 0x40000000
  L.initHeapDomain .heap1k 1024 0x50000000
  L.initHeapDomain .heap2k 2048 0x60000000
  L.initHeapDomain .heap4k 4096 0x70000000
  L.initLargeDomain

/-- `kmalloc`. -/
def kmalloc (size : ℕ) : Kernel ℕ :=
  if size ≤ 64 then L.heapDomainAlloc .heap64
  else if size ≤ 128 then L.heapDomainAlloc .heap128
  else if size ≤ 256 then L.heapDomainAlloc .heap256
  else if size ≤ 512 then L.heapDomainAlloc .heap512
  else if size ≤ 1024 then L.heapDomainAlloc .heap1k
  else if size ≤ 2048 then L.heapDomainAlloc .heap2k
  else if size ≤ 4096 then L.heapDomainAlloc .heap4k
  else L.kmallocLarge size

/-- `kfree_heap`. -/
def kfreeHeap (addr : ℕ) : Kernel Unit :=
  if 0x10000000 ≤ addr ∧ addr < 0x20000000 then L.heapDomainFree .heap64 addr
  else if 0x20000000 ≤ addr ∧ addr < 0x30000000 then L.heapDomainFree .heap128 addr
  else if 0x30000000 ≤ addr ∧ addr < 0x40000000 then L.heapDomainFree .heap256 addr
  else if 0x40000000 ≤ addr ∧ addr < 0x50000000 then L.heapDomainFree .heap512 addr
  else if 0x50000000 ≤ addr ∧ addr < 0x60000000 then L.heapDomainFree .heap1k addr
  else if 0x60000000 ≤ addr ∧ addr < 0x70000000 then L.heapDomainFree .heap2k addr
  else if 0x70000000 ≤ addr ∧ addr < 0x80000000 then L.heapDomainFree .heap4k addr
  else if 0x80000000 ≤ addr then L.kfreeLarge addr
  else pure ()

/-- The start of `kernel_main` up to the heap: `init_paging`, `init_pmm`, `init_all_heaps`. -/
def boot : Kernel Unit := do
  L.initPaging
  L.initPmm
  L.initAllHeaps

end Layout

end RaxzusHeap
