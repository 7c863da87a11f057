import RaxzusHeap.Pmm

/-! # Page tables (`paging_manager.c` and `map_page`)

`setupEntries` and `mapKernelMemory` run before the kernel directory is loaded, under the
directory of `boot.s` whose single 4 MB page shows the first 4 MB of memory at
`KERNEL_BASE`; their accesses go through `bootStore`.  Everything later runs under the
kernel directory. -/

namespace RaxzusHeap

open Imperative

/-- `*(uint32_t*)va = v` under the directory of `boot.s`. -/
def bootStore (va v : ℕ) : Kernel Unit := fun s =>
  if KERNEL_BASE ≤ va ∧ va < KERNEL_BASE + 0x400000 then
    .ok () (s.write ((va - KERNEL_BASE) / 4096) (va % 4096 / 4) v)
  else .error (.pageFault va) s

namespace Layout

variable (L : Layout)

/-- `setup_entries`. -/
def setupEntries : Kernel Unit :=
  times 1024 fun i => do
    bootStore (L.kernelPageDir + 4 * i) 0
    bootStore (L.kernelPageTable + 4 * i) 0

/-- One turn of the loop of `map_kernel_memory`, at `addr`; the loop carries
`current_page_table` and `last_dir_index`. -/
def mapKernelMemoryStep (addr : ℕ) (carried : ℕ × ℕ) : Kernel (ℕ × ℕ) := do
  let virtualAddr := u32 (addr + 0xC0000000)
  let dirIndex := virtualAddr >>> 22
  let tableIndex := (virtualAddr >>> 12) &&& 0x3FF
  let (currentPageTable, lastDirIndex) ←
    if dirIndex ≠ carried.2 then do
      let slot := u32Sub dirIndex 768
      let table := u32 (L.kernelPageTablesBase + slot * 4096)
      let phys := u32Sub table 0xC0000000
      bootStore (L.kernelPageDir + 4 * dirIndex) (phys ||| PAGE_KERNEL)
      pure (table, dirIndex)
    else pure carried
  bootStore (currentPageTable + 4 * tableIndex) (addr ||| PAGE_KERNEL ||| PAGE_GLOBAL)
  pure (currentPageTable, lastDirIndex)

/-- `map_kernel_memory`: the direct map of the first gigabyte. -/
def mapKernelMemory : Kernel Unit := do
  let _ ← iterate (0x40000000 / 4096) (0, 0xFFFFFFFF)
    fun i carried => L.mapKernelMemoryStep (i * 4096) carried
  pure ()

/-- `init_paging`. -/
def initPaging : Kernel Unit := do
  L.setupEntries
  L.mapKernelMemory

/-- `map_page`. -/
def mapPage (processDir virtualAddress availablePhysical flags : ℕ) : Kernel Unit := do
  if processDir < 0xC0000000 then return ()
  if 0xC0000000 ≤ availablePhysical then return ()
  let dirIndex := virtualAddress >>> 22
  let tableIndex := (virtualAddress >>> 12) &&& 0x3FF
  let entry ← L.load (processDir + 4 * dirIndex)
  let processTable ←
    if entry &&& 0x1 = 1 then
      pure (u32 ((entry &&& 0xFFFFF000) + 0xC0000000))
    else if processDir = L.kernelPageDir ∧ dirIndex = 0 then do
      L.store (processDir + 4 * dirIndex) (u32Sub L.kernelPageTable 0xC0000000 ||| flags)
      pure L.kernelPageTable
    else do
      let phys ← L.getNextFreeKernelFrame
      modify (·.noteTable phys)
      L.store (processDir + 4 * dirIndex) (phys ||| flags)
      pure (u32 (phys + 0xC0000000))
  L.store (u32 (processTable + 4 * tableIndex)) (availablePhysical ||| flags)
  modify (·.install processDir virtualAddress (availablePhysical ||| flags))

/-- The zeroing loop and the copy of the kernel half that every new directory gets. -/
def clearDirectory (dir : ℕ) : Kernel Unit := do
  times 1024 fun i => L.store (dir + 4 * i) 0
  times 256 fun i => do
    let entry ← L.load (L.kernelPageDir + 4 * (768 + i))
    L.store (dir + 4 * (768 + i)) entry

/-- `create_process_page_directory`. -/
def createProcessPageDirectory : Kernel ℕ := do
  let phys ← L.getNextFreeKernelFrame
  let procPageDir := u32 (phys + 0xC0000000)
  L.clearDirectory procPageDir
  pure procPageDir

end Layout

end RaxzusHeap
