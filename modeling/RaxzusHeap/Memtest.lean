import RaxzusHeap.Shell

/-! # The memory tests (`memtest.c`) and the dispatch of the shell (`process_input`)

`memtest 1` fills five tables with the pointers of 40000 blocks of five sizes, frees every
second block of two of them, and then everything; a block whose first word has changed ends
the test early.  `memtest 2` fills two large buffers, reads them back and compares their
addresses.  Of what the tests print only their verdicts are kept: headings, progress lines,
pointers, the gap between the buffers and the cycles are left out. -/

namespace RaxzusHeap

open Imperative Shell

def FRAG_N : ℕ := 40000

/-- One of the tables of `cmd_memtest_v1`: its address, the size of its blocks, and the factor
of the numbers written into them. -/
structure PtrTable where
  base : ℕ
  size : ℕ
  factor : ℕ
deriving DecidableEq

namespace Layout

variable (L : Layout)

/-- `table[i]`. -/
def tableEntry (c : PtrTable) (i : ℕ) : Shell ℕ := lift (L.load (u32 (c.base + 4 * i)))

/-- `table[i] = kmalloc(size); *(uint32_t*)table[i] = (i+1)*factor`. -/
def fillEntry (c : PtrTable) (i : ℕ) : Shell Unit := do
  let p ← Shell.kmalloc L c.size
  lift (L.store (u32 (c.base + 4 * i)) p)
  let q ← L.tableEntry c i
  lift (L.store q (u32 ((i + 1) * c.factor)))

/-- `*(uint32_t*)table[i] == (i+1)*factor`. -/
def entryKept (c : PtrTable) (i : ℕ) : Shell Bool := do
  let q ← L.tableEntry c i
  let v ← lift (L.load q)
  pure (v = u32 ((i + 1) * c.factor))

/-- `kfree(table[i])`. -/
def freeEntry (c : PtrTable) (i : ℕ) : Shell Unit := do
  let q ← L.tableEntry c i
  Shell.kfree L q
  lift (L.store (u32 (c.base + 4 * i)) 0)

/-- The checks of one turn, in order, up to the first that fails. -/
def entriesKept (i : ℕ) : List PtrTable → Shell Bool
  | [] => pure true
  | c :: cs => do
      if ← L.entryKept c i then entriesKept i cs else pure false

/-- A loop of checks over all indices, up to the first that fails. -/
def checkTables (tables : ℕ → List PtrTable) : Shell Bool :=
  iterate FRAG_N true fun i good => if good then L.entriesKept i (tables i) else pure false

/-- The timing samples. -/
def timeSamples : Shell Unit :=
  times 32 fun _ => do
    let p ← Shell.kmalloc L 1024
    lift (L.store p 42)
    Shell.kfree L p

/-- `cmd_memtest_v1` once its tables are filled. -/
def memtestTables (s64 s128 s256 s512 s1024 : PtrTable) : Shell Unit := do
  let kept ← L.checkTables fun _ => [s64, s128, s256, s512, s1024]
  if kept then do
    times FRAG_N fun k => if k % 2 = 0 then L.freeEntry s64 k else pure ()
    times FRAG_N fun j => if j % 2 = 0 then L.freeEntry s256 j else pure ()
    let kept ← L.checkTables fun i =>
      (if i % 2 ≠ 0 then [s64, s256] else []) ++ [s128, s512, s1024]
    if kept then do
      L.timeSamples
      times FRAG_N fun i => do
        L.freeEntry s64 i
        L.freeEntry s128 i
        L.freeEntry s256 i
        L.freeEntry s512 i
        L.freeEntry s1024 i
      Shell.kfree L s64.base
      Shell.kfree L s256.base
      Shell.kfree L s512.base
      Shell.kfree L s128.base
      Shell.kfree L s1024.base
      L.timeSamples
    else emit (.print "One of the blocks has been corrupted, PANIC!!")
  else emit (.print "One of the blocks has been corrupted, PANIC!!")

/-- `cmd_memtest_v1`. -/
def cmdMemtestV1 : Shell Unit := do
  let s64 ← Shell.kmalloc L (FRAG_N * 4)
  let s128 ← Shell.kmalloc L (FRAG_N * 4)
  let s256 ← Shell.kmalloc L (FRAG_N * 4)
  let s512 ← Shell.kmalloc L (FRAG_N * 4)
  let s1024 ← Shell.kmalloc L (FRAG_N * 4)
  times FRAG_N fun i => do
    L.fillEntry ⟨s64, 50, 3⟩ i
    L.fillEntry ⟨s128, 100, 7⟩ i
    L.fillEntry ⟨s256, 200, 11⟩ i
    L.fillEntry ⟨s512, 500, 13⟩ i
    L.fillEntry ⟨s1024, 1000, 17⟩ i
  L.memtestTables ⟨s64, 50, 3⟩ ⟨s128, 100, 7⟩ ⟨s256, 200, 11⟩ ⟨s512, 500, 13⟩ ⟨s1024, 1000, 17⟩

/-- A large buffer of `cmd_memtest_v2`: allocate `size` bytes, write `pattern i` to byte `i` and
count the bytes that do not read back. -/
def patternBuffer (size : ℕ) (pattern : ℕ → ℕ) (fail pass wrong : String) : Shell ℕ := do
  let buffer ← Shell.kmalloc L size
  if buffer = 0 then emit (.print fail)
  else do
    times size fun i => lift (L.storeByte (u32 (buffer + i)) (pattern i))
    let bad ← iterate size 0 fun i bad => do
      let b ← lift (L.loadByte (u32 (buffer + i)))
      pure (if b ≠ pattern i then bad + 1 else bad)
    if bad = 0 then emit (.print pass) else emit (.print wrong)
  pure buffer

/-- What `cmd_memtest_v2` says about the addresses of its buffers. -/
def compareBuffers (buf64k buf1m : ℕ) : Shell Unit :=
  if buf64k ≠ 0 ∧ buf1m ≠ 0 then
    if buf64k < buf1m then
      emit (.print "  PASS: Regions are non-overlapping and virtually contiguous\n")
    else emit (.print "  FAIL: Region addresses overlap!\n")
  else pure ()

/-- The timed allocations of `cmd_memtest_v2`, and the releases. -/
def largeTimings (buf64k buf1m : ℕ) : Shell Unit := do
  let tbuf ← Shell.kmalloc L 4096
  let tbuf8 ← Shell.kmalloc L (8 * 4096)
  let tbig ← Shell.kmalloc L (1024 * 1024)
  Shell.kfree L tbig
  Shell.kfree L tbuf
  Shell.kfree L tbuf8
  if buf64k ≠ 0 then Shell.kfree L buf64k
  if buf1m ≠ 0 then Shell.kfree L buf1m

/-- `cmd_memtest_v2`. -/
def cmdMemtestV2 : Shell Unit := do
  let buf64k ← L.patternBuffer (64 * 1024) (fun i => i &&& 0xFF)
    "  FAIL: kmalloc(64K) returned NULL\n"
    "  PASS: 64 KB written and verified (65536 bytes, zero errors)\n"
    "  FAIL: %d bytes corrupted in 64 KB region\n"
  let buf1m ← L.patternBuffer (1024 * 1024) (fun i => (i ^^^ (i >>> 8)) &&& 0xFF)
    "  FAIL: kmalloc(1MB) returned NULL\n"
    "  PASS: 1 MB written and verified (1048576 bytes, zero errors)\n"
    "  FAIL: %d bytes corrupted in 1 MB region\n"
  compareBuffers buf64k buf1m
  L.largeTimings buf64k buf1m

/-- The commands of `process_input`; `false` when the source returns before `kfree(argv)`. -/
def runCommand (disk : ℕ → BitVec 16) (w : Words) : Shell Bool := do
  let argv0 ← L.word w 0
  if checkString argv0 (cstr "help") then do
    emit (.screen "cmd_help")
    pure true
  else if checkString argv0 (cstr "neofetch") then do
    emit (.screen "cmd_neofetch")
    pure true
  else if checkString argv0 (cstr "mem") then pure true
  else if checkString argv0 (cstr "memtest") then do
    if w.count < 2 then do
      emit (.print "Usage: memtest 1  (fragmentation + WCET O(1) timing)\n")
      emit (.print "       memtest 2  (large allocation test)\n")
    else do
      let argv1 ← L.word w 1
      if checkString argv1 (cstr "1") then L.cmdMemtestV1
      else if checkString argv1 (cstr "2") then L.cmdMemtestV2
      else emit (.print "Unknown test. Use memtest 1 or memtest 2\n")
    pure true
  else if checkString argv0 (cstr "time") then do
    emit (.screen "print_rtc_time")
    pure true
  else if checkString argv0 (cstr "clear") then do
    emit (.screen "clearScreen")
    pure true
  else if checkString argv0 (cstr "diskW") then L.diskW w
  else if checkString argv0 (cstr "diskR") then L.diskR disk w
  else do
    emit (.print "\n%eCommand not found\n")
    pure true

/-- `process_input` for the line at address `input`. -/
def processInput (disk : ℕ → BitVec 16) (input : ℕ) (line : List Byte) : Shell Unit := do
  let (argv, text, count) ← L.tokinizeWords input line
  let fellThrough ← L.runCommand disk ⟨argv, input, text, count⟩
  if fellThrough then Shell.kfree L argv else pure ()

end Layout

end RaxzusHeap
