import RaxzusHeap.Machine

/-! # The physical memory manager (`pmm.c`)

One bit per 4 KB frame of the 4 GB physical address space, searched from the bottom for
the first clear bit.  The marking helpers take and divide signed `int`s, as in the source;
a negative shift count is taken modulo 32, as the x86 shift instruction does. -/

namespace RaxzusHeap

open Imperative

def ALLOCATE : ℕ := 1
def FREE : ℕ := 0

/-- Number of words of the bitmap. -/
def bitmapSize : ℕ := 32768

/-- A `uint32_t` passed where an `int` is expected. -/
def toInt (n : ℕ) : ℤ := if n < 2 ^ 31 then (n : ℤ) else (n : ℤ) - 2 ^ 32

/-- An `int` returned where a `uint32_t` is expected. -/
def ofInt (z : ℤ) : ℕ := (z % 2 ^ 32).toNat

/-- `calculate_page`: C division truncates towards zero. -/
def calculatePage (frameAddr : ℤ) : ℕ := ofInt (frameAddr.tdiv 4096)

def findIndex (frame : ℤ) : ℕ := ofInt (frame.tdiv 32)

def findBit (frame : ℤ) : ℕ := ofInt (frame.tmod 32)

/-- `1 << bit`. -/
def bitMask (bit : ℤ) : Word := 1#32 <<< (bit % 32).toNat

/-- Overwrite `bitmap[index]`. -/
def State.setBitmap (s : State) (index : ℤ) (w : Word) : State :=
  { s with bitmap := fun i => if i = index then w else s.bitmap i }

def setBit (index bit : ℤ) (status : ℕ) : Kernel ℕ := do
  let s ← get
  if status = ALLOCATE then do
    let w := s.bitmap index ||| bitMask bit
    modify (·.setBitmap index w)
    pure w.toNat
  else if status = FREE then do
    let w := s.bitmap index &&& ~~~ (bitMask bit)
    modify (·.setBitmap index w)
    pure w.toNat
  else pure 0

def setFrame (frameAddr : ℕ) : Kernel Unit := do
  if 0xC0000000 ≤ frameAddr then return ()
  let frame := calculatePage (toInt frameAddr)
  let index := findIndex (toInt frame)
  let bit := findBit (toInt frame)
  let _ ← setBit (toInt index) (toInt bit) ALLOCATE
  pure ()

def clearFrame (frameAddr : ℕ) : Kernel ℕ := do
  if 0xC0000000 ≤ frameAddr then return 0
  let frame := calculatePage (toInt frameAddr)
  let index := findIndex (toInt frame)
  let bit := findBit (toInt frame)
  setBit (toInt index) (toInt bit) FREE

/-- `used_frames++`. -/
def incrementUsedFrames : Kernel Unit :=
  modify fun s => { s with usedFrames := u32 (s.usedFrames + 1) }

/-- `init_pmm`: an empty bitmap in which the frames of the kernel image are then marked. -/
def Layout.initPmm (L : Layout) : Kernel Unit := do
  let physicalKernelMemoryEnd := u32Sub L.heapStart 0xC0000000
  times bitmapSize fun i => modify (·.setBitmap i 0)
  times ((physicalKernelMemoryEnd + 4095) / 4096) fun i => do
    setFrame (i * 4096)
    incrementUsedFrames

/-- The bit loop of `get_next_free_kernel_frame`, with `n` positions left. -/
def kernelBitLoop (safeStart index : ℕ) : ℕ → ℕ → Word → Kernel (Option ℕ)
  | 0, _, _ => pure none
  | n + 1, bitPosition, bitCheck => do
      let frame := u32 (index * 32 + bitPosition)
      let address := u32 (frame * 4096)
      let s ← get
      if s.bitmap index &&& bitCheck = 0 then
        if address < safeStart then
          kernelBitLoop safeStart index n (bitPosition + 1) (bitCheck <<< 1)
        else do
          setFrame address
          incrementUsedFrames
          pure (some address)
      else
        kernelBitLoop safeStart index n (bitPosition + 1) (bitCheck <<< 1)

/-- The word loop of `get_next_free_kernel_frame`, with `n` words left. -/
def kernelWordLoop (safeStart : ℕ) : ℕ → ℕ → Kernel ℕ
  | 0, _ => pure 0
  | n + 1, index => do
      let s ← get
      if s.bitmap index = 0xFFFFFFFF#32 then kernelWordLoop safeStart n (index + 1)
      else do
        match ← kernelBitLoop safeStart index 32 0 1 with
        | some address => pure address
        | none => kernelWordLoop safeStart n (index + 1)

/-- `get_next_free_kernel_frame`. -/
def Layout.getNextFreeKernelFrame (L : Layout) : Kernel ℕ :=
  let safeStart := u32 (u32Sub L.heapStart 0xC0000000 + 4095) &&& 0xFFFFF000
  let startIndex := safeStart / 4096 / 32
  kernelWordLoop safeStart (bitmapSize - startIndex) startIndex

/-- The bit loop of `get_next_free_process_frame`, with `n` positions left. -/
def processBitLoop (index : ℕ) : ℕ → ℕ → Word → Kernel (Option ℕ)
  | 0, _, _ => pure none
  | n + 1, bitPosition, bitCheck => do
      let frame := u32 (index * 32 + bitPosition)
      let address := u32 (frame * 4096)
      if address = 0 then throw .halted
      let s ← get
      if s.bitmap index &&& bitCheck = 0 then do
        setFrame address
        incrementUsedFrames
        pure (some address)
      else
        processBitLoop index n (bitPosition + 1) (bitCheck <<< 1)

/-- The word loop of `get_next_free_process_frame`, with `n` words left. -/
def processWordLoop : ℕ → ℕ → Kernel ℕ
  | 0, _ => pure 0
  | n + 1, index => do
      let s ← get
      if s.bitmap index = 0xFFFFFFFF#32 then processWordLoop n (index + 1)
      else do
        match ← processBitLoop index 32 0 1 with
        | some address => pure address
        | none => processWordLoop n (index + 1)

/-- `get_next_free_process_frame`. -/
def getNextFreeProcessFrame : Kernel ℕ := processWordLoop bitmapSize 0

end RaxzusHeap
