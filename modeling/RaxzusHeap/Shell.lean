import RaxzusHeap.Numbers
import RaxzusHeap.Runs

/-! # The shell and the disk (`kutils.c`, `ata_disk_driver.c`, `raxzus_shell.c`)

* **Input.** A command line is the list of its characters; it lies in `command_buffer` at
  address `input`.  The tokenizer overwrites blanks by NULs and stores the addresses of the
  words in a heap block, `argv`; the shell reads them back from there.
* **Events.** `Event` is what a command shows and sends to the disk.  An access to memory on
  behalf of the disk is noted before it is made, so a page fault does not hide it.
* **Ghost fields.** `live` and `calls` record the heap calls of the shell, with the blocks
  live before each.

The arguments of formats and the waits for the disk are left out. -/

namespace RaxzusHeap

open Imperative

/-- What a command shows and does. -/
inductive Event where
  | print (format : String)
  | screen (command : String)
  | outb (port : ℕ) (value : Byte)
  | ataReadSector (lba : Word) (sectorCount : Byte) (buffer : ℕ)
  | ataWriteSector (lba : Word) (sectorCount : Byte) (buffer : ℕ)
  | inw (addr : ℕ)
  | outw (addr : ℕ)
  | readByte (addr : ℕ)
deriving DecidableEq

/-- The machine, what has happened so far, and the heap calls made. -/
structure ShellState where
  machine : State
  events : List Event
  live : ℕ → Option ℕ
  calls : List HeapCall

/-- Code of the shell. -/
abbrev Shell := EStateM Stop ShellState

namespace Shell

/-- Kernel code run by the shell. -/
def lift {α : Type} (x : Kernel α) : Shell α := fun t =>
  match x t.machine with
  | .ok a s => .ok a { t with machine := s }
  | .error e s => .error e { t with machine := s }

def emit (e : Event) : Shell Unit := modify fun t => { t with events := t.events ++ [e] }

/-- A call of the heap. -/
def call (L : Layout) (op : HeapOp) : Shell ℕ := fun t =>
  match L.heapCall op t.machine with
  | .ok a s => .ok a
      { t with
        machine := s
        live := liveAfter t.live op a
        calls := t.calls ++ [⟨t.live, t.machine, op, a, s⟩] }
  | .error e s => .error e { t with machine := s }

def kmalloc (L : Layout) (size : ℕ) : Shell ℕ := call L (.kmalloc size)

def kfree (L : Layout) (p : ℕ) : Shell Unit := do
  let _ ← call L (.kfree p)
  pure ()

theorem emit_run (e : Event) (t : ShellState) :
    emit e t = .ok () { t with events := t.events ++ [e] } := rfl

theorem lift_ok {α : Type} {x : Kernel α} {t : ShellState} {a : α} {s : State}
    (h : x t.machine = .ok a s) : lift x t = .ok a { t with machine := s } := by
  unfold lift
  rw [h]

theorem call_ok {L : Layout} {op : HeapOp} {t : ShellState} {a : ℕ} {s : State}
    (h : L.heapCall op t.machine = .ok a s) :
    call L op t = .ok a
      { t with
        machine := s
        live := liveAfter t.live op a
        calls := t.calls ++ [⟨t.live, t.machine, op, a, s⟩] } := by
  unfold call
  rw [h]

theorem lift_eq_ok {α : Type} {x : Kernel α} {t t' : ShellState} {a : α}
    (h : lift x t = .ok a t') :
    ∃ s, x t.machine = .ok a s ∧ t' = { t with machine := s } := by
  unfold lift at h
  cases hx : x t.machine with
  | ok b s =>
      rw [hx] at h
      cases h
      exact ⟨s, rfl, rfl⟩
  | error e s => rw [hx] at h; cases h

theorem call_eq_ok {L : Layout} {op : HeapOp} {t t' : ShellState} {a : ℕ}
    (h : call L op t = .ok a t') :
    ∃ s, L.heapCall op t.machine = .ok a s ∧ t' =
      { t with
        machine := s
        live := liveAfter t.live op a
        calls := t.calls ++ [⟨t.live, t.machine, op, a, s⟩] } := by
  unfold call at h
  cases hx : L.heapCall op t.machine with
  | ok b s =>
      rw [hx] at h
      cases h
      exact ⟨s, rfl, rfl⟩
  | error e s => rw [hx] at h; cases h

theorem kmalloc_ok {L : Layout} {size : ℕ} {t : ShellState} {a : ℕ} {s : State}
    (h : L.kmalloc size t.machine = .ok a s) :
    Shell.kmalloc L size t = .ok a
      { t with
        machine := s
        live := liveAfter t.live (.kmalloc size) a
        calls := t.calls ++ [⟨t.live, t.machine, .kmalloc size, a, s⟩] } :=
  call_ok h

end Shell

open Shell

/-! ### `kutils.c` -/

/-- The loop of `tokinize_words` over the rest of the line: `pos` is `sim_input - input`.
It returns the line with its NULs and the number of words. -/
def Layout.tokinizeLoop (L : Layout) (argv input : ℕ) :
    List Byte → Bool → ℕ → ℕ → Shell (List Byte × ℕ)
  | [], _, _, index => pure ([], index)
  | c :: rest, isString, pos, index => do
      let isString := if c = 34 then !isString else isString
      if c = char ' ' ∧ isString = false then do
        lift (L.store (u32 (argv + 4 * index)) (input + (pos + 1)))
        let (text, count) ← L.tokinizeLoop argv input rest isString (pos + 1) (index + 1)
        pure (0 :: text, count)
      else do
        let (text, count) ← L.tokinizeLoop argv input rest isString (pos + 1) index
        pure (c :: text, count)

/-- `tokinize_words`. -/
def Layout.tokinizeWords (L : Layout) (input : ℕ) (line : List Byte) :
    Shell (ℕ × List Byte × ℕ) := do
  let argv ← Shell.kmalloc L 200
  lift (L.store argv input)
  let (text, count) ← L.tokinizeLoop argv input line false 0 1
  pure (argv, text, count)

/-- The string at address `p` in the command buffer. -/
def stringAt (input : ℕ) (text : List Byte) (p : ℕ) : List Byte :=
  (text.drop (p - input)).takeWhile (· ≠ 0)

/-- A tokenized line: the block of the words, the line with its NULs, the number of words. -/
structure Words where
  argv : ℕ
  input : ℕ
  text : List Byte
  count : ℕ

/-- `argv[k]`. -/
def Layout.wordPtr (L : Layout) (w : Words) (k : ℕ) : Shell ℕ :=
  lift (L.load (u32 (w.argv + 4 * k)))

/-- The string `argv[k]`. -/
def Layout.word (L : Layout) (w : Words) (k : ℕ) : Shell (List Byte) := do
  let p ← L.wordPtr w k
  pure (stringAt w.input w.text p)

/-! ### `ata_disk_driver.c` -/

def ATA_SECTOR_COUNT : ℕ := 0x1F2
def ATA_LBA_LOW : ℕ := 0x1F3
def ATA_LBA_MID : ℕ := 0x1F4
def ATA_LBA_HIGH : ℕ := 0x1F5
def ATA_DRIVE : ℕ := 0x1F6
def ATA_COMMAND : ℕ := 0x1F7
def ATA_CMD_READ : Byte := 0x20
def ATA_CMD_WRITE : Byte := 0x30
def ATA_MASTER : Byte := 0xE0

def setMasterSlaveSuperLba (lba : Word) (driveSelect : Byte) : Byte :=
  driveSelect ||| ((lba >>> 24) &&& 0x0F).setWidth 8

def getLowLba (lba : Word) : Byte := (lba &&& 0xFF).setWidth 8

def getMidLba (lba : Word) : Byte := ((lba >>> 8) &&& 0xFF).setWidth 8

def getHighLba (lba : Word) : Byte := ((lba >>> 16) &&& 0xFF).setWidth 8

/-- The registers that both transfers start with. -/
def ataSetup (lba : Word) (sectorCount command : Byte) : Shell Unit := do
  emit (.outb ATA_DRIVE (setMasterSlaveSuperLba lba ATA_MASTER))
  emit (.outb ATA_SECTOR_COUNT sectorCount)
  emit (.outb ATA_LBA_LOW (getLowLba lba))
  emit (.outb ATA_LBA_MID (getMidLba lba))
  emit (.outb ATA_LBA_HIGH (getHighLba lba))
  emit (.outb ATA_COMMAND command)

/-- `*(uint16_t*)va = v`. -/
def Layout.storeHalf (L : Layout) (va v : ℕ) : Kernel Unit := do
  L.storeByte va (v % 256)
  L.storeByte (u32 (va + 1)) (v / 256)

/-- `ata_read_sector`; `disk k` is the word that the `k`-th read of the data port returns. -/
def Layout.ataReadSector (L : Layout) (disk : ℕ → BitVec 16) (lba : Word) (sectorCount : Byte)
    (buffer : ℕ) : Shell Unit := do
  emit (.ataReadSector lba sectorCount buffer)
  ataSetup lba sectorCount ATA_CMD_READ
  times sectorCount.toNat fun s =>
    times 256 fun i => do
      let addr := u32 (buffer + 2 * (s * 256 + i))
      emit (.inw addr)
      lift (L.storeHalf addr (disk (s * 256 + i)).toNat)

/-- `ata_write_sector`.  It reads the command buffer and what lies behind it, where the kernel
keeps its variables. -/
def ataWriteSector (lba : Word) (sectorCount : Byte) (buffer : ℕ) : Shell Unit := do
  emit (.ataWriteSector lba sectorCount buffer)
  ataSetup lba sectorCount ATA_CMD_WRITE
  times sectorCount.toNat fun s =>
    times 256 fun i => emit (.outw (u32 (buffer + 2 * (s * 256 + i))))
  emit (.outb ATA_COMMAND 0xE7)

/-! ### `diskW` and `diskR` -/

/-- The tests of `argv[1]` and `argv[2]` that `diskW` and `diskR` share: the two numbers, or
the message of the first test that fails. -/
def diskArgs (argv1 argv2 : List Byte) : Except String (Word × Word) :=
  if isValidNumber argv1 = false ∨ isValidNumber argv2 = false then
    .error "\nThis commande requires the first inputs to be integers and the last to be a pointer\n"
  else if 2000 < (stringToInt argv1).toInt ∨ (stringToInt argv1).toInt < 0 then
    .error "\nThis commande requires the first input to be in disk size\n"
  else if (stringToInt argv2).toInt < 0 ∨ 255 < (stringToInt argv2).toInt then
    .error "\nThis commande requires the first input to \n"
  else .ok (stringToInt argv1, stringToInt argv2)

/-- `diskW`; `false` when the source returns before `kfree(argv)`. -/
def Layout.diskW (L : Layout) (w : Words) : Shell Bool := do
  if w.count ≠ 4 then do
    emit (.print "\nThis commande requires 3 flag inputs (LBA, Segment, what to save)\n")
    pure false
  else do
    let argv1 ← L.word w 1
    let argv2 ← L.word w 2
    match diskArgs argv1 argv2 with
    | .error message => do
        emit (.print message)
        pure false
    | .ok (param1, param2) => do
        let buffer ← L.wordPtr w 3
        ataWriteSector param1 (param2.setWidth 8) buffer
        emit (.print "\nSuccessfully wrote to disk at \nLBA: %d, \nsector size: %d, \nthe data: %s \n")
        pure true

/-- The loop of `diskR` that shows the first 1024 characters. -/
def Layout.showBuffer (L : Layout) (buffer : ℕ) : Shell Unit :=
  times 1024 fun i => do
    emit (.readByte (u32 (buffer + i)))
    let c ← lift (L.loadByte (u32 (buffer + i)))
    if 32 ≤ c ∧ c ≤ 126 then emit (.print "%c")

/-- `diskR`; `false` when the source returns before `kfree(argv)`. -/
def Layout.diskR (L : Layout) (disk : ℕ → BitVec 16) (w : Words) : Shell Bool := do
  if w.count ≠ 3 then do
    emit (.print "\nThis commande requires 2 flag inputs (LBA, Segment)\n")
    pure false
  else do
    let argv1 ← L.word w 1
    let argv2 ← L.word w 2
    match diskArgs argv1 argv2 with
    | .error message => do
        emit (.print message)
        pure false
    | .ok (_, param2) => do
        let buffer ← Shell.kmalloc L (u32 (param2.toNat * 512))
        L.ataReadSector disk 49 10 buffer
        L.showBuffer buffer
        pure true

end RaxzusHeap
