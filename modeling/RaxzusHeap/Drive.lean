import RaxzusHeap.Shell

/-! # Sectors on a drive (`ata_disk_driver.c`)

The driver against a drive that follows LBA28 PIO as `ata_disk_driver.h` describes it: the
sector comes from four registers, a count register of 0 asks for 256 sectors, and every sector
is 256 words.  After a command and after every sector the drive is busy for some reads of the
status register; `delays` lists how many, so the polling loops take fuel.

Both transfers run through the words of the sectors asked for (`Transfer`), which are
`256 * count` exactly if the count is not 0 (`sectors_kept_iff`). -/

namespace RaxzusHeap

open Imperative

/-! ### The drive -/

def ATA_DATA : ℕ := 0x1F0
def ATA_STATUS : ℕ := 0x1F7
def ATA_STATUS_BSY : Byte := 0x80
def ATA_STATUS_DRQ : Byte := 0x08

/-- Which side puts the words on the data port. -/
inductive Direction
  | toHost
  | fromHost
  deriving DecidableEq

/-- A data transfer: the word of the disk that comes next, and how many words are left. -/
structure Transfer where
  direction : Direction
  next : ℕ
  left : ℕ

/-- Word `w` of sector `s` is `disk (256 * s + w)`. -/
structure Drive where
  disk : ℕ → BitVec 16
  select : Byte
  sectorCount : Byte
  lbaLow : Byte
  lbaMid : Byte
  lbaHigh : Byte
  transfer : Option Transfer
  busy : ℕ
  delays : List ℕ

/-- The sectors that a count register asks for. -/
def sectorsAsked (sectorCount : Byte) : ℕ := if sectorCount = 0 then 256 else sectorCount.toNat

namespace Drive

/-- The sector in the four registers. -/
def address (d : Drive) : ℕ :=
  (d.select &&& 0x0F).toNat * 2 ^ 24 + d.lbaHigh.toNat * 2 ^ 16 + d.lbaMid.toNat * 2 ^ 8 +
    d.lbaLow.toNat

/-- The drive is busy with its next step. -/
def work (d : Drive) : Drive := { d with busy := d.delays.headD 0, delays := d.delays.tail }

/-- A transfer of the sectors in the registers. -/
def start (d : Drive) (direction : Direction) : Drive :=
  { d.work with transfer := some ⟨direction, 256 * d.address, 256 * sectorsAsked d.sectorCount⟩ }

/-- A command for the master in LBA mode; while busy or in a transfer the drive takes none. -/
def command (d : Drive) (c : Byte) : Drive :=
  if d.busy = 0 ∧ d.transfer.isNone ∧ d.select &&& 0xF0 = ATA_MASTER then
    if c = ATA_CMD_READ then d.start .toHost
    else if c = ATA_CMD_WRITE then d.start .fromHost
    else if c = 0xE7 then d.work
    else d
  else d

/-- The status register. -/
def status (d : Drive) : Byte :=
  if d.busy ≠ 0 then ATA_STATUS_BSY
  else if d.transfer.isSome then 0x40 ||| ATA_STATUS_DRQ
  else 0x40

/-- One word of a transfer has passed; behind the last word of a sector the drive is busy. -/
def advance (d : Drive) (t : Transfer) : Drive :=
  { if (t.next + 1) % 256 = 0 then d.work else d with
    transfer := if t.left = 1 then none else some { t with next := t.next + 1, left := t.left - 1 } }

def outb (d : Drive) (port : ℕ) (v : Byte) : Drive :=
  if port = ATA_DRIVE then { d with select := v }
  else if port = ATA_SECTOR_COUNT then { d with sectorCount := v }
  else if port = ATA_LBA_LOW then { d with lbaLow := v }
  else if port = ATA_LBA_MID then { d with lbaMid := v }
  else if port = ATA_LBA_HIGH then { d with lbaHigh := v }
  else if port = ATA_COMMAND then d.command v
  else d

/-- Reading the status, here or at its second port, takes the time of one step. -/
def inb (d : Drive) (port : ℕ) : Byte × Drive :=
  if port = ATA_STATUS ∨ port = 0x3F6 then (d.status, { d with busy := d.busy - 1 }) else (0xFF, d)

def inw (d : Drive) (port : ℕ) : BitVec 16 × Drive :=
  match d.transfer with
  | some t =>
      if port = ATA_DATA ∧ d.busy = 0 ∧ t.direction = .toHost then (d.disk t.next, d.advance t)
      else (0xFFFF, d)
  | none => (0xFFFF, d)

/-- A word reaches the disk. -/
def store (d : Drive) (x : ℕ) (v : BitVec 16) : Drive :=
  { d with disk := Function.update d.disk x v }

def outw (d : Drive) (port : ℕ) (v : BitVec 16) : Drive :=
  match d.transfer with
  | some t =>
      if port = ATA_DATA ∧ d.busy = 0 ∧ t.direction = .fromHost then
        (d.store t.next v).advance t
      else d
  | none => d

end Drive

/-! ### The driver -/

/-- The drive and the memory that the buffers lie in. -/
structure Rig where
  drive : Drive
  mem : Word → Byte

/-- Code of the driver; it stops when a polling loop runs out of fuel. -/
abbrev Driver := EStateM Unit Rig

namespace Driver

def outb (port : ℕ) (v : Byte) : Driver Unit := fun r =>
  .ok () { r with drive := r.drive.outb port v }

def inb (port : ℕ) : Driver Byte := fun r =>
  .ok (r.drive.inb port).1 { r with drive := (r.drive.inb port).2 }

def inw (port : ℕ) : Driver (BitVec 16) := fun r =>
  .ok (r.drive.inw port).1 { r with drive := (r.drive.inw port).2 }

def outw (port : ℕ) (v : BitVec 16) : Driver Unit := fun r =>
  .ok () { r with drive := r.drive.outw port v }

/-- `while (test(inb(port))) {}` -/
def pollWhile (port : ℕ) (test : Byte → Bool) : ℕ → Driver Unit
  | 0 => throw ()
  | fuel + 1 => do
      let status ← inb port
      if test status then pollWhile port test fuel

end Driver

/-- The `uint16_t` at an address. -/
def Rig.half (r : Rig) (a : Word) : BitVec 16 := r.mem (a + 1) ++ r.mem a

/-- `*(uint16_t*)a = v`. -/
def Rig.setHalf (r : Rig) (a : Word) (v : BitVec 16) : Rig :=
  { r with
    mem := Function.update (Function.update r.mem a (v.setWidth 8)) (a + 1) ((v >>> 8).setWidth 8) }

/-- The address of `buffer[k]`. -/
def halfAddr (buffer : Word) (k : ℕ) : Word := buffer + BitVec.ofNat 32 (2 * k)

namespace Driver

variable (fuel : ℕ)

/-- `ata_wait_ready`. -/
def ataWaitReady : Driver Unit := pollWhile ATA_STATUS (fun s => s &&& 0x80 ≠ 0) fuel

/-- What both transfers do before their loops. -/
def ataIssue (lba : Word) (sectorCount command : Byte) : Driver Unit := do
  ataWaitReady fuel
  outb ATA_DRIVE (setMasterSlaveSuperLba lba ATA_MASTER)
  outb ATA_SECTOR_COUNT sectorCount
  outb ATA_LBA_LOW (getLowLba lba)
  outb ATA_LBA_MID (getMidLba lba)
  outb ATA_LBA_HIGH (getHighLba lba)
  pollWhile 0x1F7 (fun s => s &&& 0x80 ≠ 0) fuel
  outb ATA_COMMAND command
  let _ ← inb 0x3F6
  let _ ← inb 0x3F6
  let _ ← inb 0x3F6
  let _ ← inb 0x3F6
  ataWaitReady fuel

/-- The loop over the sectors that both transfers share. -/
def ataSectors (sectorCount : Byte) (word : ℕ → Driver Unit) : Driver Unit :=
  times sectorCount.toNat fun s => do
    ataWaitReady fuel
    pollWhile ATA_STATUS (fun s => s &&& 0x08 = 0) fuel
    times 256 fun i => word (s * 256 + i)

/-- `ata_read_sector`. -/
def ataReadSector (lba : Word) (sectorCount : Byte) (buffer : Word) : Driver Unit := do
  ataIssue fuel lba sectorCount ATA_CMD_READ
  ataSectors fuel sectorCount fun k => do
    let v ← inw ATA_DATA
    modify fun r => r.setHalf (halfAddr buffer k) v

/-- `ata_write_sector`. -/
def ataWriteSector (lba : Word) (sectorCount : Byte) (buffer : Word) : Driver Unit := do
  ataIssue fuel lba sectorCount ATA_CMD_WRITE
  ataSectors fuel sectorCount fun k => do
    let r ← get
    outw ATA_DATA (r.half (halfAddr buffer k))
  outb ATA_COMMAND 0xE7
  ataWaitReady fuel

end Driver

/-! ### Polling -/

/-- The drive with its current step done. -/
def Drive.ready (d : Drive) : Drive := { d with busy := 0 }

def Rig.ready (r : Rig) : Rig := { r with drive := r.drive.ready }

@[simp] theorem Rig.ready_drive (r : Rig) : r.ready.drive = r.drive.ready := rfl

@[simp] theorem Rig.ready_mem (r : Rig) : r.ready.mem = r.mem := rfl

@[simp] theorem Rig.ready_half (r : Rig) (a : Word) : r.ready.half a = r.half a := rfl

@[simp] theorem Drive.ready_disk (d : Drive) : d.ready.disk = d.disk := rfl

@[simp] theorem Drive.ready_transfer (d : Drive) : d.ready.transfer = d.transfer := rfl

@[simp] theorem Drive.ready_busy (d : Drive) : d.ready.busy = 0 := rfl

theorem Rig.ready_eq {r : Rig} (h : r.drive.busy = 0) : r.ready = r := by
  obtain ⟨d, mem⟩ := r
  obtain ⟨disk, select, sectorCount, lbaLow, lbaMid, lbaHigh, transfer, busy, delays⟩ := d
  obtain rfl : busy = 0 := h
  rfl

/-- Every step of the drive is done before a polling loop runs out of fuel. -/
structure Prompt (fuel : ℕ) (d : Drive) : Prop where
  busy : d.busy < fuel
  delays : ∀ n ∈ d.delays, n < fuel

namespace Prompt

variable {fuel : ℕ} {d d' : Drive}

theorem ready (h : Prompt fuel d) : Prompt fuel d.ready :=
  ⟨Nat.zero_lt_of_lt h.busy, h.delays⟩

theorem work (h : Prompt fuel d) : Prompt fuel d.work := by
  have hpos := Nat.zero_lt_of_lt h.busy
  refine ⟨?_, fun n hn => h.delays n (List.mem_of_mem_tail hn)⟩
  unfold Drive.work
  cases hl : d.delays with
  | nil => exact hpos
  | cons n l => exact h.delays n (hl ▸ List.mem_cons_self)

theorem congr (h : Prompt fuel d) (hbusy : d'.busy = d.busy) (hdelays : d'.delays = d.delays) :
    Prompt fuel d' := ⟨hbusy ▸ h.busy, hdelays ▸ h.delays⟩

theorem store (h : Prompt fuel d) (x : ℕ) (v : BitVec 16) : Prompt fuel (d.store x v) :=
  h.congr rfl rfl

theorem advance (h : Prompt fuel d) (t : Transfer) : Prompt fuel (d.advance t) := by
  unfold Drive.advance
  by_cases hlast : (t.next + 1) % 256 = 0
  · rw [if_pos hlast]
    exact h.work.congr rfl rfl
  · rw [if_neg hlast]
    exact h.congr rfl rfl

end Prompt

theorem exists_prompt (d : Drive) : ∃ fuel₀, ∀ fuel, fuel₀ ≤ fuel → Prompt fuel d := by
  refine ⟨d.busy + d.delays.sum + 1, fun fuel h => ⟨by omega, fun n hn => ?_⟩⟩
  have := List.le_sum_of_mem hn
  omega

namespace Driver

variable {fuel : ℕ} {r : Rig}

theorem status_busy {d : Drive} (h : d.busy ≠ 0) : d.status = ATA_STATUS_BSY := if_pos h

theorem status_ready {d : Drive} (h : d.busy = 0) :
    d.status = if d.transfer.isSome then 0x48 else 0x40 := if_neg (not_not.mpr h)

theorem inb_status_run (r : Rig) : inb ATA_STATUS r = .ok r.drive.status { r with
    drive := { r.drive with busy := r.drive.busy - 1 } } := rfl

theorem pollBusy (h : r.drive.busy < fuel) :
    pollWhile ATA_STATUS (fun s => s &&& 0x80 ≠ 0) fuel r = .ok () r.ready := by
  induction fuel generalizing r with
  | zero => omega
  | succ fuel ih =>
      unfold pollWhile
      by_cases hbusy : r.drive.busy = 0
      · have hstatus : ¬ r.drive.status &&& 0x80 ≠ 0 := by
          rw [status_ready hbusy]
          split <;> decide
        rw [run_bind_ok (inb_status_run r), if_neg (by simpa using hstatus), hbusy]
        rfl
      · have hstatus : r.drive.status &&& 0x80 ≠ 0 := by
          rw [status_busy hbusy]
          decide
        rw [run_bind_ok (inb_status_run r), if_pos (by simpa using hstatus)]
        exact ih (show r.drive.busy - 1 < fuel by omega)

theorem pollDrq (hbusy : r.drive.busy = 0) (ht : r.drive.transfer.isSome) (hfuel : 0 < fuel) :
    pollWhile ATA_STATUS (fun s => s &&& 0x08 = 0) fuel r = .ok () r := by
  obtain ⟨fuel, rfl⟩ := Nat.exists_eq_succ_of_ne_zero hfuel.ne'
  unfold pollWhile
  have hpolled : { r with drive := { r.drive with busy := r.drive.busy - 1 } } = r := by
    rw [hbusy]
    exact Rig.ready_eq hbusy
  rw [run_bind_ok (inb_status_run r), hpolled, status_ready hbusy, if_pos ht]
  rfl

/-! ### Issuing a command -/

/-- The five registers of a transfer. -/
def addressed (d : Drive) (lba : Word) (sectorCount : Byte) : Drive :=
  { d with
    select := setMasterSlaveSuperLba lba ATA_MASTER
    sectorCount := sectorCount
    lbaLow := getLowLba lba
    lbaMid := getMidLba lba
    lbaHigh := getHighLba lba }

theorem select_bits : ∀ x : Byte, x.toNat < 16 →
    (ATA_MASTER ||| x) &&& 0xF0 = ATA_MASTER ∧ (ATA_MASTER ||| x) &&& 0x0F = x := by
  decide +kernel

theorem superLba_toNat (lba : Word) :
    (((lba >>> 24) &&& 0x0F).setWidth 8 : Byte).toNat = lba.toNat / 2 ^ 24 % 16 := by
  rw [BitVec.toNat_setWidth, BitVec.toNat_and, BitVec.toNat_ushiftRight, Nat.shiftRight_eq_div_pow,
    show (0x0F : Word).toNat = 2 ^ 4 - 1 from rfl, Nat.and_two_pow_sub_one_eq_mod]
  omega

theorem addressed_select (d : Drive) (lba : Word) (sectorCount : Byte) :
    (addressed d lba sectorCount).select &&& 0xF0 = ATA_MASTER :=
  (select_bits _ (by rw [superLba_toNat]; omega)).1

theorem addressed_address {d : Drive} {lba : Word} {sectorCount : Byte} (h : lba.toNat < 2 ^ 28) :
    (addressed d lba sectorCount).address = lba.toNat := by
  have hbyte : ∀ x : Word, ((x &&& 0xFF).setWidth 8 : Byte).toNat = x.toNat % 256 := fun x => by
    rw [BitVec.toNat_setWidth, BitVec.toNat_and, show (0xFF : Word).toNat = 2 ^ 8 - 1 from rfl,
      Nat.and_two_pow_sub_one_eq_mod]
    omega
  have hsuper : (setMasterSlaveSuperLba lba ATA_MASTER &&& 0x0F).toNat = lba.toNat / 2 ^ 24 % 16 := by
    rw [setMasterSlaveSuperLba, (select_bits _ (by rw [superLba_toNat]; omega)).2, superLba_toNat]
  unfold Drive.address addressed
  dsimp only
  rw [hsuper, getHighLba, getMidLba, getLowLba, hbyte, hbyte, hbyte, BitVec.toNat_ushiftRight,
    BitVec.toNat_ushiftRight, Nat.shiftRight_eq_div_pow, Nat.shiftRight_eq_div_pow]
  omega

theorem outb_run (port : ℕ) (v : Byte) (r : Rig) :
    outb port v r = .ok () { r with drive := r.drive.outb port v } := rfl

theorem inb_alternate_run (r : Rig) : inb 0x3F6 r = .ok r.drive.status { r with
    drive := { r.drive with busy := r.drive.busy - 1 } } := rfl

/-- The command goes to the drive with its registers loaded, and the drive carries it out. -/
theorem ataIssue_run {lba : Word} {sectorCount c : Byte} (h : Prompt fuel r.drive)
    (hc : Prompt fuel ((addressed r.drive.ready lba sectorCount).command c)) :
    ataIssue fuel lba sectorCount c r =
      .ok () { r with drive := ((addressed r.drive.ready lba sectorCount).command c).ready } := by
  have hloaded : ((((r.drive.ready.outb ATA_DRIVE (setMasterSlaveSuperLba lba ATA_MASTER)).outb
      ATA_SECTOR_COUNT sectorCount).outb ATA_LBA_LOW (getLowLba lba)).outb ATA_LBA_MID
      (getMidLba lba)).outb ATA_LBA_HIGH (getHighLba lba) =
      addressed r.drive.ready lba sectorCount := rfl
  have hwait : ∀ q : Rig, q.drive.busy < fuel →
      pollWhile 0x1F7 (fun s => s &&& 0x80 ≠ 0) fuel q = .ok () q.ready := fun _ => pollBusy
  unfold ataIssue ataWaitReady
  rw [run_bind_ok (pollBusy h.busy), run_bind_ok (outb_run ..), run_bind_ok (outb_run ..),
    run_bind_ok (outb_run ..), run_bind_ok (outb_run ..), run_bind_ok (outb_run ..)]
  dsimp only [Rig.ready_drive]
  rw [hloaded, run_bind_ok (hwait _ h.ready.busy), run_bind_ok (outb_run ..),
    run_bind_ok (inb_alternate_run _), run_bind_ok (inb_alternate_run _),
    run_bind_ok (inb_alternate_run _), run_bind_ok (inb_alternate_run _)]
  refine (pollBusy ?_).trans rfl
  have := hc.busy
  show ((addressed r.drive.ready lba sectorCount).command c).busy - 1 - 1 - 1 - 1 < fuel
  omega

/-! ### The words of a transfer -/

/-- The transfer of `n` sectors from `sector` on, behind its first `k` words. -/
def transferAt (direction : Direction) (sector n k : ℕ) : Option Transfer :=
  if k < 256 * n then some ⟨direction, 256 * sector + k, 256 * n - k⟩ else none

section Advance

variable {d : Drive} {direction : Direction} {sector n k : ℕ}

theorem advance_transfer (hk : k < 256 * n) :
    (d.advance ⟨direction, 256 * sector + k, 256 * n - k⟩).transfer =
      transferAt direction sector n (k + 1) := by
  show (if 256 * n - k = 1 then none else _) = _
  unfold transferAt
  by_cases hlast : 256 * n - k = 1
  · rw [if_pos hlast, if_neg (by omega)]
  · rw [if_neg hlast, if_pos (by omega), Nat.add_assoc, Nat.sub_sub]

@[simp] theorem advance_disk (d : Drive) (t : Transfer) : (d.advance t).disk = d.disk := by
  unfold Drive.advance
  split <;> rfl

theorem advance_busy (t : Transfer) (h : (t.next + 1) % 256 ≠ 0) :
    (d.advance t).busy = d.busy := by
  unfold Drive.advance
  rw [if_neg h]

end Advance

/-- A rig behind `k` words of a transfer. -/
structure Running (fuel : ℕ) (direction : Direction) (sector n k : ℕ) (r : Rig) : Prop where
  prompt : Prompt fuel r.drive
  transfer : r.drive.transfer = transferAt direction sector n k

theorem Running.ready {direction : Direction} {sector n k : ℕ}
    (h : Running fuel direction sector n k r) : Running fuel direction sector n k r.ready :=
  ⟨h.prompt.ready, h.transfer⟩

theorem Running.transfer_eq {direction : Direction} {sector n k : ℕ}
    (h : Running fuel direction sector n k r) (hk : k < 256 * n) :
    r.drive.transfer = some ⟨direction, 256 * sector + k, 256 * n - k⟩ := by
  rw [h.transfer, transferAt, if_pos hk]

/-- The loop over the sectors: what every word keeps while the drive is ready holds behind the
last word. -/
theorem ataSectors_run {sectorCount : Byte} (word : ℕ → Driver Unit) {direction : Direction}
    {sector : ℕ} {P : ℕ → Rig → Prop} (hP : ∀ k r, P k r → P k r.ready)
    (hword : ∀ k r, k < 256 * sectorCount.toNat → r.drive.busy = 0 →
      Running fuel direction sector sectorCount.toNat k r → P k r →
      ∃ r', word k r = .ok () r' ∧ Running fuel direction sector sectorCount.toNat (k + 1) r' ∧
        ((k + 1) % 256 ≠ 0 → r'.drive.busy = 0) ∧ P (k + 1) r')
    (h0 : Running fuel direction sector sectorCount.toNat 0 r) (hP0 : P 0 r) :
    ∃ r', ataSectors fuel sectorCount word r = .ok () r' ∧
      Running fuel direction sector sectorCount.toNat (256 * sectorCount.toNat) r' ∧
      P (256 * sectorCount.toNat) r' := by
  refine times_rule _ (fun s r => Running fuel direction sector sectorCount.toNat (256 * s) r ∧
    P (256 * s) r) ⟨h0, hP0⟩ fun s r hs ⟨hrun, hPs⟩ => ?_
  have hsome : r.ready.drive.transfer.isSome := by
    rw [hrun.ready.transfer_eq (by omega)]
    rfl
  -- the words of one sector
  obtain ⟨r', hr, h', hP', -⟩ := times_rule (fun i => word (s * 256 + i))
    (fun i r => Running fuel direction sector sectorCount.toNat (256 * s + i) r ∧
      P (256 * s + i) r ∧ (i < 256 → r.drive.busy = 0)) (n := 256)
    ⟨hrun.ready, hP _ _ hPs, fun _ => rfl⟩ (fun i r hi ⟨hrun, hPi, hbusy⟩ => by
      obtain ⟨r', hr, h', hbusy', hP'⟩ := hword (256 * s + i) r (by omega) (hbusy hi) hrun hPi
      refine ⟨r', by rw [Nat.mul_comm s]; exact hr, h', hP', fun hi' => hbusy' (by omega)⟩)
  refine ⟨r', ?_, h', hP'⟩
  unfold ataWaitReady
  rw [run_bind_ok (pollBusy hrun.prompt.busy),
    run_bind_ok (pollDrq rfl hsome (Nat.zero_lt_of_lt hrun.prompt.busy))]
  exact hr

/-! ### Words in memory -/

theorem append_halves (v : BitVec 16) :
    (((v >>> 8).setWidth 8 : Byte) ++ (v.setWidth 8 : Byte) : BitVec 16) = v := by
  apply BitVec.eq_of_toNat_eq
  rw [BitVec.toNat_append, BitVec.toNat_setWidth, BitVec.toNat_setWidth, BitVec.toNat_ushiftRight,
    Nat.shiftRight_eq_div_pow, ← Nat.shiftLeft_add_eq_or_of_lt (Nat.mod_lt _ (by norm_num)),
    Nat.shiftLeft_eq]
  omega

theorem half_setHalf (r : Rig) (a : Word) (v : BitVec 16) : (r.setHalf a v).half a = v := by
  have hne : a ≠ a + 1 := by
    intro h
    have := congrArg BitVec.toNat h
    rw [BitVec.toNat_add, show (1 : Word).toNat = 1 from rfl] at this
    omega
  unfold Rig.half Rig.setHalf
  dsimp only
  rw [Function.update_self, Function.update_of_ne hne, Function.update_self, append_halves]

/-- Another word of the same buffer is left alone. -/
theorem half_setHalf_ne (r : Rig) (buffer : Word) (v : BitVec 16) {j k : ℕ} (hjk : j ≠ k)
    (hj : j < 2 ^ 31) (hk : k < 2 ^ 31) :
    (r.setHalf (halfAddr buffer k) v).half (halfAddr buffer j) = r.half (halfAddr buffer j) := by
  have hsep : ∀ x y : ℕ, x < 2 → y < 2 →
      halfAddr buffer j + BitVec.ofNat 32 x ≠ halfAddr buffer k + BitVec.ofNat 32 y := by
    intro x y hx hy h
    unfold halfAddr at h
    rw [BitVec.add_assoc, BitVec.add_assoc, BitVec.add_right_inj, ← BitVec.ofNat_add,
      ← BitVec.ofNat_add] at h
    have := congrArg BitVec.toNat h
    rw [BitVec.toNat_ofNat, BitVec.toNat_ofNat, Nat.mod_eq_of_lt (by omega),
      Nat.mod_eq_of_lt (by omega)] at this
    omega
  have h00 : halfAddr buffer j ≠ halfAddr buffer k := by simpa using hsep 0 0
  have h01 : halfAddr buffer j ≠ halfAddr buffer k + 1 := by simpa using hsep 0 1
  have h10 : halfAddr buffer j + 1 ≠ halfAddr buffer k := by simpa using hsep 1 0
  have h11 : halfAddr buffer j + 1 ≠ halfAddr buffer k + 1 := hsep 1 1 (by norm_num) (by norm_num)
  unfold Rig.half Rig.setHalf
  dsimp only
  rw [Function.update_of_ne h11, Function.update_of_ne h10, Function.update_of_ne h01,
    Function.update_of_ne h00]

/-! ### The two transfers -/

section Transfers

variable {lba : Word} {sectorCount : Byte}

theorem sectorsAsked_of_ne_zero (h : sectorCount ≠ 0) : sectorsAsked sectorCount = sectorCount.toNat :=
  if_neg h

variable (sectorCount) in
/-- A command for a transfer, given to a drive without one. -/
theorem ataIssue_start {c : Byte} {direction : Direction} (h : Prompt fuel r.drive)
    (hidle : r.drive.transfer = none) (hlba : lba.toNat < 2 ^ 28)
    (hc : c = ATA_CMD_READ ∧ direction = .toHost ∨ c = ATA_CMD_WRITE ∧ direction = .fromHost) :
    ∃ r', ataIssue fuel lba sectorCount c r = .ok () r' ∧
      Running fuel direction lba.toNat (sectorsAsked sectorCount) 0 r' ∧ r'.mem = r.mem ∧
      r'.drive.disk = r.drive.disk := by
  have hcommand : (addressed r.drive.ready lba sectorCount).command c =
      (addressed r.drive.ready lba sectorCount).start direction := by
    have htake : (addressed r.drive.ready lba sectorCount).busy = 0 ∧
        (addressed r.drive.ready lba sectorCount).transfer.isNone ∧
        (addressed r.drive.ready lba sectorCount).select &&& 0xF0 = ATA_MASTER :=
      ⟨rfl, by show r.drive.transfer.isNone; rw [hidle]; rfl, addressed_select ..⟩
    rw [Drive.command, if_pos htake]
    rcases hc with ⟨rfl, rfl⟩ | ⟨rfl, rfl⟩
    · rw [if_pos rfl]
    · rw [if_neg (by decide), if_pos rfl]
  have hloaded : Prompt fuel (addressed r.drive.ready lba sectorCount) := h.ready.congr rfl rfl
  have hprompt : Prompt fuel ((addressed r.drive.ready lba sectorCount).start direction) :=
    hloaded.work.congr rfl rfl
  refine ⟨_, ataIssue_run h (hcommand ▸ hprompt), ⟨?_, ?_⟩, rfl, ?_⟩
  · rw [hcommand]
    exact hprompt.ready
  · have hpos : 0 < 256 * sectorsAsked sectorCount := by
      unfold sectorsAsked
      split
      · norm_num
      · have := BitVec.toNat_ne_iff_ne.mpr ‹¬ sectorCount = 0›
        simp at this
        omega
    rw [hcommand, transferAt, if_pos hpos, Nat.add_zero, Nat.sub_zero, ← addressed_address hlba]
    rfl
  · rw [hcommand]
    rfl

theorem inw_run {t : Transfer} (ht : r.drive.transfer = some t) (hbusy : r.drive.busy = 0)
    (hd : t.direction = .toHost) :
    inw ATA_DATA r = .ok (r.drive.disk t.next) { r with drive := r.drive.advance t } := by
  have hin : r.drive.inw ATA_DATA = (r.drive.disk t.next, r.drive.advance t) := by
    rw [Drive.inw, ht]
    exact if_pos ⟨rfl, hbusy, hd⟩
  unfold inw
  rw [hin]

theorem outw_run {t : Transfer} (ht : r.drive.transfer = some t) (hbusy : r.drive.busy = 0)
    (hd : t.direction = .fromHost) (v : BitVec 16) :
    outw ATA_DATA v r = .ok () { r with drive := (r.drive.store t.next v).advance t } := by
  have hout : r.drive.outw ATA_DATA v = (r.drive.store t.next v).advance t := by
    rw [Drive.outw, ht]
    exact if_pos ⟨rfl, hbusy, hd⟩
  unfold outw
  rw [hout]

/-- What a write leaves on the disk behind its first `k` words. -/
def writtenTo (disk words : ℕ → BitVec 16) (sector k x : ℕ) : BitVec 16 :=
  if 256 * sector ≤ x ∧ x < 256 * sector + k then words (x - 256 * sector) else disk x

theorem writtenTo_succ (disk words : ℕ → BitVec 16) (sector k : ℕ) :
    Function.update (writtenTo disk words sector k) (256 * sector + k) (words k) =
      writtenTo disk words sector (k + 1) := by
  funext x
  by_cases hx : x = 256 * sector + k
  · rw [hx, Function.update_self, writtenTo, if_pos (by omega), Nat.add_sub_cancel_left]
  · rw [Function.update_of_ne hx, writtenTo, writtenTo]
    by_cases hin : 256 * sector ≤ x ∧ x < 256 * sector + k
    · rw [if_pos hin, if_pos (by omega)]
    · rw [if_neg hin, if_neg (by omega)]

/-- `ata_write_sector` of at least one sector. -/
theorem ataWriteSector_run (h : Prompt fuel r.drive) (hidle : r.drive.transfer = none)
    (hlba : lba.toNat < 2 ^ 28) (hcount : sectorCount ≠ 0) (buffer : Word) :
    ∃ r', ataWriteSector fuel lba sectorCount buffer r = .ok () r' ∧ Prompt fuel r'.drive ∧
      r'.drive.transfer = none ∧ r'.mem = r.mem ∧
      r'.drive.disk = writtenTo r.drive.disk (fun k => r.half (halfAddr buffer k)) lba.toNat
        (256 * sectorCount.toNat) := by
  obtain ⟨r₁, hr₁, hrun₁, hmem₁, hdisk₁⟩ := ataIssue_start sectorCount h hidle hlba
    (.inr ⟨rfl, rfl⟩)
  rw [sectorsAsked_of_ne_zero hcount] at hrun₁
  have hstart : r₁.drive.disk =
      writtenTo r.drive.disk (fun k => r.half (halfAddr buffer k)) lba.toNat 0 := by
    funext x
    rw [hdisk₁, writtenTo, if_neg (by omega)]
  obtain ⟨r₂, hr₂, hrun₂, hmem₂, hdisk₂⟩ := ataSectors_run
    (fun k => do
      let r ← get
      outw ATA_DATA (r.half (halfAddr buffer k)))
    (P := fun k q => q.mem = r.mem ∧ q.drive.disk =
      writtenTo r.drive.disk (fun k => r.half (halfAddr buffer k)) lba.toNat k)
    (fun k q hq => hq) (fun k q hk hbusy hrun ⟨hmem, hdisk⟩ => by
      refine ⟨_, outw_run (hrun.transfer_eq hk) hbusy rfl _,
        ⟨(hrun.prompt.store _ _).advance _, advance_transfer hk⟩, fun hin => ?_, hmem, ?_⟩
      · exact (advance_busy _ (by dsimp only; omega)).trans hbusy
      · have hword : q.half (halfAddr buffer k) = r.half (halfAddr buffer k) := by
          rw [Rig.half, Rig.half, hmem]
        rw [← writtenTo_succ, ← hdisk, ← hword]
        exact advance_disk _ _) hrun₁ ⟨hmem₁, hstart⟩
  have hdone : r₂.drive.transfer = none := by
    rw [hrun₂.transfer, transferAt, if_neg (by omega)]
  -- the flush
  have hflush : Prompt fuel (r₂.drive.command 0xE7) ∧ (r₂.drive.command 0xE7).transfer = none ∧
      (r₂.drive.command 0xE7).disk = r₂.drive.disk := by
    unfold Drive.command
    split
    · rw [if_neg (by decide), if_neg (by decide), if_pos rfl]
      exact ⟨hrun₂.prompt.work, hdone, rfl⟩
    · exact ⟨hrun₂.prompt, hdone, rfl⟩
  obtain ⟨hprompt, htransfer, hdisk⟩ := hflush
  refine ⟨{ r₂ with drive := (r₂.drive.command 0xE7).ready }, ?_, hprompt.ready, htransfer, hmem₂,
    hdisk.trans hdisk₂⟩
  unfold ataWriteSector
  rw [run_bind_ok hr₁, run_bind_ok hr₂, run_bind_ok (outb_run ..)]
  exact pollBusy (r := { r₂ with drive := r₂.drive.command 0xE7 }) hprompt.busy

/-- `ata_read_sector` of at least one sector. -/
theorem ataReadSector_run (h : Prompt fuel r.drive) (hidle : r.drive.transfer = none)
    (hlba : lba.toNat < 2 ^ 28) (hcount : sectorCount ≠ 0) (buffer : Word) :
    ∃ r', ataReadSector fuel lba sectorCount buffer r = .ok () r' ∧
      r'.drive.transfer = none ∧ r'.drive.disk = r.drive.disk ∧
      ∀ k, k < 256 * sectorCount.toNat →
        r'.half (halfAddr buffer k) = r.drive.disk (256 * lba.toNat + k) := by
  obtain ⟨r₁, hr₁, hrun₁, -, hdisk₁⟩ := ataIssue_start sectorCount h hidle hlba
    (.inl ⟨rfl, rfl⟩)
  rw [sectorsAsked_of_ne_zero hcount] at hrun₁
  have hlt := sectorCount.isLt
  obtain ⟨r₂, hr₂, hrun₂, hdisk₂, hwords⟩ := ataSectors_run
    (fun k => do
      let v ← inw ATA_DATA
      modify fun r => r.setHalf (halfAddr buffer k) v)
    (P := fun k q => q.drive.disk = r.drive.disk ∧ ∀ j, j < k →
      q.half (halfAddr buffer j) = r.drive.disk (256 * lba.toNat + j))
    (fun k q hq => hq) (fun k q hk hbusy hrun ⟨hdisk, hwords⟩ => by
      refine ⟨_, run_bind_ok (inw_run (hrun.transfer_eq hk) hbusy rfl),
        ⟨hrun.prompt.advance _, advance_transfer hk⟩, fun hin => ?_, (advance_disk _ _).trans hdisk,
        fun j hj => ?_⟩
      · exact (advance_busy _ (by dsimp only; omega)).trans hbusy
      · dsimp only
        by_cases hjk : j = k
        · rw [hjk, half_setHalf, hdisk]
        · rw [half_setHalf_ne _ _ _ hjk (by omega) (by omega)]
          exact hwords j (by omega)) hrun₁ ⟨hdisk₁, fun j hj => absurd hj (Nat.not_lt_zero j)⟩
  refine ⟨r₂, ?_, ?_, hdisk₂, hwords⟩
  · unfold ataReadSector
    rw [run_bind_ok hr₁]
    exact hr₂
  · rw [hrun₂.transfer, transferAt, if_neg (by omega)]

theorem ataSectors_zero (word : ℕ → Driver Unit) : ataSectors fuel 0 word r = .ok () r := rfl

theorem ataWriteSector_zero (h : Prompt fuel r.drive) (hidle : r.drive.transfer = none)
    (hlba : lba.toNat < 2 ^ 28) (buffer : Word) :
    ∃ r', ataWriteSector fuel lba 0 buffer r = .ok () r' ∧ r'.drive.transfer ≠ none := by
  obtain ⟨r₁, hr₁, hrun₁, -, -⟩ := ataIssue_start 0 h hidle hlba (.inr ⟨rfl, rfl⟩)
  have htransfer := hrun₁.transfer_eq (show 0 < 256 * sectorsAsked 0 by decide)
  have hrefused : r₁.drive.command 0xE7 = r₁.drive := by
    rw [Drive.command, if_neg]
    rw [htransfer]
    rintro ⟨-, h, -⟩
    cases h
  refine ⟨{ r₁ with drive := (r₁.drive.command 0xE7).ready }, ?_, ?_⟩
  · unfold ataWriteSector
    rw [run_bind_ok hr₁, run_bind_ok (ataSectors_zero _), run_bind_ok (outb_run ..)]
    have hbusy : (r₁.drive.command 0xE7).busy < fuel := by
      rw [hrefused]
      exact hrun₁.prompt.busy
    exact pollBusy (r := { r₁ with drive := r₁.drive.command 0xE7 }) hbusy
  · show (r₁.drive.command 0xE7).transfer ≠ none
    rw [hrefused, htransfer]
    exact Option.some_ne_none _

end Transfers

end Driver

/-- A write and a read of the same sectors: both end without an outstanding transfer, the second
buffer gets what the first held, and all other sectors are as before. -/
def SectorsKept (lba : Word) (sectorCount : Byte) (b b2 : Word) (r r₁ r₂ : Rig) : Prop :=
  r₁.drive.transfer = none ∧ r₂.drive.transfer = none ∧
    (∀ k, k < 256 * sectorsAsked sectorCount → r₂.half (halfAddr b2 k) = r.half (halfAddr b k)) ∧
    ∀ x, x / 256 < lba.toNat ∨ lba.toNat + sectorsAsked sectorCount ≤ x / 256 →
      r₂.drive.disk x = r.drive.disk x

/-- With enough fuel a write and a read of the same sectors return what was written, exactly if
the count is not 0. -/
theorem sectors_kept_iff (r : Rig) (lba : Word) (sectorCount : Byte) (b b2 : Word)
    (hidle : r.drive.transfer = none) (hlba : lba.toNat ≤ 2000) :
    (∃ fuel₀, ∀ fuel, fuel₀ ≤ fuel → ∃ r₁ r₂,
      Driver.ataWriteSector fuel lba sectorCount b r = .ok () r₁ ∧
      Driver.ataReadSector fuel lba sectorCount b2 r₁ = .ok () r₂ ∧
      SectorsKept lba sectorCount b b2 r r₁ r₂) ↔ sectorCount ≠ 0 := by
  obtain ⟨fuel₀, hfuel⟩ := exists_prompt r.drive
  have hlba' : lba.toNat < 2 ^ 28 := by omega
  constructor
  · rintro ⟨fuel₁, hall⟩ rfl
    obtain ⟨r₁, r₂, hr₁, -, hnone, -⟩ := hall (max fuel₀ fuel₁) (le_max_right ..)
    obtain ⟨r', hr', hsome⟩ := Driver.ataWriteSector_zero (hfuel _ (le_max_left _ fuel₁)) hidle hlba' b
    rw [hr₁] at hr'
    cases hr'
    exact hsome hnone
  · intro hcount
    refine ⟨fuel₀, fun fuel hle => ?_⟩
    obtain ⟨r₁, hr₁, hprompt, hnone₁, -, hdisk₁⟩ :=
      Driver.ataWriteSector_run (hfuel fuel hle) hidle hlba' hcount b
    obtain ⟨r₂, hr₂, hnone₂, hdisk₂, hwords⟩ :=
      Driver.ataReadSector_run hprompt hnone₁ hlba' hcount b2
    refine ⟨r₁, r₂, hr₁, hr₂, hnone₁, hnone₂, fun k hk => ?_, fun x hx => ?_⟩
    · rw [Driver.sectorsAsked_of_ne_zero hcount] at hk
      rw [hwords k hk, hdisk₁, Driver.writtenTo, if_pos (by omega), Nat.add_sub_cancel_left]
    · rw [Driver.sectorsAsked_of_ne_zero hcount] at hx
      rw [hdisk₂, hdisk₁, Driver.writtenTo, if_neg (by omega)]

/-- A drive that takes its time, and empty memory. -/
def Rig.idle : Rig where
  drive := ⟨fun x => BitVec.ofNat 16 x, 0, 0, 0, 0, 0, none, 2, [3, 0, 1]⟩
  mem := fun _ => 0

/-- A write and a read of no sectors at LBA 5. -/
theorem sectors_lost : ¬ ∃ fuel₀, ∀ fuel, fuel₀ ≤ fuel → ∃ r₁ r₂,
    Driver.ataWriteSector fuel 5 0 0x1000 Rig.idle = .ok () r₁ ∧
    Driver.ataReadSector fuel 5 0 0x8000 r₁ = .ok () r₂ ∧
    SectorsKept 5 0 0x1000 0x8000 Rig.idle r₁ r₂ := by
  rintro ⟨fuel₁, hall⟩
  obtain ⟨fuel₀, hfuel⟩ := exists_prompt Rig.idle.drive
  obtain ⟨r₁, r₂, hr₁, -, hnone, -⟩ := hall (max fuel₀ fuel₁) (le_max_right ..)
  obtain ⟨r', hr', hsome⟩ := Driver.ataWriteSector_zero (hfuel _ (le_max_left _ fuel₁)) rfl
    (show (5 : Word).toNat < 2 ^ 28 by decide) 0x1000
  rw [hr₁] at hr'
  cases hr'
  exact hsome hnone

/-- One sector at LBA 5. -/
theorem sectors_kept_iff_one : ∃ fuel₀, ∀ fuel, fuel₀ ≤ fuel → ∃ r₁ r₂,
    Driver.ataWriteSector fuel 5 1 0x1000 Rig.idle = .ok () r₁ ∧
    Driver.ataReadSector fuel 5 1 0x8000 r₁ = .ok () r₂ ∧
    SectorsKept 5 1 0x1000 0x8000 Rig.idle r₁ r₂ :=
  (sectors_kept_iff Rig.idle 5 1 0x1000 0x8000 rfl (by decide)).mpr (by decide)

end RaxzusHeap
