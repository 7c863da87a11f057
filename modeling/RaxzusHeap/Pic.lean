import RaxzusHeap.Console
import RaxzusHeap.Lib.Fields

/-! # The interrupt controllers (`pic.c`)

* **Controllers.** `Pic` is one 8259A as the code drives it: the initialisation that a command
  with bit 4 starts and that takes the next bytes from the data port, the mask that the data port
  reads and writes otherwise, and the lines in service, of which an end-of-interrupt command
  clears the first.  `Pics` is the pair, with the slave on line 2 of the master.
* **Shifts.** `1 << irq` is that of the processor, which takes the count modulo 32:
  `pic_disable_irq(46)` changes the bit of line 14.
* **Runs** (`PicEvent`).  `pic_remap` once, from whatever the firmware left; then requests of the
  kernel, interrupts taken where the pair offers them, and handlers that end with `pic_send_eoi`
  of their line.  A handler may be interrupted: `memtest` runs in the keyboard handler and opens
  the interrupts.

The masks are those of the last requests (`Pics.masks_last`), and what is in service is what the
handlers that still run are for (`Pics.inService_running`). -/

namespace RaxzusHeap

/-- What the data port of an 8259A takes next. -/
inductive Expects where
  | icw2
  | icw3
  | icw4
  | mask
deriving DecidableEq, Repr

/-- One 8259A. -/
structure Pic where
  mask : Byte
  vectors : Byte
  cascade : Byte
  mode : Byte
  inService : Byte
  expects : Expects
  single : Bool
  wantsMode : Bool
deriving DecidableEq, Repr

namespace Pic

/-- A byte to the command port: an initialisation, an end of interrupt, or something the code
does not use. -/
def command (p : Pic) (v : Byte) : Pic :=
  if v.getLsbD 4 then
    { p with mask := 0, inService := 0, expects := .icw2, single := v.getLsbD 1, wantsMode := v.getLsbD 0 }
  else if v = 0x20 then { p with inService := p.inService &&& (p.inService - 1) }
  else p

/-- A byte to the data port. -/
def data (p : Pic) (v : Byte) : Pic :=
  let last : Expects := if p.wantsMode then .icw4 else .mask
  match p.expects with
  | .icw2 => { p with vectors := v &&& 0xF8, expects := if p.single then last else .icw3 }
  | .icw3 => { p with cascade := v, expects := last }
  | .icw4 => { p with mode := v, expects := .mask }
  | .mask => { p with mask := v }

/-- The processor takes an interrupt from line `i`. -/
def accept (p : Pic) (i : ℕ) : Pic := { p with inService := p.inService ||| (1 : Byte) <<< i }

end Pic

/-- The pair. -/
structure Pics where
  master : Pic
  slave : Pic
deriving DecidableEq, Repr

def PIC1_COMMAND : ℕ := 0x20
def PIC1_DATA : ℕ := 0x21
def PIC2_COMMAND : ℕ := 0xA0
def PIC2_DATA : ℕ := 0xA1
def PIC_EOI : Byte := 0x20

namespace Pics

/-- `outb`, to the ports of the pair. -/
def outb (p : Pics) (port : ℕ) (v : Byte) : Pics :=
  if port = PIC1_COMMAND then { p with master := p.master.command v }
  else if port = PIC1_DATA then { p with master := p.master.data v }
  else if port = PIC2_COMMAND then { p with slave := p.slave.command v }
  else if port = PIC2_DATA then { p with slave := p.slave.data v }
  else p

/-- `inb`, from the data ports of the pair. -/
def inb (p : Pics) (port : ℕ) : Byte :=
  if port = PIC1_DATA then p.master.mask else p.slave.mask

/-- `1 << irq`, as a mask. -/
def irqBit (irq : Byte) : Byte := ((1 : BitVec 32) <<< (irq.toNat % 32)).setWidth 8

/-- `pic_remap`. -/
def picRemap (offset1 offset2 : Byte) (p : Pics) : Pics :=
  let mask1 := p.inb PIC1_DATA
  let mask2 := p.inb PIC2_DATA
  let p := p.outb PIC1_COMMAND 0x11
  let p := p.outb PIC2_COMMAND 0x11
  let p := p.outb PIC1_DATA offset1
  let p := p.outb PIC2_DATA offset2
  let p := p.outb PIC1_DATA 0x04
  let p := p.outb PIC2_DATA 0x02
  let p := p.outb PIC1_DATA 0x01
  let p := p.outb PIC2_DATA 0x01
  let p := p.outb PIC1_DATA mask1
  p.outb PIC2_DATA mask2

/-- `pic_enable_irq` and `pic_disable_irq`: change the mask of the controller of `irq`. -/
def changeMask (change : Byte → Byte → Byte) (irq : Byte) (p : Pics) : Pics :=
  let port := if irq < 8 then PIC1_DATA else PIC2_DATA
  let irq := if irq < 8 then irq else irq - 8
  let mask := p.inb port
  p.outb port (change mask (irqBit irq))

/-- `pic_enable_irq`. -/
def picEnableIrq : Byte → Pics → Pics := changeMask fun mask bit => mask &&& ~~~ bit

/-- `pic_disable_irq`. -/
def picDisableIrq : Byte → Pics → Pics := changeMask fun mask bit => mask ||| bit

/-- `pic_send_eoi`. -/
def picSendEoi (irq : Byte) (p : Pics) : Pics :=
  let p := if 8 ≤ irq then p.outb PIC2_COMMAND PIC_EOI else p
  p.outb PIC1_COMMAND PIC_EOI

/-- The processor takes the interrupt of line `i`. -/
def accept (p : Pics) (i : ℕ) : Pics :=
  if i < 8 then { p with master := p.master.accept i }
  else { master := p.master.accept 2, slave := p.slave.accept (i - 8) }

/-- The mask bit of line `i`. -/
def maskBit (p : Pics) (i : ℕ) : Bool :=
  if i < 8 then p.master.mask.getLsbD i else p.slave.mask.getLsbD (i - 8)

/-- The pair offers line `i` to the processor: it is not masked, and no line of the same or a
higher priority is in service. -/
def Offers (p : Pics) (i : ℕ) : Prop :=
  if i < 8 then p.maskBit i = false ∧ ∀ k ≤ i, p.master.inService.getLsbD k = false
  else p.maskBit 2 = false ∧ (∀ k ≤ 2, p.master.inService.getLsbD k = false) ∧
    p.maskBit i = false ∧ ∀ k ≤ i - 8, p.slave.inService.getLsbD k = false

instance (p : Pics) (i : ℕ) : Decidable (p.Offers i) := by
  unfold Offers
  infer_instance

/-- The vector of line `i`. -/
def vector (p : Pics) (i : ℕ) : ℕ :=
  if i < 8 then (p.master.vectors ||| BitVec.ofNat 8 i).toNat
  else (p.slave.vectors ||| BitVec.ofNat 8 (i - 8)).toNat

/-- The pair is initialised, with these vectors. -/
structure Ready (p : Pics) (offset1 offset2 : Byte) : Prop where
  master : p.master.expects = .mask ∧ p.master.vectors = offset1 &&& 0xF8 ∧
    p.master.cascade = 0x04 ∧ p.master.mode = 0x01
  slave : p.slave.expects = .mask ∧ p.slave.vectors = offset2 &&& 0xF8 ∧
    p.slave.cascade = 0x02 ∧ p.slave.mode = 0x01

end Pics

/-- What happens to the pair once it is initialised. -/
inductive PicEvent where
  | enable (irq : Byte)
  | disable (irq : Byte)
  | take (i : ℕ)
  | finish
deriving DecidableEq, Repr

/-- The pair, and the lines of the handlers that run, the innermost first. -/
structure Serving where
  pics : Pics
  handlers : List ℕ

namespace Serving

/-- One event.  An interrupt that is not offered waits in its device. -/
def step (s : Serving) : PicEvent → Serving
  | .enable irq => { s with pics := s.pics.picEnableIrq irq }
  | .disable irq => { s with pics := s.pics.picDisableIrq irq }
  | .take i =>
      if i < 16 ∧ i ≠ 2 ∧ s.pics.Offers i then ⟨s.pics.accept i, i :: s.handlers⟩ else s
  | .finish =>
      match s.handlers with
      | [] => s
      | i :: rest => ⟨s.pics.picSendEoi (BitVec.ofNat 8 i), rest⟩

/-- A run. -/
def run (s : Serving) (es : List PicEvent) : Serving := es.foldl step s

end Serving

/-! ### Bits -/

theorem irqBit_getLsbD (irq : Byte) {j : ℕ} (hj : j < 8) :
    (Pics.irqBit irq).getLsbD j = decide (irq.toNat % 32 = j) := by
  have all : ∀ irq : Byte, ∀ j : Fin 8,
      (Pics.irqBit irq).getLsbD j = decide (irq.toNat % 32 = j) := by decide +kernel
  exact all irq ⟨j, hj⟩

theorem withoutFirst_getLsbD (x : Byte) {j : ℕ} (hj : j < 8) :
    (x &&& (x - 1)).getLsbD j = true ↔ x.getLsbD j = true ∧ ∃ k < j, x.getLsbD k = true := by
  have all : ∀ x : Byte, ∀ j : Fin 8,
      ((x &&& (x - 1)).getLsbD j = true ↔ x.getLsbD j = true ∧ ∃ k < j.1, x.getLsbD k = true) := by
    decide +kernel
  exact all x ⟨j, hj⟩

theorem line_getLsbD (x : Byte) {i j : ℕ} (hi : i < 8) (hj : j < 8) :
    (x ||| (1 : Byte) <<< i).getLsbD j = (x.getLsbD j || decide (i = j)) := by
  have all : ∀ i j : Fin 8, ((1 : Byte) <<< i.1).getLsbD j = decide (i = j) := by decide
  have bit := all ⟨i, hi⟩ ⟨j, hj⟩
  simp only [BitVec.getLsbD_or, Fin.mk.injEq] at bit ⊢
  rw [bit]

/-! ### Initialisation and requests -/

namespace Pics

variable {p : Pics} {o₁ o₂ : Byte}

theorem picRemap_ready (o₁ o₂ : Byte) (p : Pics) : (p.picRemap o₁ o₂).Ready o₁ o₂ := by
  constructor <;> simp [picRemap, outb, inb, Pic.command, Pic.data, PIC1_COMMAND, PIC1_DATA,
    PIC2_COMMAND, PIC2_DATA]

theorem picRemap_maskBit (o₁ o₂ : Byte) (p : Pics) (i : ℕ) :
    (p.picRemap o₁ o₂).maskBit i = p.maskBit i := by
  simp [picRemap, maskBit, outb, inb, Pic.command, Pic.data, PIC1_COMMAND, PIC1_DATA,
    PIC2_COMMAND, PIC2_DATA]

theorem picRemap_idle (o₁ o₂ : Byte) (p : Pics) :
    (p.picRemap o₁ o₂).master.inService = 0 ∧ (p.picRemap o₁ o₂).slave.inService = 0 := by
  simp [picRemap, outb, inb, Pic.command, Pic.data, PIC1_COMMAND, PIC1_DATA, PIC2_COMMAND,
    PIC2_DATA]

theorem maskBit_of_offers {i : ℕ} (h : p.Offers i) : p.maskBit i = false := by
  unfold Offers at h
  split at h
  · exact h.1
  · exact h.2.2.1

/-- The line whose mask a request for `irq` changes. -/
def lineOf (irq : Byte) : Option ℕ :=
  if irq.toNat < 8 then some irq.toNat
  else if (irq.toNat - 8) % 32 < 8 then some (8 + (irq.toNat - 8) % 32) else none

theorem changeMask_master {change : Byte → Byte → Byte} {irq : Byte} (h : p.Ready o₁ o₂)
    (hirq : irq.toNat < 8) :
    changeMask change irq p =
      { p with master := { p.master with mask := change p.master.mask (irqBit irq) } } := by
  have lt : irq < 8 := hirq
  obtain ⟨⟨m, -⟩, -⟩ := h
  simp only [changeMask, if_pos lt, outb, inb, Pic.data, m]
  rfl

theorem changeMask_slave {change : Byte → Byte → Byte} {irq : Byte} (h : p.Ready o₁ o₂)
    (hirq : ¬ irq.toNat < 8) :
    changeMask change irq p =
      { p with slave := { p.slave with mask := change p.slave.mask (irqBit (irq - 8)) } } := by
  have lt : ¬ irq < 8 := hirq
  obtain ⟨-, ⟨s, -⟩⟩ := h
  simp only [changeMask, if_neg lt, outb, inb, Pic.data, s]
  rfl

theorem changeMask_ready {change : Byte → Byte → Byte} (irq : Byte) (h : p.Ready o₁ o₂) :
    (changeMask change irq p).Ready o₁ o₂ := by
  by_cases lt : irq.toNat < 8
  · rw [changeMask_master h lt]
    exact ⟨h.master, h.slave⟩
  · rw [changeMask_slave h lt]
    exact ⟨h.master, h.slave⟩

theorem changeMask_inService {change : Byte → Byte → Byte} (irq : Byte) (h : p.Ready o₁ o₂) :
    (changeMask change irq p).master.inService = p.master.inService ∧
      (changeMask change irq p).slave.inService = p.slave.inService := by
  by_cases lt : irq.toNat < 8
  · simp [changeMask_master h lt]
  · simp [changeMask_slave h lt]

/-- A request changes the bit of its line, and that one only. -/
theorem changeMask_maskBit {change : Byte → Byte → Byte} {b : Bool}
    (bits : ∀ (mask bit : Byte) {j : ℕ}, j < 8 →
      (change mask bit).getLsbD j = if bit.getLsbD j then b else mask.getLsbD j)
    (irq : Byte) (h : p.Ready o₁ o₂) {i : ℕ} (hi : i < 16) :
    (changeMask change irq p).maskBit i = if lineOf irq = some i then b else p.maskBit i := by
  by_cases lt : irq.toNat < 8
  · rw [changeMask_master h lt]
    by_cases hi' : i < 8
    · have small : irq.toNat % 32 = irq.toNat := Nat.mod_eq_of_lt (by omega)
      simp only [maskBit, hi', if_true, bits _ _ hi', irqBit_getLsbD _ hi', lineOf, lt, small,
        decide_eq_true_eq, Option.some.injEq]
    · have other : irq.toNat ≠ i := by omega
      simp [maskBit, hi', lineOf, lt, other]
  · rw [changeMask_slave h lt]
    have sub : (irq - 8).toNat = irq.toNat - 8 :=
      BitVec.toNat_sub_of_le (Nat.le_of_not_lt lt : (8 : Byte).toNat ≤ irq.toNat)
    by_cases hi' : i < 8
    · have other : ∀ k, 8 + k ≠ i := by omega
      simp [maskBit, hi', lineOf, lt, other]
    · have hk : i - 8 < 8 := by omega
      have line : lineOf irq = some i ↔ (irq.toNat - 8) % 32 = i - 8 := by
        simp only [lineOf, lt, if_false]
        split <;> simp <;> omega
      simp only [maskBit, hi', if_false, bits _ _ hk, irqBit_getLsbD _ hk, line, sub,
        decide_eq_true_eq]

theorem picEnableIrq_maskBit (irq : Byte) (h : p.Ready o₁ o₂) {i : ℕ} (hi : i < 16) :
    (p.picEnableIrq irq).maskBit i = if lineOf irq = some i then false else p.maskBit i := by
  refine changeMask_maskBit (fun mask bit j hj => ?_) irq h hi
  cases hb : bit.getLsbD j <;> simp only [BitVec.getLsbD_and, BitVec.getLsbD_not, hb] <;> simp [hj]

theorem picDisableIrq_maskBit (irq : Byte) (h : p.Ready o₁ o₂) {i : ℕ} (hi : i < 16) :
    (p.picDisableIrq irq).maskBit i = if lineOf irq = some i then true else p.maskBit i := by
  refine changeMask_maskBit (fun mask bit j hj => ?_) irq h hi
  cases hb : bit.getLsbD j <;> simp only [BitVec.getLsbD_or, hb] <;> simp

end Pics

/-! ### Runs: the masks -/

namespace PicEvent

/-- What an event asks of the mask of line `i`. -/
def request (i : ℕ) : PicEvent → Option Bool
  | .enable irq => if Pics.lineOf irq = some i then some false else none
  | .disable irq => if Pics.lineOf irq = some i then some true else none
  | _ => none

end PicEvent

namespace Pics

variable {p : Pics} {o₁ o₂ : Byte}

theorem accept_ready (h : p.Ready o₁ o₂) (i : ℕ) : (p.accept i).Ready o₁ o₂ := by
  unfold accept
  split
  · exact ⟨h.master, h.slave⟩
  · exact ⟨h.master, h.slave⟩

theorem accept_maskBit (p : Pics) (i j : ℕ) : (p.accept i).maskBit j = p.maskBit j := by
  by_cases hi : i < 8 <;> simp [accept, hi, maskBit, Pic.accept]

/-- `pic_send_eoi` clears the first line in service of the master, and for a line of the slave
also that of the slave. -/
theorem picSendEoi_eq (irq : Byte) (p : Pics) :
    p.picSendEoi irq =
      { master :=
          { p.master with inService := p.master.inService &&& (p.master.inService - 1) }
        slave :=
          if 8 ≤ irq.toNat then
            { p.slave with inService := p.slave.inService &&& (p.slave.inService - 1) }
          else p.slave } := by
  have le : (8 : Byte) ≤ irq ↔ 8 ≤ irq.toNat := Iff.rfl
  by_cases h : 8 ≤ irq.toNat
  · simp only [picSendEoi, if_pos (le.mpr h), if_pos h]
    rfl
  · simp only [picSendEoi, if_neg (fun h' => h (le.mp h')), if_neg h]
    rfl

theorem picSendEoi_ready (irq : Byte) (h : p.Ready o₁ o₂) : (p.picSendEoi irq).Ready o₁ o₂ := by
  rw [picSendEoi_eq]
  refine ⟨h.master, ?_⟩
  dsimp only
  split
  · exact h.slave
  · exact h.slave

theorem picSendEoi_maskBit (irq : Byte) (p : Pics) (j : ℕ) :
    (p.picSendEoi irq).maskBit j = p.maskBit j := by
  rw [picSendEoi_eq]
  by_cases h : 8 ≤ irq.toNat <;> simp [maskBit, h]

end Pics

namespace Serving

variable {s : Serving} {o₁ o₂ : Byte}

theorem step_enable (s : Serving) (irq : Byte) :
    s.step (.enable irq) = { s with pics := s.pics.picEnableIrq irq } := rfl

theorem step_disable (s : Serving) (irq : Byte) :
    s.step (.disable irq) = { s with pics := s.pics.picDisableIrq irq } := rfl

theorem step_take {i : ℕ} (offered : i < 16 ∧ i ≠ 2 ∧ s.pics.Offers i) :
    s.step (.take i) = ⟨s.pics.accept i, i :: s.handlers⟩ := if_pos offered

theorem step_take_waits {i : ℕ} (offered : ¬ (i < 16 ∧ i ≠ 2 ∧ s.pics.Offers i)) :
    s.step (.take i) = s := if_neg offered

theorem step_finish_nil (h : s.handlers = []) : s.step .finish = s := by simp only [step, h]

theorem step_finish {i : ℕ} {rest : List ℕ} (h : s.handlers = i :: rest) :
    s.step .finish = ⟨s.pics.picSendEoi (BitVec.ofNat 8 i), rest⟩ := by simp only [step, h]

theorem step_ready (h : s.pics.Ready o₁ o₂) (e : PicEvent) : (s.step e).pics.Ready o₁ o₂ := by
  cases e with
  | enable irq =>
    rw [step_enable]
    dsimp only [Pics.picEnableIrq]
    exact Pics.changeMask_ready irq h
  | disable irq =>
    rw [step_disable]
    dsimp only [Pics.picDisableIrq]
    exact Pics.changeMask_ready irq h
  | take i =>
    by_cases offered : i < 16 ∧ i ≠ 2 ∧ s.pics.Offers i
    · rw [step_take offered]
      exact Pics.accept_ready h i
    · rwa [step_take_waits offered]
  | finish =>
    cases handlers : s.handlers with
    | nil => rwa [step_finish_nil handlers]
    | cons i rest =>
      rw [step_finish handlers]
      exact Pics.picSendEoi_ready _ h

theorem step_maskBit (h : s.pics.Ready o₁ o₂) (e : PicEvent) {i : ℕ} (hi : i < 16) :
    (s.step e).pics.maskBit i = (e.request i).getD (s.pics.maskBit i) := by
  cases e with
  | enable irq =>
    simp only [step_enable, Pics.picEnableIrq_maskBit irq h hi, PicEvent.request]
    split <;> simp
  | disable irq =>
    simp only [step_disable, Pics.picDisableIrq_maskBit irq h hi, PicEvent.request]
    split <;> simp
  | take j =>
    simp only [PicEvent.request, Option.getD_none]
    by_cases offered : j < 16 ∧ j ≠ 2 ∧ s.pics.Offers j
    · rw [step_take offered, Pics.accept_maskBit]
    · rw [step_take_waits offered]
  | finish =>
    simp only [PicEvent.request, Option.getD_none]
    cases handlers : s.handlers with
    | nil => rw [step_finish_nil handlers]
    | cons j rest => rw [step_finish handlers, Pics.picSendEoi_maskBit]

theorem run_ready (h : s.pics.Ready o₁ o₂) (es : List PicEvent) : (s.run es).pics.Ready o₁ o₂ := by
  induction es generalizing s with
  | nil => exact h
  | cons e es ih => exact ih (step_ready h e)

theorem run_maskBit (h : s.pics.Ready o₁ o₂) (es : List PicEvent) {i : ℕ} (hi : i < 16) :
    (s.run es).pics.maskBit i =
      (es.filterMap (PicEvent.request i)).getLast?.getD (s.pics.maskBit i) :=
  foldl_last step (fun s => s.pics.maskBit i) (PicEvent.request i) (fun s => s.pics.Ready o₁ o₂)
    (fun _ e h => step_ready h e) (fun _ e h => step_maskBit h e hi) h es

end Serving

/-- From any state of the pair, also half way through an initialisation: after `pic_remap` and
any run, the pair is initialised with the two offsets, and the mask of each line is what the last
request for it asked, or what the firmware left where there was none. -/
theorem Pics.masks_last (o₁ o₂ : Byte) (p : Pics) (es : List PicEvent) :
    ((Serving.run ⟨p.picRemap o₁ o₂, []⟩ es).pics).Ready o₁ o₂ ∧
      ∀ i < 16, (Serving.run ⟨p.picRemap o₁ o₂, []⟩ es).pics.maskBit i =
        (es.filterMap (PicEvent.request i)).getLast?.getD (p.maskBit i) := by
  have ready := Pics.picRemap_ready o₁ o₂ p
  refine ⟨Serving.run_ready ready es, fun i hi => ?_⟩
  rw [Serving.run_maskBit ready es hi, Pics.picRemap_maskBit]

/-! ### Runs: what is in service -/

/-- The line of the master that a line of the pair uses. -/
def masterLine (i : ℕ) : ℕ := if i < 8 then i else 2

theorem masterLine_lt {i : ℕ} : masterLine i < 8 := by
  unfold masterLine
  split <;> omega

namespace Serving

/-- What is in service is what the running handlers are for; they are nested by priority. -/
structure Sound (s : Serving) : Prop where
  lines : ∀ i ∈ s.handlers, i < 16 ∧ i ≠ 2
  nested : s.handlers.Pairwise (masterLine · < masterLine ·)
  master : ∀ j < 8, s.pics.master.inService.getLsbD j = true ↔ ∃ i ∈ s.handlers, masterLine i = j
  slave : ∀ j < 8, s.pics.slave.inService.getLsbD j = true ↔ 8 + j ∈ s.handlers

variable {s : Serving} {o₁ o₂ : Byte}

/-- What the pair offers: the lines that are not masked and have a higher priority than every
handler that runs. -/
theorem Sound.offers_iff (h : s.Sound) {i : ℕ} (hi : i < 16) :
    s.pics.Offers i ↔ s.pics.maskBit i = false ∧ (8 ≤ i → s.pics.maskBit 2 = false) ∧
      ∀ j ∈ s.handlers, masterLine i < masterLine j := by
  have above : (∀ k ≤ masterLine i, s.pics.master.inService.getLsbD k = false) ↔
      ∀ j ∈ s.handlers, masterLine i < masterLine j := by
    constructor
    · intro clear j hj
      by_contra le
      have set := (h.master (masterLine j) masterLine_lt).mpr ⟨j, hj, rfl⟩
      simp [clear _ (Nat.le_of_not_lt le)] at set
    · intro lt k hk
      rw [Bool.eq_false_iff]
      intro set
      obtain ⟨j, hj, rfl⟩ := (h.master k (lt_of_le_of_lt hk masterLine_lt)).mp set
      exact Nat.not_lt.mpr hk (lt j hj)
  by_cases hi8 : i < 8
  · have line : masterLine i = i := if_pos hi8
    rw [line] at above
    simp only [Pics.Offers, hi8, if_true, above, line]
    constructor
    · rintro ⟨mask, lt⟩
      exact ⟨mask, fun h8 => absurd h8 (Nat.not_le.mpr hi8), lt⟩
    · rintro ⟨mask, -, lt⟩
      exact ⟨mask, lt⟩
  · have line : masterLine i = 2 := if_neg hi8
    rw [line] at above
    simp only [Pics.Offers, hi8, if_false, above, line]
    constructor
    · rintro ⟨mask2, lt, mask, -⟩
      exact ⟨mask, fun _ => mask2, lt⟩
    · rintro ⟨mask, mask2, lt⟩
      refine ⟨mask2 (Nat.le_of_not_lt hi8), lt, mask, fun k hk => ?_⟩
      rw [Bool.eq_false_iff]
      intro set
      -- a line of the slave in service would hold line 2 of the master
      have mem := (h.slave k (by omega)).mp set
      have := lt _ mem
      simp [masterLine] at this

theorem sound_request {p : Pics} (h : s.Sound)
    (kept : p.master.inService = s.pics.master.inService ∧
      p.slave.inService = s.pics.slave.inService) : Sound { s with pics := p } where
  lines := h.lines
  nested := h.nested
  master := by
    simp only [kept.1]
    exact h.master
  slave := by
    simp only [kept.2]
    exact h.slave

theorem sound_take (h : s.Sound) {i : ℕ} (hi : i < 16) (hi2 : i ≠ 2) (offered : s.pics.Offers i) :
    Sound ⟨s.pics.accept i, i :: s.handlers⟩ := by
  obtain ⟨-, -, above⟩ := (h.offers_iff hi).mp offered
  refine ⟨?_, List.pairwise_cons.mpr ⟨above, h.nested⟩, ?_, ?_⟩
  · intro j hj
    obtain rfl | hj := List.mem_cons.mp hj
    · exact ⟨hi, hi2⟩
    · exact h.lines j hj
  · intro j hj
    have bits : (s.pics.accept i).master.inService =
        s.pics.master.inService ||| (1 : Byte) <<< masterLine i := by
      unfold Pics.accept masterLine
      split <;> rfl
    rw [bits, line_getLsbD _ masterLine_lt hj, Bool.or_eq_true, h.master j hj, or_comm]
    simp
  · intro j hj
    by_cases hi8 : i < 8
    · have other : 8 + j ≠ i := by omega
      simp only [Pics.accept, hi8, if_true, h.slave j hj, List.mem_cons, other, false_or]
    · have line : 8 + j = i ↔ i - 8 = j := by omega
      simp only [Pics.accept, hi8, if_false, Pic.accept]
      rw [line_getLsbD _ (show i - 8 < 8 by omega) hj, Bool.or_eq_true, h.slave j hj, or_comm]
      simp [line]

theorem sound_finish (h : s.Sound) {i : ℕ} {rest : List ℕ} (handlers : s.handlers = i :: rest) :
    Sound ⟨s.pics.picSendEoi (BitVec.ofNat 8 i), rest⟩ := by
  obtain ⟨lines, nested, master, slave⟩ := h
  rw [handlers] at lines nested master slave
  obtain ⟨above, nested⟩ := List.pairwise_cons.mp nested
  obtain ⟨hi, hi2⟩ := lines i List.mem_cons_self
  have small : (BitVec.ofNat 8 i).toNat = i := by simp; omega
  rw [Pics.picSendEoi_eq, small]
  refine ⟨fun j hj => lines j (List.mem_cons_of_mem i hj), nested, ?_, ?_⟩
  · intro j hj
    -- the first line in service is that of the handler that ends
    have first : (∃ k < j, s.pics.master.inService.getLsbD k = true) ↔ masterLine i < j := by
      constructor
      · rintro ⟨k, hk, set⟩
        obtain ⟨x, hx, rfl⟩ := (master k (hk.trans hj)).mp set
        obtain rfl | hx := List.mem_cons.mp hx
        · exact hk
        · exact (above x hx).trans hk
      · intro lt
        exact ⟨masterLine i, lt, (master _ masterLine_lt).mpr ⟨i, List.mem_cons_self, rfl⟩⟩
    dsimp only
    rw [withoutFirst_getLsbD _ hj, master j hj, first]
    constructor
    · rintro ⟨⟨x, hx, e⟩, lt⟩
      obtain rfl | hx := List.mem_cons.mp hx
      · exact absurd e lt.ne
      · exact ⟨x, hx, e⟩
    · rintro ⟨x, hx, rfl⟩
      exact ⟨⟨x, List.mem_cons_of_mem i hx, rfl⟩, above x hx⟩
  · intro j hj
    dsimp only
    by_cases hi8 : 8 ≤ i
    · have none : ∀ x ∈ rest, x < 8 := by
        intro x hx
        have lt := above x hx
        simp only [masterLine] at lt
        split at lt <;> split at lt <;> omega
      have only : ∀ k < 8, s.pics.slave.inService.getLsbD k = true → 8 + k = i := by
        intro k hk set
        obtain e | mem := List.mem_cons.mp ((slave k hk).mp set)
        · exact e
        · have := none _ mem
          omega
      simp only [if_pos hi8]
      rw [withoutFirst_getLsbD _ hj]
      constructor
      · rintro ⟨set, k, hk, set'⟩
        have := only j hj set
        have := only k (hk.trans hj) set'
        omega
      · intro mem
        have := none _ mem
        omega
    · have other : 8 + j ≠ i := by omega
      simp [hi8, slave j hj, other]

theorem step_sound (ready : s.pics.Ready o₁ o₂) (h : s.Sound) (e : PicEvent) :
    (s.step e).Sound := by
  cases e with
  | enable irq =>
    rw [step_enable]
    exact sound_request h (Pics.changeMask_inService irq ready)
  | disable irq =>
    rw [step_disable]
    exact sound_request h (Pics.changeMask_inService irq ready)
  | take i =>
    by_cases offered : i < 16 ∧ i ≠ 2 ∧ s.pics.Offers i
    · rw [step_take offered]
      exact sound_take h offered.1 offered.2.1 offered.2.2
    · rwa [step_take_waits offered]
  | finish =>
    cases handlers : s.handlers with
    | nil => rwa [step_finish_nil handlers]
    | cons i rest =>
      rw [step_finish handlers]
      exact sound_finish h handlers

theorem run_sound (ready : s.pics.Ready o₁ o₂) (h : s.Sound) (es : List PicEvent) :
    (s.run es).Sound := by
  induction es generalizing s with
  | nil => exact h
  | cons e es ih => exact ih (step_ready ready e) (step_sound ready h e)

theorem picRemap_sound (o₁ o₂ : Byte) (p : Pics) : Sound ⟨p.picRemap o₁ o₂, []⟩ := by
  obtain ⟨m, s⟩ := Pics.picRemap_idle o₁ o₂ p
  constructor <;> simp [m, s]

end Serving

/-- In every run after `pic_remap`: the lines in service of the two controllers are those of the
handlers that still run, these are nested by priority, and the pair offers exactly the lines that
are not masked and have a higher priority than each of them.  So the end of interrupt of a
handler closes the line it was started for and no other. -/
theorem Pics.inService_running (o₁ o₂ : Byte) (p : Pics) (es : List PicEvent) :
    let s := Serving.run ⟨p.picRemap o₁ o₂, []⟩ es
    s.handlers.Pairwise (masterLine · < masterLine ·) ∧
      (∀ j < 8, s.pics.master.inService.getLsbD j = true ↔
        ∃ i ∈ s.handlers, masterLine i = j) ∧
      (∀ j < 8, s.pics.slave.inService.getLsbD j = true ↔ 8 + j ∈ s.handlers) ∧
      ∀ i < 16, s.pics.Offers i ↔ s.pics.maskBit i = false ∧
        (8 ≤ i → s.pics.maskBit 2 = false) ∧ ∀ j ∈ s.handlers, masterLine i < masterLine j := by
  have sound := Serving.run_sound (Pics.picRemap_ready o₁ o₂ p) (Serving.picRemap_sound o₁ o₂ p) es
  exact ⟨sound.nested, sound.master, sound.slave, fun i hi => sound.offers_iff hi⟩

end RaxzusHeap
