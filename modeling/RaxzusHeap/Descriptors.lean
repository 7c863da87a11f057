import RaxzusHeap.Machine
import RaxzusHeap.Pic
import RaxzusHeap.Lib.Fields

/-! # The descriptor tables (`gdt.c`, `interrupts.c`)

The tables are bytes in memory, written field by field as the packed structs lay the fields out
and read by the processor as eight-byte entries.

* **Placement.** `Statics` are the addresses of `gdt`, `idt` and `tss`; the linker keeps the
  three apart, and that is a field.
* **The processor.** `descriptor` and `gate` read entries through the limits and bases given to
  `lgdt` and `lidt`, `ringStack` reads the stack of a ring through the task register, and
  `deliver` is what becomes of a vector: a handler is entered or a fault raised.  Conforming code
  segments and task gates do not occur in these tables.
* **Runs.** Every entry keeps what was last written for it (`descriptors_last`, `gates_last`);
  what `init_gdt` and `init_interrupts` leave delivers eight vectors and lets ring 3 raise one of
  them (`deliver_eq`). -/

namespace RaxzusHeap

open Bytes Imperative

/-! ### The source -/

/-- `BITS_0_TO_15`. -/
def bits0To15 (x : Word) : ℕ := (x &&& 0xFFFF).toNat

/-- `BITS_16_TO_23`. -/
def bits16To23 (x : Word) : ℕ := (x >>> 16 &&& 0xFF).toNat

/-- `BITS_24_TO_31`. -/
def bits24To31 (x : Word) : ℕ := (x >>> 24 &&& 0xFF).toNat

/-- `BITS_16_TO_19`. -/
def bits16To19 (x : Word) : Byte := (x >>> 16 &&& 0x0F).setWidth 8

/-- `TOP_NIBBLE`. -/
def topNibble (x : Byte) : Byte := x &&& 0xF0

/-- `kmemset`. -/
def kmemset (p : ℕ) (value : Byte) (size : ℕ) (m : Mem) : Mem :=
  loop size (fun i m b => if b = p + i then value else m b) m

/-- Where the linker puts `gdt`, `idt` and `tss`. -/
structure Statics where
  gdt : ℕ
  idt : ℕ
  tss : ℕ
  gdt_tss : gdt + 48 ≤ tss ∨ tss + 104 ≤ gdt
  idt_tss : idt + 2048 ≤ tss ∨ tss + 104 ≤ idt
  gdt_idt : gdt + 48 ≤ idt ∨ idt + 2048 ≤ gdt
  low : tss < 2 ^ 32

/-- The arguments of `gdt_set_entry`. -/
structure GdtCall where
  i : ℕ
  base : Word
  limit : Word
  access : Byte
  gran : Byte

/-- The arguments of `set_idt_entry`. -/
structure IdtCall where
  num : Byte
  handlerAddress : Word
  selector : BitVec 16
  flags : Byte

namespace Statics

variable (S : Statics)

/-- `gdt_set_entry`. -/
def gdtSetEntry (m : Mem) (c : GdtCall) : Mem :=
  let e := S.gdt + 8 * c.i
  let m := storeLE m (e + 2) 2 (bits0To15 c.base)
  let m := storeLE m (e + 4) 1 (bits16To23 c.base)
  let m := storeLE m (e + 7) 1 (bits24To31 c.base)
  let m := storeLE m e 2 (bits0To15 c.limit)
  let m := storeLE m (e + 6) 1 (bits16To19 c.limit ||| topNibble c.gran).toNat
  storeLE m (e + 5) 1 c.access.toNat

/-- `tss_set_entry`. -/
def tssSetEntry (i : ℕ) (kernelStack : Word) (m : Mem) : Mem :=
  let m := S.gdtSetEntry m ⟨i, BitVec.ofNat 32 S.tss, 104 - 1, 0x89, 0x00⟩
  let m := kmemset S.tss 0 104 m
  let m := storeLE m (S.tss + 8) 4 0x10
  let m := storeLE m (S.tss + 4) 4 kernelStack.toNat
  storeLE m (S.tss + 102) 2 104

/-- `tss_set_kernel_stack`. -/
def tssSetKernelStack (m : Mem) (stack : Word) : Mem := storeLE m (S.tss + 4) 4 stack.toNat

/-- `get_tss_stack`. -/
def getTssStack (m : Mem) : ℕ := loadLE m (S.tss + 4) 4

/-- The entries of `init_gdt` but the last. -/
def gdtEntries : List GdtCall :=
  [⟨0, 0, 0, 0, 0⟩, ⟨1, 0x00000000, 0xFFFFF, 0x9A, 0xCF⟩, ⟨2, 0x00000000, 0xFFFFF, 0x92, 0xCF⟩,
    ⟨3, 0x00000000, 0xFFFFF, 0xFA, 0xCF⟩, ⟨4, 0x00000000, 0xFFFFF, 0xF2, 0xCF⟩]

/-- `init_gdt`, with the end of `tss_kernel_stack`. -/
def initGdt (stackEnd : Word) (m : Mem) : Mem :=
  S.tssSetEntry 5 stackEnd (gdtEntries.foldl S.gdtSetEntry m)

/-- `set_idt_entry`. -/
def setIdtEntry (m : Mem) (c : IdtCall) : Mem :=
  let e := S.idt + 8 * c.num.toNat
  let m := storeLE m e 2 (c.handlerAddress &&& 0xFFFF).toNat
  let m := storeLE m (e + 6) 2 (c.handlerAddress >>> 16 &&& 0xFFFF).toNat
  let m := storeLE m (e + 2) 2 c.selector.toNat
  let m := storeLE m (e + 4) 1 0
  storeLE m (e + 5) 1 c.flags.toNat

/-- `install_idt`. -/
def installIdt (m : Mem) : Mem :=
  loop 256 (fun i m =>
    let e := S.idt + 8 * i
    let m := storeLE m e 2 0
    let m := storeLE m (e + 6) 2 0
    let m := storeLE m (e + 2) 2 0
    let m := storeLE m (e + 4) 1 0
    storeLE m (e + 5) 1 0) m

/-- The entries of `init_interrupts`, for the address of each wrapper. -/
def idtEntries (isrWrapper : ℕ → Word) (cs : BitVec 16) : List IdtCall :=
  [⟨129, isrWrapper 129, cs, 0xEE⟩, ⟨130, isrWrapper 130, cs, 0x8E⟩, ⟨33, isrWrapper 33, cs, 0x8E⟩,
    ⟨32, isrWrapper 32, cs, 0x8E⟩, ⟨0, isrWrapper 0, cs, 0x8E⟩, ⟨13, isrWrapper 13, cs, 0x8E⟩,
    ⟨14, isrWrapper 14, cs, 0x8E⟩, ⟨8, isrWrapper 8, cs, 0x8E⟩]

/-- `init_interrupts`, as far as the table goes. -/
def initInterrupts (isrWrapper : ℕ → Word) (cs : BitVec 16) (m : Mem) : Mem :=
  (idtEntries isrWrapper cs).foldl S.setIdtEntry (S.installIdt m)

end Statics

/-! ### The processor -/

/-- A segment descriptor as the processor reads it: `limit` in units of bytes or of pages,
according to `flags`. -/
structure Descriptor where
  base : ℕ
  limit : ℕ
  access : ℕ
  flags : ℕ
deriving DecidableEq, Repr

/-- A gate as the processor reads it. -/
structure Gate where
  offset : ℕ
  selector : ℕ
  attributes : ℕ
deriving DecidableEq, Repr

namespace Descriptor

/-- An entry of the GDT. -/
def decode (raw : ℕ) : Descriptor where
  base := raw / 2 ^ 16 % 2 ^ 24 + 2 ^ 24 * (raw / 2 ^ 56 % 2 ^ 8)
  limit := raw % 2 ^ 16 + 2 ^ 16 * (raw / 2 ^ 48 % 2 ^ 4)
  access := raw / 2 ^ 40 % 2 ^ 8
  flags := raw / 2 ^ 52 % 2 ^ 4

def present (d : Descriptor) : Bool := d.access / 128 % 2 = 1

def dpl (d : Descriptor) : ℕ := d.access / 32 % 4

/-- A code or data segment, not a system segment. -/
def segment (d : Descriptor) : Bool := d.access / 16 % 2 = 1

def executable (d : Descriptor) : Bool := d.access / 8 % 2 = 1

end Descriptor

namespace Gate

/-- An entry of the IDT. -/
def decode (raw : ℕ) : Gate where
  offset := raw % 2 ^ 16 + 2 ^ 16 * (raw / 2 ^ 48 % 2 ^ 16)
  selector := raw / 2 ^ 16 % 2 ^ 16
  attributes := raw / 2 ^ 40 % 2 ^ 8

def present (g : Gate) : Bool := g.attributes / 128 % 2 = 1

def dpl (g : Gate) : ℕ := g.attributes / 32 % 4

/-- A 32-bit interrupt gate. -/
def interruptGate (g : Gate) : Bool := g.attributes % 32 = 14

end Gate

/-- What becomes of a vector. -/
inductive Delivery where
  | entered (selector offset : ℕ)
  | fault (vector errorCode : ℕ)
deriving DecidableEq, Repr

namespace Statics

variable (S : Statics)

/-- The descriptor of a selector, within the limit of `lgdt`. -/
def descriptor (m : Mem) (selector : ℕ) : Option Descriptor :=
  if 8 * (selector / 8) + 7 ≤ 8 * 6 - 1 then
    some (.decode (loadLE m (S.gdt + 8 * (selector / 8)) 8))
  else none

/-- The gate of a vector, within the limit of `lidt`. -/
def gate (m : Mem) (v : ℕ) : Option Gate :=
  if 8 * v + 7 ≤ 8 * 256 - 1 then some (.decode (loadLE m (S.idt + 8 * v) 8)) else none

/-- `SS` and `ESP` of ring 0, through the descriptor that `ltr` was given. -/
def ringStack (m : Mem) : Option (ℕ × ℕ) := do
  let d ← S.descriptor m 0x28
  if 11 ≤ d.limit then some (loadLE m (d.base + 8) 4, loadLE m (d.base + 4) 4) else none

/-- Vector `v`, raised at privilege `cpl` by an `int` instruction or by a hardware interrupt; bit 0
of the error codes tells the two apart. -/
def deliver (m : Mem) (cpl : ℕ) (software : Bool) (v : ℕ) : Delivery :=
  let ext := if software then 0 else 1
  let protection := Delivery.fault 13 (8 * v + 2 + ext)
  match S.gate m v with
  | none => protection
  | some g =>
      if !g.interruptGate then protection
      else if software && g.dpl < cpl then protection
      else if !g.present then .fault 11 (8 * v + 2 + ext)
      else if g.selector / 8 = 0 then .fault 13 ext
      else match S.descriptor m g.selector with
        | none => .fault 13 (g.selector / 8 * 8 + ext)
        | some d =>
            if !(d.segment && d.executable) || cpl < d.dpl then .fault 13 (g.selector / 8 * 8 + ext)
            else if !d.present then .fault 11 (g.selector / 8 * 8 + ext)
            else .entered (g.selector / 8 * 8 + d.dpl) g.offset

end Statics

/-! ### What one call writes -/

theorem bits0To15_eq (x : Word) : bits0To15 x = x.toNat % 2 ^ 16 := by
  rw [bits0To15, BitVec.toNat_and]
  exact Nat.and_two_pow_sub_one_eq_mod x.toNat 16

theorem bits16To23_eq (x : Word) : bits16To23 x = x.toNat / 2 ^ 16 % 2 ^ 8 := by
  rw [bits16To23, BitVec.toNat_and, BitVec.toNat_ushiftRight, Nat.shiftRight_eq_div_pow]
  exact Nat.and_two_pow_sub_one_eq_mod _ 8

theorem bits24To31_eq (x : Word) : bits24To31 x = x.toNat / 2 ^ 24 := by
  rw [bits24To31, BitVec.toNat_and, BitVec.toNat_ushiftRight, Nat.shiftRight_eq_div_pow]
  have low := Nat.and_two_pow_sub_one_eq_mod (x.toNat / 2 ^ 24) 8
  have := x.isLt
  exact low.trans (Nat.mod_eq_of_lt (by omega))

theorem granularity_eq (limit : Word) (gran : Byte) :
    (bits16To19 limit ||| topNibble gran).toNat =
      limit.toNat / 2 ^ 16 % 2 ^ 4 + 16 * (gran.toNat / 16) := by
  have low : (bits16To19 limit).toNat = limit.toNat / 2 ^ 16 % 2 ^ 4 := by
    have mask := Nat.and_two_pow_sub_one_eq_mod (limit.toNat / 2 ^ 16) 4
    rw [bits16To19, BitVec.toNat_setWidth, BitVec.toNat_and, BitVec.toNat_ushiftRight,
      Nat.shiftRight_eq_div_pow]
    change (limit.toNat / 2 ^ 16 &&& (2 ^ 4 - 1)) % 2 ^ 8 = _
    rw [mask]
    omega
  have high : ∀ x : Byte, (topNibble x).toNat = x.toNat / 16 * 2 ^ 4 := by decide +kernel
  rw [BitVec.toNat_or, low, high, Nat.or_comm, ← Nat.shiftLeft_eq,
    ← Nat.shiftLeft_add_eq_or_of_lt (Nat.mod_lt _ (by decide)), Nat.shiftLeft_eq]
  omega

theorem Descriptor.decode_fields {l b m a g h : ℕ} (hl : l < 256 ^ 2) (hb : b < 256 ^ 2)
    (hm : m < 256 ^ 1) (ha : a < 256 ^ 1) (hg : g < 256 ^ 1) (hh : h < 256 ^ 1) :
    Descriptor.decode (l + 256 ^ 2 * (b + 256 ^ 2 * (m + 256 ^ 1 *
      (a + 256 ^ 1 * (g + 256 ^ 1 * h))))) =
      ⟨b + 2 ^ 16 * m + 2 ^ 24 * h, l + 2 ^ 16 * (g % 16), a, g / 16⟩ := by
  simp only [Descriptor.decode, Descriptor.mk.injEq]
  refine ⟨?_, ?_, ?_, ?_⟩ <;> omega

theorem Gate.decode_fields {l s f h : ℕ} (hl : l < 256 ^ 2) (hs : s < 256 ^ 2)
    (hf : f < 256 ^ 1) (hh : h < 256 ^ 2) :
    Gate.decode (l + 256 ^ 2 * (s + 256 ^ 2 * (0 + 256 ^ 1 * (f + 256 ^ 1 * h)))) =
      ⟨l + 2 ^ 16 * h, s, f⟩ := by
  simp only [Gate.decode, Gate.mk.injEq]
  refine ⟨?_, ?_, ?_⟩ <;> omega

namespace GdtCall

/-- What the processor is meant to read. -/
def descriptor (c : GdtCall) : Descriptor where
  base := c.base.toNat
  limit := c.limit.toNat % 2 ^ 20
  access := c.access.toNat
  flags := c.gran.toNat / 16

end GdtCall

namespace IdtCall

/-- What the processor is meant to read. -/
def gate (c : IdtCall) : Gate where
  offset := c.handlerAddress.toNat
  selector := c.selector.toNat
  attributes := c.flags.toNat

end IdtCall

namespace Statics

variable {S : Statics} {m : Mem}

theorem gdtSetEntry_outside (c : GdtCall) {b : ℕ} (h : b < S.gdt + 8 * c.i ∨ S.gdt + 8 * c.i + 8 ≤ b) :
    S.gdtSetEntry m c b = m b := by
  simp (disch := omega) only [gdtSetEntry, storeLE_outside]

theorem setIdtEntry_outside (c : IdtCall) {b : ℕ}
    (h : b < S.idt + 8 * c.num.toNat ∨ S.idt + 8 * c.num.toNat + 8 ≤ b) :
    S.setIdtEntry m c b = m b := by
  simp (disch := omega) only [setIdtEntry, storeLE_outside]

theorem gdtSetEntry_decode (m : Mem) (c : GdtCall) :
    .decode (loadLE (S.gdtSetEntry m c) (S.gdt + 8 * c.i) 8) = c.descriptor := by
  have hb := c.base.isLt
  have ha := c.access.isLt
  have hg := c.gran.isLt
  change Descriptor.decode (loadLE _ _ (2 + (2 + (1 + (1 + (1 + 1)))))) = _
  simp only [loadLE_add]
  simp (disch := omega) only [gdtSetEntry, loadLE_storeLE_apart, loadLE_storeLE]
  rw [Descriptor.decode_fields (Nat.mod_lt _ (by decide)) (Nat.mod_lt _ (by decide))
    (Nat.mod_lt _ (by decide)) (Nat.mod_lt _ (by decide)) (Nat.mod_lt _ (by decide))
    (Nat.mod_lt _ (by decide)), bits0To15_eq, bits0To15_eq, bits16To23_eq, bits24To31_eq,
    granularity_eq]
  simp only [GdtCall.descriptor, Descriptor.mk.injEq]
  refine ⟨?_, ?_, ?_, ?_⟩ <;> omega

theorem setIdtEntry_decode (m : Mem) (c : IdtCall) :
    .decode (loadLE (S.setIdtEntry m c) (S.idt + 8 * c.num.toNat) 8) = c.gate := by
  have hh := c.handlerAddress.isLt
  have hs := c.selector.isLt
  have hf := c.flags.isLt
  have low : (c.handlerAddress &&& 0xFFFF).toNat = c.handlerAddress.toNat % 2 ^ 16 :=
    bits0To15_eq c.handlerAddress
  have high : (c.handlerAddress >>> 16 &&& 0xFFFF).toNat = c.handlerAddress.toNat / 2 ^ 16 := by
    have mask := bits0To15_eq (c.handlerAddress >>> 16)
    rw [bits0To15, BitVec.toNat_ushiftRight, Nat.shiftRight_eq_div_pow] at mask
    exact mask.trans (Nat.mod_eq_of_lt (by omega))
  change Gate.decode (loadLE _ _ (2 + (2 + (1 + (1 + 2))))) = _
  simp only [loadLE_add]
  simp (disch := omega) only [setIdtEntry, loadLE_storeLE_apart, loadLE_storeLE]
  rw [Nat.zero_mod, Gate.decode_fields (Nat.mod_lt _ (by decide)) (Nat.mod_lt _ (by decide))
    (Nat.mod_lt _ (by decide)) (Nat.mod_lt _ (by decide)), low, high]
  simp only [IdtCall.gate, Gate.mk.injEq]
  refine ⟨?_, ?_, ?_⟩ <;> omega

theorem installIdt_outside {b : ℕ} (h : b < S.idt ∨ S.idt + 2048 ≤ b) : S.installIdt m b = m b := by
  apply loop_inv (fun _ (t : Mem) => t b = m b) rfl
  intro i t hi ht
  simp (disch := omega) only [storeLE_outside, ht]

theorem installIdt_inside {b : ℕ} (h : S.idt ≤ b ∧ b < S.idt + 2048) : S.installIdt m b = 0 := by
  have upTo := loop_inv (fun i (t : Mem) => ∀ b, S.idt ≤ b → b < S.idt + 8 * i → t b = 0)
    (n := 256) (f := fun i m =>
      let e := S.idt + 8 * i
      let m := storeLE m e 2 0
      let m := storeLE m (e + 6) 2 0
      let m := storeLE m (e + 2) 2 0
      let m := storeLE m (e + 4) 1 0
      storeLE m (e + 5) 1 0) (s := m) (fun b _ _ => by omega) ?_
  · exact upTo b h.1 (by omega)
  · intro i t hi ih b hb hb'
    have zero : ∀ k, BitVec.ofNat 8 (0 / 256 ^ k) = 0 := by simp
    by_cases old : b < S.idt + 8 * i
    · simp (disch := omega) only [storeLE_outside]
      exact ih b hb old
    · simp only [storeLE, zero]
      split_ifs <;> first | rfl | omega

/-! ### Runs of calls -/

theorem descriptor_eq (m : Mem) {i : ℕ} (hi : i < 6) :
    S.descriptor m (8 * i) = some (.decode (loadLE m (S.gdt + 8 * i) 8)) := by
  have entry : 8 * i / 8 = i := by omega
  rw [descriptor, entry, if_pos (by omega)]

theorem gate_eq (m : Mem) (v : Byte) :
    S.gate m v.toNat = some (.decode (loadLE m (S.idt + 8 * v.toNat) 8)) := by
  have := v.isLt
  rw [gate, if_pos (by omega)]

theorem foldl_gdtSetEntry (m : Mem) (calls : List GdtCall) (i : ℕ) :
    Descriptor.decode (loadLE (calls.foldl S.gdtSetEntry m) (S.gdt + 8 * i) 8) =
      (calls.filterMap fun c => if c.i = i then some c.descriptor else none).getLast?.getD
        (.decode (loadLE m (S.gdt + 8 * i) 8)) := by
  refine foldl_last' _ (fun m => Descriptor.decode (loadLE m (S.gdt + 8 * i) 8)) _
    (fun m c => ?_) m calls
  by_cases h : c.i = i
  · subst h
    simp [gdtSetEntry_decode]
  · rw [if_neg h, Option.getD_none, loadLE_congr fun x _ _ => gdtSetEntry_outside c (by omega)]

theorem foldl_setIdtEntry (m : Mem) (calls : List IdtCall) (v : Byte) :
    Gate.decode (loadLE (calls.foldl S.setIdtEntry m) (S.idt + 8 * v.toNat) 8) =
      (calls.filterMap fun c => if c.num = v then some c.gate else none).getLast?.getD
        (.decode (loadLE m (S.idt + 8 * v.toNat) 8)) := by
  refine foldl_last' _ (fun m => Gate.decode (loadLE m (S.idt + 8 * v.toNat) 8)) _
    (fun m c => ?_) m calls
  by_cases h : c.num = v
  · subst h
    simp [setIdtEntry_decode]
  · have apart : c.num.toNat ≠ v.toNat := fun e => h (BitVec.eq_of_toNat_eq e)
    rw [if_neg h, Option.getD_none, loadLE_congr fun x _ _ => setIdtEntry_outside c (by omega)]

theorem installIdt_decode (m : Mem) (v : Byte) :
    Gate.decode (loadLE (S.installIdt m) (S.idt + 8 * v.toNat) 8) = ⟨0, 0, 0⟩ := by
  have hv := v.isLt
  have zero : loadLE (S.installIdt m) (S.idt + 8 * v.toNat) 8 = loadLE (fun _ => 0) 0 8 := by
    simp (disch := omega) [loadLE, installIdt_inside]
  rw [zero]
  rfl

end Statics

/-- After any calls of `gdt_set_entry`, each descriptor that the limit of `lgdt` covers is read as
the last call for it gave it: the whole base, twenty bits of limit, the access byte and the four
flags. -/
theorem Statics.descriptors_last (S : Statics) (m : Mem) (calls : List GdtCall) (i : Fin 6) :
    S.descriptor (calls.foldl S.gdtSetEntry m) (8 * i) =
      (calls.filterMap fun c => if c.i = i.1 then some c.descriptor else none).getLast?.or
        (S.descriptor m (8 * i)) := by
  rw [descriptor_eq _ i.2, descriptor_eq _ i.2, foldl_gdtSetEntry]
  cases (calls.filterMap fun c => if c.i = i.1 then some c.descriptor else none).getLast? <;> rfl

/-- After `install_idt` and any calls of `set_idt_entry`, each vector has the gate of the last call
for it, and an empty one where there was none. -/
theorem Statics.gates_last (S : Statics) (m : Mem) (calls : List IdtCall) (v : Byte) :
    S.gate (calls.foldl S.setIdtEntry (S.installIdt m)) v.toNat =
      some ((calls.filterMap fun c => if c.num = v then some c.gate else none).getLast?.getD
        ⟨0, 0, 0⟩) := by
  rw [gate_eq, foldl_setIdtEntry, installIdt_decode]

/-! ### The tables of the kernel -/

/-- The vectors that `init_interrupts` fills. -/
def handledVectors : List Byte := [129, 130, 33, 32, 0, 13, 14, 8]

namespace Statics

variable {S : Statics} {m : Mem}

/-- The tables once the kernel is up: `init_gdt`, `init_interrupts`, and `tss_set_kernel_stack`
for each of `tops` since. -/
def kernelTables (S : Statics) (isrWrapper : ℕ → Word) (stackEnd : Word) (tops : List Word)
    (m : Mem) : Mem :=
  tops.foldl S.tssSetKernelStack (S.initInterrupts isrWrapper 0x08 (S.initGdt stackEnd m))

/-- The calls of `gdt_set_entry` in `init_gdt`. -/
def gdtCalls (S : Statics) : List GdtCall :=
  gdtEntries ++ [⟨5, BitVec.ofNat 32 S.tss, 104 - 1, 0x89, 0x00⟩]

theorem kmemset_outside {p size b : ℕ} {value : Byte} (h : b < p ∨ p + size ≤ b) :
    kmemset p value size m b = m b := by
  apply loop_inv (fun _ (t : Mem) => t b = m b) rfl
  intro i t hi ht
  rw [if_neg (by omega), ht]

theorem tssSetKernelStack_outside {stack : Word} {b : ℕ} (h : b < S.tss + 4 ∨ S.tss + 8 ≤ b) :
    S.tssSetKernelStack m stack b = m b :=
  storeLE_outside (by omega)

theorem initGdt_outside_tss {stackEnd : Word} {b : ℕ} (h : b < S.tss ∨ S.tss + 104 ≤ b) :
    S.initGdt stackEnd m b = S.gdtCalls.foldl S.gdtSetEntry m b := by
  rw [gdtCalls, List.foldl_append]
  simp (disch := omega) only [initGdt, tssSetEntry, storeLE_outside, kmemset_outside,
    List.foldl_cons, List.foldl_nil]

theorem foldl_setIdtEntry_outside {calls : List IdtCall} {b : ℕ}
    (h : b < S.idt ∨ S.idt + 2048 ≤ b) : calls.foldl S.setIdtEntry m b = m b := by
  induction calls generalizing m with
  | nil => rfl
  | cons c calls ih =>
    have := c.num.isLt
    rw [List.foldl_cons, ih, setIdtEntry_outside c (by omega)]

theorem foldl_tssSetKernelStack_outside {tops : List Word} {b : ℕ}
    (h : b < S.tss + 4 ∨ S.tss + 8 ≤ b) : tops.foldl S.tssSetKernelStack m b = m b := by
  induction tops generalizing m with
  | nil => rfl
  | cons stack tops ih => rw [List.foldl_cons, ih, tssSetKernelStack_outside h]

variable {isrWrapper : ℕ → Word} {stackEnd : Word} {tops : List Word}

theorem initInterrupts_outside {cs : BitVec 16} {b : ℕ} (h : b < S.idt ∨ S.idt + 2048 ≤ b) :
    S.initInterrupts isrWrapper cs m b = m b := by
  rw [initInterrupts, foldl_setIdtEntry_outside h, installIdt_outside h]

theorem kernelTables_descriptor {i : ℕ} (hi : i < 6) :
    S.descriptor (S.kernelTables isrWrapper stackEnd tops m) (8 * i) =
      some ((S.gdtCalls.filterMap fun c =>
        if c.i = i then some c.descriptor else none).getLast?.getD
          (.decode (loadLE m (S.gdt + 8 * i) 8))) := by
  have apart := S.gdt_tss
  have apart' := S.gdt_idt
  rw [descriptor_eq _ hi, ← foldl_gdtSetEntry]
  refine congrArg some (congrArg Descriptor.decode (loadLE_congr fun b h₁ h₂ => ?_))
  rw [kernelTables, foldl_tssSetKernelStack_outside (by omega), initInterrupts_outside (by omega),
    initGdt_outside_tss (by omega)]

theorem kernelTables_gate (v : Byte) :
    S.gate (S.kernelTables isrWrapper stackEnd tops m) v.toNat =
      some (if v ∈ handledVectors then
        ⟨(isrWrapper v.toNat).toNat, 8, if v = 129 then 0xEE else 0x8E⟩ else ⟨0, 0, 0⟩) := by
  have apart := S.idt_tss
  have hv := v.isLt
  have table : loadLE (S.kernelTables isrWrapper stackEnd tops m) (S.idt + 8 * v.toNat) 8 =
      loadLE ((idtEntries isrWrapper 0x08).foldl S.setIdtEntry
        (S.installIdt (S.initGdt stackEnd m))) (S.idt + 8 * v.toNat) 8 := by
    apply loadLE_congr
    intro b h₁ h₂
    rw [kernelTables, foldl_tssSetKernelStack_outside (by omega), initInterrupts]
  rw [gate_eq, table, foldl_setIdtEntry, installIdt_decode]
  congr 1
  by_cases h : v ∈ handledVectors
  · rw [if_pos h]
    simp only [handledVectors, List.mem_cons, List.not_mem_nil, or_false] at h
    rcases h with rfl | rfl | rfl | rfl | rfl | rfl | rfl | rfl <;> rfl
  · rw [if_neg h]
    have nums : ∀ c ∈ idtEntries isrWrapper 0x08, c.num ∈ handledVectors := fun c hc =>
      List.mem_map_of_mem (f := IdtCall.num) hc
    have none : (idtEntries isrWrapper 0x08).filterMap
        (fun c => if c.num = v then some c.gate else none) = [] := by
      refine List.filterMap_eq_nil_iff.mpr fun c hc => if_neg ?_
      rintro rfl
      exact h (nums c hc)
    rw [none]
    rfl

theorem kernelTables_ss0 : loadLE (S.kernelTables isrWrapper stackEnd tops m) (S.tss + 8) 4 = 0x10 := by
  have apart := S.idt_tss
  have made : loadLE (S.initGdt stackEnd m) (S.tss + 8) 4 = 0x10 := by
    simp (disch := omega) only [initGdt, tssSetEntry, loadLE_storeLE_apart, loadLE_storeLE]
    rfl
  rw [← made]
  apply loadLE_congr
  intro b h₁ h₂
  rw [kernelTables, foldl_tssSetKernelStack_outside (by omega), initInterrupts_outside (by omega)]

theorem kernelTables_esp0 : loadLE (S.kernelTables isrWrapper stackEnd tops m) (S.tss + 4) 4 =
    (tops.getLast?.getD stackEnd).toNat := by
  have apart := S.idt_tss
  have word : ∀ w : Word, w.toNat % 256 ^ 4 = w.toNat := fun w => Nat.mod_eq_of_lt w.isLt
  have made : loadLE (S.initInterrupts isrWrapper 0x08 (S.initGdt stackEnd m)) (S.tss + 4) 4 =
      stackEnd.toNat := by
    rw [loadLE_congr fun b _ _ => initInterrupts_outside (by omega)]
    simp (disch := omega) only [initGdt, tssSetEntry, loadLE_storeLE_apart, loadLE_storeLE, word]
  have last := foldl_last' S.tssSetKernelStack (fun m => loadLE m (S.tss + 4) 4)
    (fun top => some top.toNat) (fun m top => (loadLE_storeLE m _ 4 _).trans (word top))
    (S.initInterrupts isrWrapper 0x08 (S.initGdt stackEnd m)) tops
  rw [kernelTables, last, made, List.filterMap_eq_map', List.getLast?_map, Option.getD_map]

theorem deliver_of_gate {cpl v : ℕ} {software : Bool} {g : Gate} (hg : S.gate m v = some g)
    (type : g.interruptGate = true) (present : g.present = true) (segment : g.selector = 8)
    (code : S.descriptor m 8 = some ⟨0, 0xFFFFF, 0x9A, 0xC⟩) :
    S.deliver m cpl software v =
      if software = true ∧ g.dpl < cpl then .fault 13 (8 * v + 2) else .entered 8 g.offset := by
  cases software <;> simp [deliver, hg, type, present, segment, code, Descriptor.segment,
    Descriptor.executable, Descriptor.dpl, Descriptor.present]

theorem deliver_handled (cpl : Fin 4) (software : Bool) {v : Byte} (h : v ∈ handledVectors) :
    S.deliver (S.kernelTables isrWrapper stackEnd tops m) cpl software v.toNat =
      if software = true ∧ (if v = 129 then 3 else 0) < cpl.1 then .fault 13 (8 * v.toNat + 2)
      else .entered 8 (isrWrapper v.toNat).toNat := by
  have code : S.descriptor (S.kernelTables isrWrapper stackEnd tops m) 8 =
      some ⟨0, 0xFFFFF, 0x9A, 0xC⟩ := kernelTables_descriptor (i := 1) (by decide)
  have hgate : S.gate (S.kernelTables isrWrapper stackEnd tops m) v.toNat = _ :=
    kernelTables_gate v
  rw [if_pos h] at hgate
  by_cases h129 : v = 129
  · rw [if_pos h129] at hgate
    rw [deliver_of_gate hgate (by simp [Gate.interruptGate]) (by simp [Gate.present]) rfl code]
    simp [Gate.dpl, h129]
  · have lower : ¬ v = 129#8 := h129
    rw [if_neg h129] at hgate
    rw [deliver_of_gate hgate (by simp [Gate.interruptGate]) (by simp [Gate.present]) rfl code]
    simp [Gate.dpl, lower]

theorem deliver_empty (cpl : Fin 4) (software : Bool) {v : Byte} (h : v ∉ handledVectors) :
    S.deliver (S.kernelTables isrWrapper stackEnd tops m) cpl software v.toNat =
      .fault 13 (8 * v.toNat + 2 + if software then 0 else 1) := by
  have hgate : S.gate (S.kernelTables isrWrapper stackEnd tops m) v.toNat = _ :=
    kernelTables_gate v
  rw [if_neg h] at hgate
  simp [deliver, hgate, Gate.interruptGate]

end Statics

/-- Once the kernel is up, and however often `tss_set_kernel_stack` was called since: a vector
enters the kernel at its wrapper in segment `0x08` if `init_interrupts` filled its gate and, for an
`int` instruction outside ring 0, if it is the system call; everything else is a general
protection fault that names the vector. -/
theorem Statics.deliver_eq (S : Statics) (isrWrapper : ℕ → Word) (stackEnd : Word)
    (tops : List Word) (m : Mem) (cpl : Fin 4) (software : Bool) (v : Byte) :
    S.deliver (S.kernelTables isrWrapper stackEnd tops m) cpl software v.toNat =
      if v ∈ handledVectors ∧ (software = true → cpl ≠ 0 → v = 129) then
        .entered 0x08 (isrWrapper v.toNat).toNat
      else .fault 13 (8 * v.toNat + 2 + if software then 0 else 1) := by
  by_cases h : v ∈ handledVectors
  · rw [deliver_handled cpl software h]
    by_cases h129 : v = 129
    · have low : ¬ 3 < cpl.1 := by omega
      simp [h129, low, handledVectors]
    · have lower : ¬ v = 129#8 := h129
      have outer : (0 : Fin 4) < cpl ↔ ¬ cpl = 0 := Fin.pos_iff_ne_zero
      cases software <;> by_cases ring : cpl = 0 <;> simp [h, lower, ring, outer]
  · rw [deliver_empty cpl software h]
    simp only [h, false_and, if_false]

/-- The processor finds the stack of ring 0 where the scheduler put it: through the selector that
`ltr` was given, it reads `0x10` and the last stack of `tss_set_kernel_stack`, or the one of
`init_gdt`. -/
theorem Statics.ringStack_last (S : Statics) (isrWrapper : ℕ → Word) (stackEnd : Word)
    (tops : List Word) (m : Mem) :
    S.ringStack (S.kernelTables isrWrapper stackEnd tops m) =
      some (0x10, (tops.getLast?.getD stackEnd).toNat) := by
  have low := S.low
  have task : S.descriptor (S.kernelTables isrWrapper stackEnd tops m) (8 * 5) =
      some ⟨S.tss, 103, 0x89, 0⟩ := by
    rw [kernelTables_descriptor (by decide)]
    simp [gdtCalls, gdtEntries, GdtCall.descriptor]
    exact low
  rw [ringStack, task]
  simp [kernelTables_ss0, kernelTables_esp0]

/-! ### The lines of the controllers -/

namespace PicEvent

/-- The requests that `kernel_main` makes after `pic_remap`. -/
def setup : List PicEvent := [.disable 46, .disable 0, .enable 1]

/-- After `kernel_main`, the code asks for nothing but the timer and the keyboard. -/
def ByKernel : PicEvent → Prop
  | .enable irq | .disable irq => irq = 0 ∨ irq = 1
  | .take _ | .finish => True

theorem request_byKernel {e : PicEvent} (h : e.ByKernel) {i : ℕ} (hi : 2 ≤ i) :
    e.request i = none := by
  have other : (0 : ℕ) ≠ i ∧ (1 : ℕ) ≠ i := ⟨by omega, by omega⟩
  cases e with
  | enable irq | disable irq =>
    rcases h with rfl | rfl <;> simp [request, Pics.lineOf, other]
  | take | finish => rfl

theorem request_setup {i : ℕ} (hi : 2 ≤ i) :
    setup.filterMap (request i) = if i = 14 then [true] else [] := by
  have other : (0 : ℕ) ≠ i ∧ (1 : ℕ) ≠ i := ⟨by omega, by omega⟩
  by_cases h : i = 14
  · subst h
    rfl
  · simp [setup, request, Pics.lineOf, other, h, Ne.symm h]

end PicEvent

/-- With the offsets of `kernel_main`, line `i` raises vector `32 + i`. -/
theorem Pics.Ready.vector {p : Pics} (h : p.Ready 32 40) {i : ℕ} (hi : i < 16) :
    p.vector i = 32 + i := by
  have low : ∀ i : Fin 8, ((32 : Byte) &&& 0xF8 ||| BitVec.ofNat 8 i).toNat = 32 + i := by decide
  have high : ∀ i : Fin 8, ((40 : Byte) &&& 0xF8 ||| BitVec.ofNat 8 i).toNat = 40 + i := by decide
  by_cases hi8 : i < 8
  · rw [Pics.vector, if_pos hi8, h.master.2.1]
    exact low ⟨i, hi8⟩
  · rw [Pics.vector, if_neg hi8, h.slave.2.1]
    have := high ⟨i - 8, by omega⟩
    dsimp only at this
    omega

/-- Whatever the firmware left in the controllers, and in every state of every run after
`kernel_main`: a line that the pair offers to the processor is the timer or the keyboard, and is
served by its wrapper, or it is a line that the firmware had left open, other than line 14, and
ends in a general protection fault. -/
theorem Statics.lines_delivered (S : Statics) (isrWrapper : ℕ → Word) (stackEnd : Word)
    (tops : List Word) (m : Mem) (p : Pics) (es : List PicEvent) (kernel : ∀ e ∈ es, e.ByKernel)
    (cpl : Fin 4) {i : ℕ} (hi : i < 16) :
    let pics := (Serving.run ⟨p.picRemap 32 40, []⟩ (PicEvent.setup ++ es)).pics
    pics.Offers i →
      S.deliver (S.kernelTables isrWrapper stackEnd tops m) cpl false (pics.vector i) =
          (if i < 2 then .entered 0x08 (isrWrapper (32 + i)).toNat
            else .fault 13 (8 * (32 + i) + 3)) ∧
        (2 ≤ i → i ≠ 14 ∧ p.maskBit i = false) := by
  intro pics offered
  have ready : pics.Ready 32 40 := Serving.run_ready (Pics.picRemap_ready 32 40 p) _
  have vector := ready.vector hi
  have small : (BitVec.ofNat 8 (32 + i)).toNat = 32 + i := by
    rw [BitVec.toNat_ofNat]
    omega
  have mask : pics.maskBit i =
      ((PicEvent.setup ++ es).filterMap (PicEvent.request i)).getLast?.getD (p.maskBit i) := by
    rw [← Pics.picRemap_maskBit 32 40 p i]
    exact Serving.run_maskBit (Pics.picRemap_ready 32 40 p) _ hi
  have unmasked : pics.maskBit i = false := Pics.maskBit_of_offers offered
  rw [vector, ← small]
  by_cases h2 : i < 2
  · have handled : BitVec.ofNat 8 (32 + i) ∈ handledVectors := by
      obtain rfl | rfl : i = 0 ∨ i = 1 := by omega
      · decide
      · decide
    rw [deliver_handled cpl false handled, small, if_pos h2]
    exact ⟨rfl, fun h => absurd h2 (Nat.not_lt.mpr h)⟩
  · have later : es.filterMap (PicEvent.request i) = [] := List.filterMap_eq_nil_iff.mpr
      fun e he => PicEvent.request_byKernel (kernel e he) (Nat.le_of_not_lt h2)
    rw [List.filterMap_append, later, List.append_nil,
      PicEvent.request_setup (Nat.le_of_not_lt h2), unmasked] at mask
    have not14 : i ≠ 14 := by
      rintro rfl
      simp at mask
    have empty : BitVec.ofNat 8 (32 + i) ∉ handledVectors := by
      intro mem
      have all : ∀ v ∈ handledVectors, v.toNat < 34 ∨ 48 ≤ v.toNat := by decide
      have := all _ mem
      omega
    rw [deliver_empty cpl false empty, small, if_neg h2]
    rw [if_neg not14] at mask
    exact ⟨rfl, fun _ => ⟨not14, mask.symm⟩⟩

/-- Once `idle_process` has opened the timer, its line enters `isr_wrapper_32` from ring 3. -/
theorem Statics.lines_delivered_timer :
    let S : Statics := ⟨0x1000, 0x2000, 0x3000, by decide, by decide, by decide, by decide⟩
    let p : Pics := ⟨⟨0xFB, 0x08, 0x04, 0x01, 0, .mask, false, true⟩,
      ⟨0xFF, 0x70, 0x02, 0x01, 0, .mask, false, true⟩⟩
    let pics := (Serving.run ⟨p.picRemap 32 40, []⟩ (PicEvent.setup ++ [.enable 0])).pics
    S.deliver (S.kernelTables (fun v => BitVec.ofNat 32 (0x100000 + v)) 0x4000 [] fun _ => 0) 3 false
      (pics.vector 0) = .entered 0x08 0x100020 := by
  intro S p pics
  have kernel : ∀ e ∈ [PicEvent.enable 0], e.ByKernel := by
    intro e he
    rw [List.mem_singleton.mp he]
    exact .inl rfl
  have offered : pics.Offers 0 := by decide
  exact (S.lines_delivered (fun v => BitVec.ofNat 32 (0x100000 + v)) 0x4000 [] (fun _ => 0) p _
    kernel 3 (by decide) offered).1

end RaxzusHeap
