import RaxzusHeap.Doubles
import RaxzusHeap.Lib.Format

/-! # Formatted printing (`kprintf` and `int_to_hex_string` in `vga.c`)

`kprintf` looks at the end of its format at the head of its loop only and takes one or two
characters a turn.  The embedding is checked: it gives `none` where the source would read
behind the NUL of the format or outside a buffer.  A cell of a local buffer that was not
written is `none` too.

* **State.** `Printer` adds the static buffers of the number printers to the console.
* **Ghost field.** `printed` collects every character given to `print_char`.
* **Recursion.** `int_to_hex_string` prints through `kprintf`, with formats that have no `%x`;
  `intToHexString_eq` is the equation of the source.

`formatLoop_eq`: the loop handles the pieces of the format one after the other, and fails exactly
if the format leaves a directive open. -/

namespace RaxzusHeap

open Checked Format

/-- The console and the static buffers of `int_to_string` and `double_to_string`. -/
structure Printer where
  console : Console
  intString : Vector Byte 12
  doubleString : Vector Byte 64
  printed : List Byte

/-- An argument, as the types that `va_arg` may read it at. -/
structure VaArg where
  string : List Byte
  int : BitVec 32
  double : Float

/-- A buffer keeps its size. -/
def asBuffer (n : ℕ) (b : List Byte) : Option (Vector Byte n) :=
  if h : b.length = n then some ⟨b.toArray, h⟩ else none

namespace Printer

/-- The variables of `vga.c` when the kernel starts, over a screen of zeros. -/
def start : Printer where
  console := ⟨fun _ => 0, 0, 0, 0x0F, []⟩
  intString := Vector.replicate 12 0
  doubleString := Vector.replicate 64 0
  printed := []

/-- `print_char`. -/
def printChar (p : Printer) (c : Byte) : Printer :=
  { p with
    console := p.console.printChar c
    printed := p.printed ++ [c] }

/-- `print`. -/
def print (p : Printer) (message : List Byte) : Printer := message.foldl printChar p

/-- `set_color`. -/
def setColor (p : Printer) (color : Byte) : Printer :=
  { p with console := p.console.setColor color }

/-- A call of `int_to_string` and the string it returns. -/
def callIntToString (p : Printer) (value : ℤ) : Option (Printer × List Byte) := do
  let b ← intToString p.intString.toList value
  let string ← asBuffer 12 b
  some ({ p with intString := string }, cText b)

/-- A call of `double_to_string` and the string it returns. -/
def callDoubleToString (p : Printer) (value : Float) : Option (Printer × List Byte) := do
  let b ← doubleToString p.doubleString.toList value
  let string ← asBuffer 64 b
  some ({ p with doubleString := string }, cText b)

@[simp] theorem printed_printChar (p : Printer) (c : Byte) :
    (p.printChar c).printed = p.printed ++ [c] := rfl

@[simp] theorem printed_setColor (p : Printer) (color : Byte) :
    (p.setColor color).printed = p.printed := rfl

@[simp] theorem printed_print (p : Printer) (message : List Byte) :
    (p.print message).printed = p.printed ++ message := by
  induction message generalizing p with
  | nil => simp [print]
  | cons c message ih =>
      have hstep : p.print (c :: message) = (p.printChar c).print message := rfl
      rw [hstep, ih]
      simp

@[simp] theorem console_print (p : Printer) (message : List Byte) :
    (p.print message).console = p.console.print message := by
  induction message generalizing p with
  | nil => rfl
  | cons c message ih => exact ih (p.printChar c)

end Printer

/-! ### `kprintf` -/

section Kprintf

variable (hex : BitVec 32 → Printer → Option Printer) (args : ℕ → VaArg)

/-- The `switch`, where `hex` prints a number in hexadecimal and `next` is the argument that
`va_arg` reads next. -/
def directive (d : Byte) (next : ℕ) (p : Printer) : Option (Printer × ℕ) :=
  if d = char 's' then some (p.print (args next).string, next + 1)
  else if d = char 'c' then some (p.printChar ((args next).int.setWidth 8), next + 1)
  else if d = char 'd' then do
    let (p, sValue) ← p.callIntToString (args next).int.toInt
    some (p.print sValue, next + 1)
  else if d = char 'x' then do
    let p ← hex (args next).int p
    some (p, next + 1)
  else if d = char 'f' then do
    let (p, sdValue) ← p.callDoubleToString (args next).double
    some (p.print sdValue, next + 1)
  else some (p, next)

/-- `while (*start_text != '\0')`. -/
def formatLoop : List Byte → ℕ → Printer → Option (Printer × ℕ)
  | [], _, _ => none
  | c :: startText, next, p =>
      if c = 0 then some (p, next)
      else if c = char '%' then
        match startText with
        | [] => none
        | d :: rest => do
            let (p, next) ← directive hex args d next p
            formatLoop rest next p
      else formatLoop startText next (p.printChar c)

/-- `kprintf` up to its use of `int_to_hex_string`; with the printer comes the number of
arguments read. -/
def kprintfWith (startText : List Byte) (p : Printer) : Option (Printer × ℕ) := do
  let (p, next) ← formatLoop hex args startText 0 p
  some (p.setColor 0x0F, next)

end Kprintf

/-! ### `int_to_hex_string` -/

/-- `char* hex`. -/
def hexTable : List Byte := cstr "0123456789ABCDEF"

/-- `while (value != 0)`. -/
def hexLoop (buffer : List (Option Byte)) (i : ℕ) (value : BitVec 32) :
    Option (List (Option Byte) × ℕ) :=
  if value = 0 then some (buffer, i)
  else do
    let digit ← hexTable[(value &&& 0xF).toNat]?
    let buffer ← write buffer i (some digit)
    hexLoop buffer (i + 1) (value >>> 4)
termination_by value.toNat
decreasing_by
  have hpos : 0 < value.toNat := by
    rw [Nat.pos_iff_ne_zero]
    exact fun h => ‹¬ value = 0› (BitVec.eq_of_toNat_eq h)
  rw [BitVec.toNat_ushiftRight, Nat.shiftRight_eq_div_pow]
  omega

/-- The argument of `kprintf("%c", c)`. -/
def charArg (c : Byte) : ℕ → VaArg := fun _ => ⟨[], c.signExtend 32, 0⟩

section Hex

variable (kprintf : (ℕ → VaArg) → List Byte → Printer → Option (Printer × ℕ))

/-- `while (i > 0)`. -/
def emitLoop (buffer : List (Option Byte)) : ℕ → Printer → Option Printer
  | 0, p => some p
  | i + 1, p => do
      let cell ← buffer[i]?
      let c ← cell
      let (p, _) ← kprintf (charArg c) (cstr "%c" ++ [0]) p
      emitLoop buffer i p

/-- `int_to_hex_string` up to its use of `kprintf`. -/
def intToHexStringWith (value : BitVec 32) (p : Printer) : Option Printer :=
  if value = 0 then do
    let (p, _) ← kprintf (charArg 0) (cstr "0x0" ++ [0]) p
    some p
  else do
    let (buffer, i) ← hexLoop (List.replicate 10 none) 0 value
    emitLoop kprintf buffer i p

end Hex

/-- `int_to_hex_string`; no format it passes on has a `%x`. -/
def intToHexString : BitVec 32 → Printer → Option Printer :=
  intToHexStringWith (kprintfWith fun _ _ => none)

/-- `kprintf`. -/
def kprintf : (ℕ → VaArg) → List Byte → Printer → Option (Printer × ℕ) :=
  kprintfWith intToHexString

/-! ### The loop of `kprintf` -/

section Loop

variable {hex : BitVec 32 → Printer → Option Printer} {args : ℕ → VaArg} {fmt : List Byte}

theorem formatLoop_literal {c : Byte} (h0 : c ≠ 0) (hc : c ≠ char '%') (text : List Byte) (next : ℕ)
    (p : Printer) :
    formatLoop hex args (c :: text) next p = formatLoop hex args text next (p.printChar c) := by
  rw [formatLoop.eq_def]
  simp only [if_neg h0, if_neg hc]

theorem formatLoop_directive (d : Byte) (rest : List Byte) (next : ℕ) (p : Printer) :
    formatLoop hex args (char '%' :: d :: rest) next p =
      (directive hex args d next p).bind fun r => formatLoop hex args rest r.2 r.1 := rfl

/-- What one turn of the loop does with a piece of the format. -/
def pieceStep (hex : BitVec 32 → Printer → Option Printer) (args : ℕ → VaArg) :
    Printer × ℕ → Piece Byte → Option (Printer × ℕ)
  | (p, next), .literal c => some (p.printChar c, next)
  | (p, next), .directive d => directive hex args d next p

/-- The loop handles the pieces in order; a directive left open leads behind the NUL. -/
theorem formatLoop_eq (hfmt : ∀ c ∈ fmt, c ≠ 0) (next : ℕ) (p : Printer) :
    formatLoop hex args (fmt ++ [0]) next p =
      if Closed (char '%') fmt then (pieces (char '%') fmt).foldlM (pieceStep hex args) (p, next)
      else none := by
  induction fmt using scan_induction (char '%') generalizing next p with
  | empty =>
      rw [if_pos closed_nil]
      rfl
  | single =>
      rw [if_neg not_closed_open]
      rfl
  | literal c text hc ih =>
      have h0 : c ≠ 0 := hfmt c List.mem_cons_self
      rw [List.cons_append, formatLoop_literal h0 hc, ih (fun x hx => hfmt x (List.mem_cons_of_mem _ hx)),
        pieces_literal hc, List.foldlM_cons]
      simp only [closed_literal hc]
      rfl
  | directive d rest ih =>
      have hrest : ∀ x ∈ rest, x ≠ 0 := fun x hx =>
        hfmt x (List.mem_cons_of_mem _ (List.mem_cons_of_mem _ hx))
      rw [List.cons_append, List.cons_append, formatLoop_directive, pieces_directive, List.foldlM_cons]
      simp only [ih hrest, closed_directive]
      by_cases hclosed : Closed (char '%') rest
      · simp only [if_pos hclosed]
        rfl
      · simp only [if_neg hclosed, Option.bind_fun_none]

theorem kprintfWith_char (c : Byte) (p : Printer) :
    kprintfWith hex (charArg c) (cstr "%c" ++ [0]) p = some ((p.printChar c).setColor 0x0F, 1) := by
  have harg : (c.signExtend 32).setWidth 8 = c := by
    revert c
    decide +kernel
  have hdirective : directive hex (charArg c) (char 'c') 0 p = some (p.printChar c, 1) := by
    rw [directive, if_neg (by decide), if_pos rfl, charArg, harg]
  rw [kprintfWith, formatLoop_eq (by decide), if_pos (by decide),
    show pieces (char '%') (cstr "%c") = [.directive (char 'c')] by decide, List.foldlM_cons,
    pieceStep, hdirective]
  rfl

theorem kprintfWith_plain {text : List Byte} (h : ∀ c ∈ text, c ≠ 0 ∧ c ≠ char '%') (p : Printer) :
    kprintfWith hex args (text ++ [0]) p = some ((p.print text).setColor 0x0F, 0) := by
  have hloop : ∀ p, formatLoop hex args (text ++ [0]) 0 p = some (p.print text, 0) := by
    induction text with
    | nil => exact fun p => rfl
    | cons c text ih =>
        intro p
        obtain ⟨h0, hmark⟩ := h c List.mem_cons_self
        rw [List.cons_append, formatLoop_literal h0 hmark, ih fun x hx => h x (List.mem_cons_of_mem _ hx)]
        rfl
  rw [kprintfWith, hloop]
  rfl

end Loop

theorem intToHexString_eq : intToHexString = intToHexStringWith kprintf := by
  have hemit : ∀ buffer i p, emitLoop (kprintfWith fun _ _ => none) buffer i p =
      emitLoop kprintf buffer i p := by
    intro buffer i
    induction i with
    | zero => exact fun p => rfl
    | succ i ih =>
        intro p
        simp only [emitLoop, kprintf, kprintfWith_char, Option.bind_eq_bind, Option.bind_some]
        simp only [ih, kprintf]
  have hzero : ∀ p, kprintfWith (fun _ _ => none) (charArg 0) (cstr "0x0" ++ [0]) p =
      kprintf (charArg 0) (cstr "0x0" ++ [0]) p := by
    intro p
    rw [kprintf, kprintfWith_plain (by decide), kprintfWith_plain (by decide)]
  funext value p
  unfold intToHexString intToHexStringWith
  simp only [hemit, hzero]

end RaxzusHeap
