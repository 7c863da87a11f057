import RaxzusHeap.Console

/-! # The command line (`keyboard.c`, `keymap.c`)

The keyboard handler keeps the line twice: as `command_buffer[0 .. buffer_pos)` and as the
cells behind the prompt.  A character is appended to both; Backspace shortens the buffer
itself and leaves the screen to `backspace`, which looks at the column of the cursor.

`Shown c a text` says that the screen shows `text` from cell `a` on, the cursor behind it
and blank cells after that.  Printing keeps it (`Shown.printChar`), a scroll moving `a` up by
one row, and so does a Backspace inside a row (`Shown.backspace`).  `line_kept_iff` says for
which sequences of keys screen and buffer agree all the time. -/

namespace RaxzusHeap

open Imperative

def LEFT_SHIFT_PRESS : Byte := 0x2A
def LEFT_SHIFT_RELEASE : Byte := 0xAA
def RIGHT_SHIFT_PRESS : Byte := 0x36
def RIGHT_SHIFT_RELEASE : Byte := 0xB6

/-- `keymap_lower`, without its last 70 zeros. -/
def keymapLower : List Byte :=
  [0, 27] ++ ['1', '2', '3', '4', '5', '6', '7', '8', '9', '0', '+'].map char ++
  [0xB4, 8, 9] ++ ['q', 'w', 'e', 'r', 't', 'y', 'u', 'i', 'o', 'p'].map char ++
  [0xE5, 0xA8, 10, 0] ++ ['a', 's', 'd', 'f', 'g', 'h', 'j', 'k', 'l'].map char ++
  [0xF6, 0xE4, 0xA7, 0] ++
  [39] ++ ['z', 'x', 'c', 'v', 'b', 'n', 'm', ',', '.', '-'].map char ++
  [0, char '*', 0, char ' ']

/-- `keymap_upper`, without its last 70 zeros. -/
def keymapUpper : List Byte :=
  [0, 27, char '!', 34, char '#', 0xA4] ++
  ['%', '&', '/', '(', ')', '=', '?'].map char ++ [0x60, 8, 9] ++ ['Q', 'W', 'E', 'R', 'T', 'Y', 'U', 'I', 'O', 'P'].map char ++
  [0xC5, char '^', 10, 0] ++ ['A', 'S', 'D', 'F', 'G', 'H', 'J', 'K', 'L'].map char ++
  [0xD6, 0xC4, 0xBD, 0] ++
  ['*', 'Z', 'X', 'C', 'V', 'B', 'N', 'M', ';', ':', '_'].map char ++
  [0, char '*', 0, char ' ']

/-- `scancode_to_ascii`. -/
def scancodeToAscii (scancode : Byte) (shiftPressed : Bool) : Byte :=
  if 128 ≤ scancode.toNat then 0
  else if shiftPressed then keymapUpper.getD scancode.toNat 0
  else keymapLower.getD scancode.toNat 0

/-- The console and the variables of `keyboard.c`. -/
structure Terminal where
  console : Console
  leftShiftPressed : Bool
  rightShiftPressed : Bool
  commandBuffer : ℕ → Byte
  bufferPos : ℕ

namespace Terminal

/-- `command_buffer[i] = b`. -/
def setBuffer (t : Terminal) (i : ℕ) (b : Byte) : Terminal :=
  { t with commandBuffer := fun j => if j = i then b else t.commandBuffer j }

/-- The character a key stands for at the moment. -/
def ascii (t : Terminal) (scancode : Byte) : Byte :=
  scancodeToAscii scancode (t.leftShiftPressed || t.rightShiftPressed)

/-- The part of `keyboard_interrupt_handler` for a key that stands for a character. -/
def typeChar (processInput : Terminal → Terminal) (t : Terminal) (ascii : Byte) : Terminal :=
  if ascii = char '\n' then
    let t := processInput (t.setBuffer t.bufferPos 0)
    { t with bufferPos := 0, console := t.console.prompt }
  else if ascii = 8 then
    let t := { t with console := t.console.backspace t.bufferPos }
    if 0 < t.bufferPos then { t with bufferPos := t.bufferPos - 1 } else t
  else if t.bufferPos < 256 then
    let t := t.setBuffer t.bufferPos ascii
    { t with
      console := (t.console.printChar ascii).setColor 0x0F
      bufferPos := t.bufferPos + 1 }
  else { t with bufferPos := 256 }

/-- `keyboard_interrupt_handler`, where `processInput` stands for what a command does. -/
def keyboardInterruptHandler (processInput : Terminal → Terminal) (t : Terminal)
    (scancode : Byte) : Terminal :=
  if scancode = LEFT_SHIFT_PRESS then { t with leftShiftPressed := true }
  else if scancode = LEFT_SHIFT_RELEASE then { t with leftShiftPressed := false }
  else if scancode = RIGHT_SHIFT_PRESS then { t with rightShiftPressed := true }
  else if scancode = RIGHT_SHIFT_RELEASE then { t with rightShiftPressed := false }
  else if scancode &&& 0x80 = 0 then
    if t.ascii scancode ≠ 0 then t.typeChar processInput (t.ascii scancode) else t
  else t

/-- A sequence of keyboard interrupts. -/
def press (processInput : Terminal → Terminal) (t : Terminal) (keys : List Byte) : Terminal :=
  keys.foldl (keyboardInterruptHandler processInput) t

@[simp] theorem press_concat (processInput : Terminal → Terminal) (t : Terminal)
    (keys : List Byte) (k : Byte) :
    t.press processInput (keys ++ [k]) =
      (t.press processInput keys).keyboardInterruptHandler processInput k := by
  simp [press]

end Terminal

namespace Console

/-- The cell the cursor stands on, counted from the top left. -/
def pos (c : Console) : ℤ := 80 * c.cursorRow + c.cursorCol

/-- The character in a cell. -/
def cell (c : Console) (j : ℤ) : Byte := c.video (2 * j)

/-- Every cell from the cursor on is blank. -/
def BlankAfter (c : Console) : Prop := ∀ j, c.pos ≤ j → j < 2000 → c.cell j = char ' '

theorem Resting.col_eq {c : Console} (h : c.Resting) : c.cursorCol = c.pos % 80 := by
  have := h.col
  unfold pos
  omega

theorem Resting.pos_le {c : Console} (h : c.Resting) : 0 ≤ c.pos ∧ c.pos ≤ 2000 := by
  obtain ⟨⟨hr0, hr25⟩, ⟨hc0, hc80⟩, hlast⟩ := h
  unfold pos
  omega

theorem Resting.row_eq_iff {c : Console} (h : c.Resting) : c.cursorRow = 25 ↔ c.pos = 2000 := by
  obtain ⟨⟨hr0, hr25⟩, ⟨hc0, hc80⟩, hlast⟩ := h
  unfold pos
  constructor
  · intro hrow
    have := hlast hrow
    omega
  · omega

/-- The screen shows `text` from cell `a` on; the cursor stands behind it, and the rest of
the screen is blank. -/
structure Shown (c : Console) (a : ℤ) (text : List Byte) : Prop where
  resting : c.Resting
  start : 0 ≤ a
  cursor : c.pos = a + text.length
  text : ∀ i (h : i < text.length), c.cell (a + i) = text[i]
  blank : c.BlankAfter

theorem put_cell (c : Console) {ch : Byte} (hch : ch ≠ char '\n') (j : ℤ) :
    (c.put ch).cell j = if j = c.pos then ch else c.cell j := by
  rw [Console.put, if_neg hch, cell, advance_video, set_video_ne _ _ (by omega)]
  by_cases hj : j = c.pos
  · rw [if_pos hj, show 2 * j = (c.cursorRow * 80 + c.cursorCol) * 2 by
      rw [hj, pos]; ring]
    exact set_video_same _ _ _
  · rw [if_neg hj, set_video_ne _ _ (by rw [pos] at hj; omega)]
    rfl

/-- Writing above row 25 appends to the text. -/
theorem Shown.put {c : Console} {a : ℤ} {text : List Byte} (h : Shown c a text)
    (hrow : c.cursorRow ≤ 24) {ch : Byte} (hch : ch ≠ char '\n') :
    Shown (c.put ch) a (text ++ [ch]) := by
  have hrest := (h.resting.put hrow ch).1
  have hcur := h.cursor
  have hcol := h.resting.col
  have hpos : (c.put ch).pos = c.pos + 1 := by
    rw [Console.put, if_neg hch]
    by_cases hwrap : 80 ≤ c.cursorCol + 1
    · rw [advance_wrap (by exact hwrap)]
      simp only [pos, set_cursorRow]
      omega
    · rw [advance_col (by exact hwrap)]
      simp only [pos, set_cursorRow, set_cursorCol]
      omega
  have hcell := fun j => c.put_cell hch j
  refine ⟨hrest, h.start, by rw [hpos, hcur]; simp; ring, fun i hi => ?_, fun j h1 h2 => ?_⟩
  · rw [hcell]
    rcases Nat.lt_or_ge i text.length with hlt | hge
    · rw [if_neg (by omega), List.getElem_append_left hlt]
      exact h.text i hlt
    · simp only [List.length_append, List.length_singleton] at hi
      obtain rfl : i = text.length := by omega
      rw [if_pos hcur.symm]
      simp
  · rw [hpos] at h1
    rw [hcell, if_neg (by omega)]
    exact h.blank j (by omega) h2

theorem Shown.scroll {c : Console} {a : ℤ} {text : List Byte} (h : Shown c a text)
    (hrow : c.cursorRow = 25) (hlen : text.length ≤ 1920) : Shown c.scroll (a - 80) text := by
  have hs := c.scroll_spec
  have hpos := h.resting.row_eq_iff.mp hrow
  have hcur := h.cursor
  have hpos' : c.scroll.pos = 1920 := by
    rw [pos, hs.row, hs.col]
    norm_num
  refine ⟨hs.resting, by omega, by omega, fun i hi => ?_, fun j h1 h2 => hs.blank j (by omega) h2⟩
  rw [← h.text i hi, cell, hs.moved _ (by omega) (by omega), cell]
  congr 1
  ring

/-- `print_char` appends to the text, after a scroll if one is pending. -/
theorem Shown.printChar {c : Console} {a : ℤ} {text : List Byte} (h : Shown c a text)
    (hlen : text.length ≤ 1920) {ch : Byte} (hch : ch ≠ char '\n') :
    ∃ k : ℕ, Shown (c.printChar ch) (a - 80 * k) (text ++ [ch]) := by
  have hrow := h.resting.row
  unfold Console.printChar
  split
  · have hs := h.scroll (by omega) hlen
    refine ⟨1, ?_⟩
    simpa using hs.put (by rw [c.scroll_spec.row]) hch
  · refine ⟨0, ?_⟩
    simpa using h.put (by omega) hch

theorem Shown.setColor {c : Console} {a : ℤ} {text : List Byte} (h : Shown c a text)
    (color : Byte) : Shown (c.setColor color) a text :=
  ⟨h.resting.setColor color, h.start, h.cursor, h.text, h.blank⟩

theorem Shown.print {c : Console} {a : ℤ} {text : List Byte} (h : Shown c a text)
    (message : List Byte) (hlen : text.length + message.length ≤ 1920)
    (hmsg : ∀ ch ∈ message, ch ≠ char '\n') :
    ∃ k : ℕ, Shown (c.print message) (a - 80 * k) (text ++ message) := by
  induction message generalizing c a text with
  | nil => exact ⟨0, by simpa [Console.print] using h⟩
  | cons ch rest ih =>
      simp only [List.length_cons] at hlen
      obtain ⟨k, hk⟩ := h.printChar (by omega) (hmsg ch List.mem_cons_self)
      obtain ⟨m, hm⟩ := ih hk (by simp; omega) fun x hx => hmsg x (List.mem_cons_of_mem ch hx)
      refine ⟨k + m, ?_⟩
      rw [show a - 80 * ((k + m : ℕ) : ℤ) = a - 80 * k - 80 * m by push_cast; ring,
        List.append_cons]
      exact hm

theorem Resting.prompt_shown {c : Console} (h : c.Resting) (hblank : c.BlankAfter) :
    ∃ a, Shown c.prompt a promptText := by
  have hnil : Shown c c.pos [] := ⟨h, h.pos_le.1, by simp, by simp, hblank⟩
  obtain ⟨k, hk⟩ := (hnil.setColor 0x03).print promptText (by decide) (by decide)
  exact ⟨_, hk.setColor 0x0F⟩

/-- A Backspace behind a character that is not at the end of a row takes it off the text. -/
theorem Shown.backspace {c : Console} {a : ℤ} {text : List Byte} {ch : Byte} {n : ℕ}
    (h : Shown c a (text ++ [ch])) (hn : 0 < n) (hcol : 1 ≤ c.cursorCol) :
    Shown (c.backspace n) a text := by
  obtain ⟨⟨hr0, hr25⟩, ⟨hc0, hc80⟩, hlast⟩ := h.resting
  have hcur := h.cursor
  rw [List.length_append, List.length_singleton, pos] at hcur
  push_cast at hcur
  unfold Console.backspace
  rw [if_neg (by omega), if_pos (by omega)]
  have hcell : ∀ j, j < a + text.length ∨ a + text.length + 1 < j → ((c.set
      ((c.cursorRow * 80 + c.cursorCol) * 2) (char ' ')).set
      ((c.cursorRow * 80 + c.cursorCol) * 2 - 2) (char ' ')).video (2 * j) = c.cell j := by
    intro j hj
    rw [set_video_ne _ _ (by omega), set_video_ne _ _ (by omega)]
    rfl
  refine ⟨⟨⟨hr0, hr25⟩, ⟨by simp; omega, by simp; omega⟩, fun he => ?_⟩, h.start, ?_,
    fun i hi => ?_, fun j h1 h2 => ?_⟩
  · have := hlast he
    omega
  · simp only [pos, set_cursorRow, set_cursorCol]
    omega
  · have ht := h.text i (by simp; omega)
    rw [List.getElem_append_left hi] at ht
    rw [← ht]
    exact hcell _ (.inl (by omega))
  · simp only [pos, set_cursorRow, set_cursorCol] at h1
    show ((c.set _ _).set _ _).video (2 * j) = _
    by_cases hj : j = a + text.length
    · rw [show 2 * j = (c.cursorRow * 80 + c.cursorCol) * 2 - 2 by omega]
      exact set_video_same _ _ _
    · by_cases hj' : j = a + text.length + 1
      · rw [set_video_ne _ _ (by omega), show 2 * j = (c.cursorRow * 80 + c.cursorCol) * 2 by omega]
        exact set_video_same _ _ _
      · rw [hcell j (.inr (by omega))]
        exact h.blank j (by rw [pos]; omega) h2

end Console

namespace Terminal

open Console

variable {processInput : Terminal → Terminal}

def ENTER : Byte := 0x1C
def BACKSPACE : Byte := 0x0E

theorem scancodeToAscii_special (scancode : Byte) (shiftPressed : Bool) :
    (scancodeToAscii scancode shiftPressed = char '\n' ↔ scancode = ENTER) ∧
      (scancodeToAscii scancode shiftPressed = 8 ↔ scancode = BACKSPACE) := by
  revert scancode shiftPressed
  decide +kernel

/-- The line that is being typed. -/
def line (t : Terminal) : List Byte := (List.range t.bufferPos).map t.commandBuffer

@[simp] theorem line_length (t : Terminal) : t.line.length = t.bufferPos := by simp [line]

/-- The screen shows the prompt from cell `a` on, and behind it the line. -/
def LineShown (t : Terminal) (a : ℤ) : Prop := Shown t.console a (promptText ++ t.line)

theorem line_typed (t : Terminal) (ch : Byte) (c : Console) :
    line { t.setBuffer t.bufferPos ch with
      console := c
      bufferPos := t.bufferPos + 1 } = t.line ++ [ch] := by
  simp only [line, List.range_succ, List.map_append, List.map_cons, List.map_nil, setBuffer,
    if_true, List.append_left_inj]
  refine List.map_congr_left fun i hi => ?_
  have := List.mem_range.mp hi
  rw [if_neg (by omega)]

theorem LineShown.typed {t : Terminal} {a : ℤ} (h : t.LineShown a) (hpos : t.bufferPos < 255)
    {ch : Byte} (hch : ch ≠ char '\n') :
    ∃ k : ℕ, LineShown { t.setBuffer t.bufferPos ch with
      console := (t.console.printChar ch).setColor 0x0F
      bufferPos := t.bufferPos + 1 } (a - 80 * k) := by
  obtain ⟨k, hk⟩ := h.printChar (by simp [promptText]; omega) hch
  refine ⟨k, ?_⟩
  unfold LineShown
  rw [line_typed, ← List.append_assoc]
  exact hk.setColor 0x0F

theorem LineShown.col {t : Terminal} {a : ℤ} (h : t.LineShown a) :
    t.console.cursorCol = (a + 11 + t.bufferPos) % 80 := by
  rw [h.resting.col_eq, h.cursor]
  simp [promptText]
  congr 1
  ring

/-- Where a Backspace on a line of `n` characters works, when the prompt ends in column
`col`: behind a character that is not at the end of a row, or right behind a prompt that
starts a row. -/
def BackspaceFits (col : ℤ) (n : ℕ) : Prop :=
  if n = 0 then col = 11 else (col + n) % 80 ≠ 0

/-- The state after a Backspace. -/
def erase (t : Terminal) : Terminal :=
  { t with
    console := t.console.backspace t.bufferPos
    bufferPos := t.bufferPos - 1 }

theorem typeChar_backspace (t : Terminal) : t.typeChar processInput 8 = t.erase := by
  rw [typeChar, if_neg (by decide), if_pos rfl, Terminal.erase]
  dsimp only
  split
  · rfl
  · rw [show t.bufferPos - 1 = t.bufferPos by omega]

theorem LineShown.erase {t : Terminal} {a col : ℤ} (h : t.LineShown a)
    (hstart : (a + 11) % 80 = col) (hfits : BackspaceFits col t.bufferPos) :
    t.erase.LineShown a ∧ (t.bufferPos = 0 → t.erase.console = t.console) := by
  have hcol := h.col
  unfold BackspaceFits at hfits
  rcases Nat.eq_zero_or_pos t.bufferPos with h0 | hpos
  · rw [if_pos h0] at hfits
    rw [h0] at hcol
    have hsame : t.console.backspace t.bufferPos = t.console := by
      rw [Console.backspace, if_neg (by omega), if_neg (by omega)]
    have herase : t.erase = t := by
      rw [Terminal.erase, hsame, h0]
      cases t
      cases h0
      rfl
    rw [herase]
    exact ⟨h, fun _ => rfl⟩
  · rw [if_neg (by omega)] at hfits
    refine ⟨?_, fun h0 => by omega⟩
    obtain ⟨n, hn⟩ : ∃ n, t.bufferPos = n + 1 := ⟨t.bufferPos - 1, by omega⟩
    have hline : t.line = t.erase.line ++ [t.commandBuffer n] := by
      simp [line, Terminal.erase, hn, List.range_succ]
    unfold LineShown at h ⊢
    rw [hline, ← List.append_assoc] at h
    have hc := h.resting.col
    exact h.backspace hpos (by omega)

/-- Elsewhere a Backspace leaves the cursor in a place that does not fit the line. -/
theorem LineShown.fits_of_erase {t : Terminal} {a b col : ℤ} (h : t.LineShown a)
    (hstart : (a + 11) % 80 = col) (h' : t.erase.LineShown b)
    (hempty : t.bufferPos = 0 → t.erase.console = t.console) : BackspaceFits col t.bufferPos := by
  have hcol := h.col
  have hrange := h.resting.col
  unfold BackspaceFits
  rcases Nat.eq_zero_or_pos t.bufferPos with h0 | hpos
  · rw [if_pos h0]
    by_contra hne
    have hsame := congrArg Console.cursorCol (hempty h0)
    rw [Terminal.erase, Console.backspace, if_neg (by omega), if_pos (by rw [hcol, h0]; omega)]
      at hsame
    simp at hsame
  · rw [if_neg (by omega)]
    intro hzero
    have hleft : t.erase.console.cursorCol = 80 := by
      rw [Terminal.erase, Console.backspace, if_pos (by omega)]
    have := h'.resting.col
    omega

/-! ### Keys -/

/-- What a key other than Enter does: Backspace erases, some keys only change the state of
shift or nothing at all, the others type a character. -/
theorem keyboardInterruptHandler_cases (t : Terminal) {key : Byte} (hkey : key ≠ ENTER)
    (hpos : t.bufferPos < 256) :
    (key = BACKSPACE ∧ t.keyboardInterruptHandler processInput key = t.erase) ∨
    (key ≠ BACKSPACE ∧ ∃ left right, t.keyboardInterruptHandler processInput key =
      { t with leftShiftPressed := left, rightShiftPressed := right }) ∨
    (key ≠ BACKSPACE ∧ ∃ ch, ch ≠ char '\n' ∧ t.keyboardInterruptHandler processInput key =
      { t.setBuffer t.bufferPos ch with
        console := (t.console.printChar ch).setColor 0x0F
        bufferPos := t.bufferPos + 1 }) := by
  obtain ⟨hnl, hbs⟩ := scancodeToAscii_special key (t.leftShiftPressed || t.rightShiftPressed)
  by_cases hback : key = BACKSPACE
  · refine .inl ⟨hback, ?_⟩
    have hascii : t.ascii key = 8 := hbs.mpr hback
    have htype : t.keyboardInterruptHandler processInput key = t.typeChar processInput 8 := by
      rw [← hascii, hback]
      unfold keyboardInterruptHandler
      rw [if_neg (by decide), if_neg (by decide), if_neg (by decide), if_neg (by decide),
        if_pos (by decide), if_pos (by rw [← hback, hascii]; decide)]
    rw [htype, typeChar_backspace]
  · refine .inr ?_
    unfold keyboardInterruptHandler
    split
    · exact .inl ⟨hback, true, t.rightShiftPressed, rfl⟩
    split
    · exact .inl ⟨hback, false, t.rightShiftPressed, rfl⟩
    split
    · exact .inl ⟨hback, t.leftShiftPressed, true, rfl⟩
    split
    · exact .inl ⟨hback, t.leftShiftPressed, false, rfl⟩
    split
    · split
      · have hn : t.ascii key ≠ char '\n' := fun he => hkey (hnl.mp he)
        have hb : t.ascii key ≠ 8 := fun he => hback (hbs.mp he)
        refine .inr ⟨hback, t.ascii key, hn, ?_⟩
        rw [typeChar, if_neg hn, if_neg hb, if_pos hpos]
        rfl
      · exact .inl ⟨hback, t.leftShiftPressed, t.rightShiftPressed, rfl⟩
    · exact .inl ⟨hback, t.leftShiftPressed, t.rightShiftPressed, rfl⟩

theorem keyboardInterruptHandler_backspace (t : Terminal) (hpos : t.bufferPos < 256) :
    t.keyboardInterruptHandler processInput BACKSPACE = t.erase := by
  have hkey : BACKSPACE ≠ ENTER := by decide
  rcases keyboardInterruptHandler_cases t hkey hpos with ⟨-, heq⟩ | ⟨hne, -⟩ | ⟨hne, -⟩
  · exact heq
  · exact absurd rfl hne
  · exact absurd rfl hne

/-- After every key the screen shows the prompt, perhaps some rows further up, and behind it
exactly the line; Backspace on an empty line changes nothing on the screen. -/
def LineKept (processInput : Terminal → Terminal) (t : Terminal) (keys : List Byte) : Prop :=
  (∀ pre, pre <+: keys →
    ∃ k : ℕ, (t.press processInput pre).LineShown (t.console.pos - 11 - 80 * k)) ∧
  ∀ pre, pre ++ [BACKSPACE] <+: keys → (t.press processInput pre).bufferPos = 0 →
    (t.press processInput (pre ++ [BACKSPACE])).console = (t.press processInput pre).console

/-- Every Backspace is pressed where it works. -/
def BackspacesFit (processInput : Terminal → Terminal) (t : Terminal) (keys : List Byte) : Prop :=
  ∀ pre, pre ++ [BACKSPACE] <+: keys →
    BackspaceFits t.console.cursorCol (t.press processInput pre).bufferPos

theorem LineShown.start_col {t : Terminal} {a : ℤ} (h : t.LineShown a) (k : ℕ) :
    (t.console.pos - 11 - 80 * k + 11) % 80 = t.console.cursorCol := by
  rw [h.resting.col_eq]
  omega

theorem LineShown.key {t : Terminal} {a col : ℤ} (h : t.LineShown a)
    (hstart : (a + 11) % 80 = col) {key : Byte} (hkey : key ≠ ENTER) (hpos : t.bufferPos < 255)
    (hfits : key = BACKSPACE → BackspaceFits col t.bufferPos) :
    ∃ k : ℕ, (t.keyboardInterruptHandler processInput key).LineShown (a - 80 * k) := by
  rcases keyboardInterruptHandler_cases t hkey (by omega) with
    ⟨hback, heq⟩ | ⟨-, left, right, heq⟩ | ⟨-, ch, hch, heq⟩
  · rw [heq]
    exact ⟨0, by simpa using (h.erase hstart (hfits hback)).1⟩
  · rw [heq]
    refine ⟨0, ?_⟩
    simp only [Nat.cast_zero, mul_zero, sub_zero]
    exact h
  · rw [heq]
    exact h.typed hpos hch

/-- Screen and buffer agree after every key exactly when every Backspace is pressed where it
works. -/
theorem line_kept_iff (processInput : Terminal → Terminal) (t : Terminal) (c : Console)
    (hc : c.Resting) (hblank : c.BlankAfter) (hprompt : t.console = c.prompt)
    (hempty : t.bufferPos = 0) (keys : List Byte) (hkeys : ∀ key ∈ keys, key ≠ ENTER)
    (hshort : ∀ pre, pre <+: keys → (t.press processInput pre).bufferPos < 255) :
    LineKept processInput t keys ↔ BackspacesFit processInput t keys := by
  obtain ⟨a, ha⟩ := hc.prompt_shown hblank
  have hshown : t.LineShown a := by
    have hnil : t.line = [] := List.eq_nil_of_length_eq_zero (by rw [line_length, hempty])
    unfold LineShown
    rw [hprompt, hnil, List.append_nil]
    exact ha
  obtain rfl : a = t.console.pos - 11 := by
    have := ha.cursor
    rw [← hprompt] at this
    simp [promptText] at this
    omega
  have hcol := hshown.start_col
  constructor
  · rintro ⟨hline, hback⟩ pre hpre
    obtain ⟨k, hk⟩ := hline pre (List.IsPrefix.trans ⟨[BACKSPACE], rfl⟩ hpre)
    obtain ⟨m, hm⟩ := hline _ hpre
    have herase : t.press processInput (pre ++ [BACKSPACE]) = (t.press processInput pre).erase := by
      rw [press_concat]
      have hpos := hshort pre (List.IsPrefix.trans ⟨[BACKSPACE], rfl⟩ hpre)
      exact keyboardInterruptHandler_backspace _ (by omega)
    rw [herase] at hm
    have hsame := hback pre hpre
    rw [herase] at hsame
    exact hk.fits_of_erase (hcol k) hm hsame
  · intro hfits
    have hline : ∀ pre, pre <+: keys →
        ∃ k : ℕ, (t.press processInput pre).LineShown (t.console.pos - 11 - 80 * k) := by
      intro pre hpre
      induction pre using List.reverseRecOn with
      | nil => exact ⟨0, by simpa [press] using hshown⟩
      | append_singleton pre key ih =>
          have hpre' : pre <+: keys := List.IsPrefix.trans ⟨[key], rfl⟩ hpre
          obtain ⟨k, hk⟩ := ih hpre'
          obtain ⟨m, hm⟩ := hk.key (hcol k)
            (hkeys key (hpre.mem (by simp))) (hshort pre hpre')
            (fun he => hfits pre (by rw [← he]; exact hpre))
          rw [press_concat]
          refine ⟨k + m, ?_⟩
          rw [show t.console.pos - 11 - 80 * ((k + m : ℕ) : ℤ) =
            t.console.pos - 11 - 80 * k - 80 * m by push_cast; ring]
          exact hm
    refine ⟨hline, fun pre hpre h0 => ?_⟩
    have hpre' : pre <+: keys := List.IsPrefix.trans ⟨[BACKSPACE], rfl⟩ hpre
    obtain ⟨k, hk⟩ := hline pre hpre'
    have hpos := hshort pre hpre'
    rw [press_concat, keyboardInterruptHandler_backspace _ (by omega)]
    exact (hk.erase (hcol k) (hfits pre hpre)).2 h0

/-- A blank screen with the prompt in its first row. -/
def fresh : Terminal where
  console := Console.prompt ⟨fun _ => char ' ', 0, 0, 0x0F, []⟩
  leftShiftPressed := false
  rightShiftPressed := false
  commandBuffer _ := 0
  bufferPos := 0

theorem blank_resting : Resting ⟨fun _ => char ' ', 0, 0, 0x0F, []⟩ := by constructor <;> simp

theorem line_kept_iff_one : LineKept id fresh [0x1E, BACKSPACE] := by
  refine (line_kept_iff id fresh _ blank_resting (fun _ _ _ => rfl) rfl rfl _ (by decide)
    (fun pre hpre => ?_)).mpr fun pre hpre => ?_
  · have hall : ∀ pre ∈ [0x1E, BACKSPACE].inits, (fresh.press id pre).bufferPos < 255 := by decide
    exact hall pre (List.mem_inits _ _ |>.mpr hpre)
  · have hmem := (List.mem_inits _ _).mpr hpre
    obtain rfl : pre = [0x1E] := by
      rcases pre with _ | ⟨x, _ | ⟨y, pre⟩⟩
      · simp [List.inits, BACKSPACE] at hmem
      · simp [List.inits, BACKSPACE] at hmem
        rw [hmem]
        rfl
      · simp [List.inits] at hmem
    have hcol : fresh.console.cursorCol = 11 := by decide +kernel
    have hone : (fresh.press id [0x1E]).bufferPos = 1 := by decide +kernel
    rw [hcol, hone, BackspaceFits, if_neg (by norm_num)]
    norm_num

/-- Behind 69 characters the cursor stands at the start of a row, and Backspace shortens the
buffer only. -/
theorem line_drifts :
    ¬ ∀ (processInput : Terminal → Terminal) (t : Terminal) (c : Console), c.Resting →
      c.BlankAfter → t.console = c.prompt → t.bufferPos = 0 → ∀ keys : List Byte,
      (∀ key ∈ keys, key ≠ ENTER) →
      (∀ pre, pre <+: keys → (t.press processInput pre).bufferPos < 255) →
      LineKept processInput t keys := by
  intro hall
  have hshort : ∀ pre ∈ (List.replicate 69 (0x1E : Byte) ++ [BACKSPACE]).inits,
      (fresh.press id pre).bufferPos < 255 := by decide +kernel
  have hkeys : ∀ key ∈ List.replicate 69 (0x1E : Byte) ++ [BACKSPACE], key ≠ ENTER := by decide
  have hshort' : ∀ pre, pre <+: List.replicate 69 (0x1E : Byte) ++ [BACKSPACE] →
      (fresh.press id pre).bufferPos < 255 := fun pre hpre =>
    hshort pre ((List.mem_inits _ _).mpr hpre)
  have hkept := hall id fresh _ blank_resting (fun _ _ _ => rfl) rfl rfl _ hkeys hshort'
  obtain ⟨k, hk⟩ := hkept.1 _ List.prefix_rfl
  have hcol : (fresh.press id (List.replicate 69 (0x1E : Byte) ++ [BACKSPACE])).console.cursorCol =
      80 := by decide +kernel
  have := hk.resting.col
  omega

end Terminal

end RaxzusHeap
