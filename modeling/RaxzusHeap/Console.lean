import RaxzusHeap.Lib.Imperative

/-! # The console (`vga.c`)

The screen is 25 rows of 80 cells of two bytes, a character and a colour.  `print_char`
scrolls late: after the last cell of the last row the cursor rests on row 25, and the next
character moves the rows up before it is written.

* **State.** `Console` holds `video_memory` by byte index, where an index outside
  `0 … 3999` stands for the memory around the screen, and the variables of `vga.c`.
* **Ghost field.** `touched` collects every index of `video_memory` read or written.
* **Operations** (`Op`).  `Console.run` runs a sequence of the operations that the
  keyboard handler, the timer and the shell perform.

`print_char` and `clearScreen` stay on the screen from every resting position; `backspace`
and `cursor_blinker` compute an index from the same cursor without looking at it, and
`stays_iff` says from which cursors they stay on the screen. -/

namespace RaxzusHeap

open Imperative

/-- A `char`. -/
abbrev Byte := BitVec 8

/-- The code of a character of the source. -/
def char (c : Char) : Byte := BitVec.ofNat 8 c.toNat

/-- `video_memory` and the variables of `vga.c`. -/
structure Console where
  video : ℤ → Byte
  cursorRow : ℤ
  cursorCol : ℤ
  color : Byte
  touched : List ℤ

namespace Console

/-- Note a read of `video_memory[i]`. -/
def touch (c : Console) (i : ℤ) : Console := { c with touched := i :: c.touched }

/-- `video_memory[i] = b`. -/
def set (c : Console) (i : ℤ) (b : Byte) : Console :=
  { c with
    video := fun j => if j = i then b else c.video j
    touched := i :: c.touched }

/-- `video_memory[dest] = video_memory[source]`. -/
def copy (c : Console) (dest source : ℤ) : Console := (c.touch source).set dest (c.video source)

/-- `set_color`. -/
def setColor (c : Console) (color : Byte) : Console := { c with color := color }

/-- The first loop of the scroll: every row moves up by one. -/
def moveRows (c : Console) : Console :=
  loop 24 (fun row c => loop 160 (fun byte c =>
    let sourceStart := ((row : ℤ) + 1) * 160
    let destStart := (row : ℤ) * 160
    c.copy (destStart + byte) (sourceStart + byte)) c) c

/-- The second loop of the scroll: the last row becomes blank. -/
def blankLastRow (c : Console) : Console :=
  loop 80 (fun j c =>
    let position := (24 * 80 + (j : ℤ)) * 2
    (c.set position (char ' ')).set (position + 1) c.color) c

/-- The scroll of `print_char`. -/
def scroll (c : Console) : Console :=
  { c.moveRows.blankLastRow with cursorRow := 24, cursorCol := 0 }

/-- `cursor_col++`, with the step to the next row at the end of a row. -/
def advance (c : Console) : Console :=
  let c := { c with cursorCol := c.cursorCol + 1 }
  if 80 ≤ c.cursorCol then { c with cursorCol := 0, cursorRow := c.cursorRow + 1 } else c

/-- `print_char` after the scroll. -/
def put (c : Console) (ch : Byte) : Console :=
  if ch = char '\n' then { c with cursorRow := c.cursorRow + 1, cursorCol := 0 }
  else
    let position := (c.cursorRow * 80 + c.cursorCol) * 2
    ((c.set position ch).set (position + 1) c.color).advance

/-- `print_char`. -/
def printChar (c : Console) (ch : Byte) : Console :=
  (if 25 ≤ c.cursorRow then c.scroll else c).put ch

/-- `print`. -/
def print (c : Console) (message : List Byte) : Console := message.foldl printChar c

/-- `clearScreen`. -/
def clearScreen (c : Console) : Console :=
  let c := loop 25 (fun row c => loop 80 (fun col c =>
    let position := ((row : ℤ) * 80 + (col : ℤ)) * 2
    (c.set position (char ' ')).set (position + 1) 0x07) c) c
  { c with cursorRow := 0, cursorCol := 0 }

/-- `backspace`, where `bufferPosition` is what `get_buffer_position` returns. -/
def backspace (c : Console) (bufferPosition : ℕ) : Console :=
  let position := (c.cursorRow * 80 + c.cursorCol) * 2
  if 0 < bufferPosition ∧ c.cursorCol < 1 then
    { c with cursorRow := c.cursorRow - 1, cursorCol := 80 }
  else if 0 < bufferPosition ∨ (bufferPosition = 0 ∧ c.cursorCol ≠ 11) then
    let c := (c.set position (char ' ')).set (position - 2) (char ' ')
    { c with cursorCol := c.cursorCol - 1 }
  else c

/-- `cursor_blinker`. -/
def cursorBlinker (c : Console) : Console :=
  let position := (c.cursorRow * 80 + c.cursorCol) * 2
  let blank := c.video position = char ' '
  let c := c.touch position
  if blank then (c.set position 0xDB).set (position + 1) 0x07
  else c.set position (char ' ')

/-- The text of the prompt, `"RaxzusOS > "`. -/
def promptText : List Byte :=
  ['R', 'a', 'x', 'z', 'u', 's', 'O', 'S', ' ', '>', ' '].map char

/-- `kprintf_cyan("RaxzusOS > ")`: the colour is set for the text and then reset. -/
def prompt (c : Console) : Console := ((c.setColor 0x03).print promptText).setColor 0x0F

/-! ### What the operations do -/

/-- Every index used so far lies in the screen. -/
def OnScreen (c : Console) : Prop := ∀ i ∈ c.touched, 0 ≤ i ∧ i < 4000

@[simp] theorem set_video_same (c : Console) (i : ℤ) (b : Byte) : (c.set i b).video i = b := by
  simp [set]

theorem set_video_ne (c : Console) {i j : ℤ} (b : Byte) (h : j ≠ i) :
    (c.set i b).video j = c.video j := by
  simp [set, h]

@[simp] theorem set_cursorRow (c : Console) (i : ℤ) (b : Byte) :
    (c.set i b).cursorRow = c.cursorRow := rfl

@[simp] theorem set_cursorCol (c : Console) (i : ℤ) (b : Byte) :
    (c.set i b).cursorCol = c.cursorCol := rfl

@[simp] theorem set_color (c : Console) (i : ℤ) (b : Byte) : (c.set i b).color = c.color := rfl

theorem OnScreen.set {c : Console} (h : c.OnScreen) {i : ℤ} (hi : 0 ≤ i ∧ i < 4000) (b : Byte) :
    (c.set i b).OnScreen := by
  intro j hj
  rcases List.mem_cons.mp hj with rfl | hj
  · exact hi
  · exact h j hj

theorem OnScreen.touch {c : Console} (h : c.OnScreen) {i : ℤ} (hi : 0 ≤ i ∧ i < 4000) :
    (c.touch i).OnScreen := by
  intro j hj
  rcases List.mem_cons.mp hj with rfl | hj
  · exact hi
  · exact h j hj

/-- The states differ in the screen only. -/
structure SameCursor (c c' : Console) : Prop where
  row : c'.cursorRow = c.cursorRow
  col : c'.cursorCol = c.cursorCol
  color : c'.color = c.color

theorem SameCursor.refl (c : Console) : SameCursor c c := ⟨rfl, rfl, rfl⟩

theorem SameCursor.set {c c' : Console} (h : SameCursor c c') (i : ℤ) (b : Byte) :
    SameCursor c (c'.set i b) := ⟨h.row, h.col, h.color⟩

/-- The first `m` bytes of the screen are those one row further down in `c`. -/
structure Moved (c : Console) (m : ℤ) (c' : Console) : Prop where
  same : SameCursor c c'
  onScreen : c.OnScreen → c'.OnScreen
  moved : ∀ i, 0 ≤ i → i < m → c'.video i = c.video (i + 160)
  rest : ∀ i, m ≤ i → c'.video i = c.video i

theorem Moved.copy {c c' : Console} {m : ℤ} (h : Moved c m c') (h0 : 0 ≤ m) (hm : m < 3840) :
    Moved c (m + 1) (c'.copy m (m + 160)) where
  same := ⟨h.same.row, h.same.col, h.same.color⟩
  onScreen hon := ((h.onScreen hon).touch (by omega)).set (by omega) _
  moved := by
    intro i hi hlt
    rw [Console.copy]
    by_cases he : i = m
    · subst he
      rw [set_video_same]
      exact h.rest _ (by omega)
    · rw [set_video_ne _ _ he]
      exact h.moved i hi (by omega)
  rest := by
    intro i hi
    rw [Console.copy, set_video_ne _ _ (by omega)]
    exact h.rest i (by omega)

/-- The scroll moves every row up by one and blanks the last. -/
structure Scrolled (c c' : Console) : Prop where
  row : c'.cursorRow = 24
  col : c'.cursorCol = 0
  color : c'.color = c.color
  onScreen : c.OnScreen → c'.OnScreen
  moved : ∀ i, 0 ≤ i → i < 3840 → c'.video i = c.video (i + 160)
  blank : ∀ j, 1920 ≤ j → j < 2000 → c'.video (2 * j) = char ' '

theorem moveRows_spec (c : Console) : Moved c 3840 c.moveRows := by
  have hrows := loop_inv (fun row t => Moved c ((row : ℕ) * 160) t) (n := 24) (s := c)
    (f := fun row c => loop 160 (fun byte c =>
      c.copy ((row : ℤ) * 160 + byte) (((row : ℤ) + 1) * 160 + byte)) c)
    ⟨.refl c, id, fun i hi hlt => by simp at hlt; omega, fun _ _ => rfl⟩
    fun row t hrow ht => by
      have hinner := loop_inv (fun byte u => Moved c (row * 160 + (byte : ℕ)) u) (n := 160) (s := t)
        (f := fun byte c => c.copy ((row : ℤ) * 160 + byte) (((row : ℤ) + 1) * 160 + byte))
        (by simpa using ht) fun byte u hbyte hu => by
          have := hu.copy (by positivity) (by omega)
          rw [show ((row : ℤ) + 1) * 160 + byte = row * 160 + byte + 160 by ring,
            show (row : ℤ) * 160 + (byte + 1 : ℕ) = row * 160 + byte + 1 by push_cast; ring]
          exact this
      rw [show ((row + 1 : ℕ) : ℤ) * 160 = row * 160 + (160 : ℕ) by push_cast; ring]
      exact hinner
  simpa [moveRows] using hrows

/-- `c'` is `c` with the first `m` cells of the last row blank. -/
structure Blanked (c : Console) (m : ℤ) (c' : Console) : Prop where
  same : SameCursor c c'
  onScreen : c.OnScreen → c'.OnScreen
  rest : ∀ i, i < 3840 → c'.video i = c.video i
  blank : ∀ j, 1920 ≤ j → j < 1920 + m → c'.video (2 * j) = char ' '

theorem blankLastRow_spec (c : Console) : Blanked c 80 c.blankLastRow := by
  have hcells := loop_inv (fun j t => Blanked c (j : ℕ) t) (n := 80) (s := c)
    (f := fun j c => (c.set ((24 * 80 + (j : ℤ)) * 2) (char ' ')).set
      ((24 * 80 + (j : ℤ)) * 2 + 1) c.color)
    ⟨.refl c, id, fun _ _ => rfl, fun j h1 h2 => by simp at h2; omega⟩
    fun j t hj ht => by
      refine ⟨(ht.same.set _ _).set _ _, fun h => ((ht.onScreen h).set (by omega) _).set (by omega) _,
        fun i hi => ?_, fun k h1 h2 => ?_⟩
      · rw [set_video_ne _ _ (by omega), set_video_ne _ _ (by omega)]
        exact ht.rest i hi
      · rw [set_video_ne _ _ (by omega)]
        by_cases hk : k = 1920 + j
        · rw [hk, show 2 * (1920 + (j : ℤ)) = (24 * 80 + (j : ℤ)) * 2 by ring]
          exact set_video_same _ _ _
        · rw [set_video_ne _ _ (by omega)]
          exact ht.blank k h1 (by push_cast at h2; omega)
  simpa [blankLastRow] using hcells

theorem scroll_spec (c : Console) : Scrolled c c.scroll := by
  have hm := c.moveRows_spec
  have hb := c.moveRows.blankLastRow_spec
  unfold scroll
  generalize c.moveRows.blankLastRow = d at hb
  generalize c.moveRows = m at hm hb
  exact ⟨rfl, rfl, hb.same.color.trans hm.same.color, fun h => hb.onScreen (hm.onScreen h),
    fun i h0 h1 => (hb.rest i h1).trans (hm.moved i h0 h1), fun j h1 h2 => hb.blank j h1 (by omega)⟩

/-- Where the cursor may rest: row 25 is reached at the end of the last row only. -/
structure Resting (c : Console) : Prop where
  row : 0 ≤ c.cursorRow ∧ c.cursorRow ≤ 25
  col : 0 ≤ c.cursorCol ∧ c.cursorCol < 80
  last : c.cursorRow = 25 → c.cursorCol = 0

theorem advance_wrap {c : Console} (h : 80 ≤ c.cursorCol + 1) :
    c.advance = { c with cursorCol := 0, cursorRow := c.cursorRow + 1 } := if_pos h

theorem advance_col {c : Console} (h : ¬ 80 ≤ c.cursorCol + 1) :
    c.advance = { c with cursorCol := c.cursorCol + 1 } := if_neg h

@[simp] theorem advance_touched (c : Console) : c.advance.touched = c.touched := by
  unfold advance
  dsimp only
  split <;> rfl

@[simp] theorem advance_video (c : Console) : c.advance.video = c.video := by
  unfold advance
  dsimp only
  split <;> rfl

theorem Resting.advance {c : Console} (h : c.Resting) (hrow : c.cursorRow ≤ 24) :
    c.advance.Resting := by
  obtain ⟨⟨hr0, hr25⟩, ⟨hc0, hc80⟩, hlast⟩ := h
  by_cases hwrap : 80 ≤ c.cursorCol + 1
  · rw [advance_wrap hwrap]
    exact ⟨⟨by simp; omega, by simp; omega⟩, by simp, by simp⟩
  · rw [advance_col hwrap]
    exact ⟨⟨by simp; omega, by simp; omega⟩, by simp; omega, by simp; omega⟩

/-- Writing above row 25 keeps the cursor in its range and the accesses on the screen. -/
theorem Resting.put {c : Console} (h : c.Resting) (hrow : c.cursorRow ≤ 24) (ch : Byte) :
    (c.put ch).Resting ∧ (c.OnScreen → (c.put ch).OnScreen) := by
  obtain ⟨⟨hr0, hr25⟩, ⟨hc0, hc80⟩, hlast⟩ := h
  unfold Console.put
  split
  · exact ⟨⟨⟨by simp; omega, by simp; omega⟩, by simp, by simp⟩, id⟩
  · refine ⟨Resting.advance ⟨⟨hr0, hr25⟩, ⟨hc0, hc80⟩, hlast⟩ hrow, fun hon => ?_⟩
    have hcells : ((c.set ((c.cursorRow * 80 + c.cursorCol) * 2) ch).set
        ((c.cursorRow * 80 + c.cursorCol) * 2 + 1) c.color).OnScreen :=
      (hon.set (by omega) _).set (by omega) _
    simpa [OnScreen] using hcells

theorem Scrolled.resting {c c' : Console} (h : Scrolled c c') : c'.Resting :=
  ⟨by rw [h.row]; norm_num, by rw [h.col]; norm_num, by rw [h.row]; norm_num⟩

theorem Resting.printChar {c : Console} (h : c.Resting) (ch : Byte) :
    (c.printChar ch).Resting ∧ (c.OnScreen → (c.printChar ch).OnScreen) := by
  unfold Console.printChar
  split
  · have hs := c.scroll_spec
    obtain ⟨hrest, hon⟩ := hs.resting.put (by rw [hs.row]) ch
    exact ⟨hrest, fun hc => hon (hs.onScreen hc)⟩
  · exact h.put (by omega) ch

theorem clearScreen_spec (c : Console) :
    c.clearScreen.Resting ∧ (c.OnScreen → c.clearScreen.OnScreen) := by
  have hcells := loop_inv (fun _ t => c.OnScreen → t.OnScreen) (n := 25) (s := c)
    (f := fun row c => loop 80 (fun col c =>
      (c.set (((row : ℤ) * 80 + (col : ℤ)) * 2) (char ' ')).set
        (((row : ℤ) * 80 + (col : ℤ)) * 2 + 1) 0x07) c) id
    fun row t hrow ht => loop_inv (fun _ (u : Console) => c.OnScreen → u.OnScreen) ht
      fun col u hcol hu hc => ((hu hc).set (by omega) _).set (by omega) _
  unfold clearScreen
  generalize loop 25 _ c = d at hcells
  exact ⟨⟨by simp, by simp, by simp⟩, hcells⟩

/-! ### Sequences of operations -/

/-- What the keyboard handler, the timer and the shell do to the console. -/
inductive Op where
  | printChar (ch : Byte)
  | clearScreen
  | backspace (bufferPosition : ℕ)
  | cursorBlinker
deriving DecidableEq

/-- Perform one operation. -/
def step (c : Console) : Op → Console
  | .printChar ch => c.printChar ch
  | .clearScreen => c.clearScreen
  | .backspace n => c.backspace n
  | .cursorBlinker => c.cursorBlinker

/-- Perform a sequence of operations. -/
def run (c : Console) (ops : List Op) : Console := ops.foldl step c

@[simp] theorem run_nil (c : Console) : c.run [] = c := rfl

@[simp] theorem run_concat (c : Console) (ops : List Op) (op : Op) :
    c.run (ops ++ [op]) = (c.run ops).step op := by
  simp [run]

/-- The cursor is in its range and all accesses were on the screen. -/
structure InScreen (c : Console) : Prop where
  row : 0 ≤ c.cursorRow ∧ c.cursorRow ≤ 25
  col : 0 ≤ c.cursorCol ∧ c.cursorCol < 80
  onScreen : c.OnScreen

/-- The operations that look at the cell at the cursor or left of it need such a cell. -/
def Allowed (c : Console) : Op → Prop
  | .backspace _ => 1 ≤ c.cursorCol
  | .cursorBlinker => c.cursorRow ≤ 24
  | _ => True

/-- An allowed operation stays on the screen. -/
theorem Resting.step {c : Console} (h : c.Resting) (hon : c.OnScreen) {op : Op}
    (hop : c.Allowed op) : (c.step op).Resting ∧ (c.step op).OnScreen := by
  have hprint := h.printChar
  obtain ⟨⟨hr0, hr25⟩, ⟨hc0, hc80⟩, hlast⟩ := h
  cases op with
  | printChar ch => exact ⟨(hprint ch).1, (hprint ch).2 hon⟩
  | clearScreen => exact ⟨c.clearScreen_spec.1, c.clearScreen_spec.2 hon⟩
  | backspace n =>
      have hcol : 1 ≤ c.cursorCol := hop
      simp only [Console.step, Console.backspace]
      rw [if_neg (by omega)]
      split
      · refine ⟨⟨⟨hr0, hr25⟩, ⟨by simp; omega, by simp; omega⟩, fun he => ?_⟩,
          (hon.set (by omega) (char ' ')).set (by omega) (char ' ')⟩
        have := hlast he
        omega
      · exact ⟨⟨⟨hr0, hr25⟩, ⟨hc0, hc80⟩, hlast⟩, hon⟩
  | cursorBlinker =>
      have hrow : c.cursorRow ≤ 24 := hop
      have htouch : (c.touch ((c.cursorRow * 80 + c.cursorCol) * 2)).OnScreen :=
        hon.touch (by omega)
      simp only [Console.step, Console.cursorBlinker]
      split
      · exact ⟨⟨⟨hr0, hr25⟩, ⟨hc0, hc80⟩, hlast⟩,
          (htouch.set (by omega) 0xDB).set (by omega) 0x07⟩
      · exact ⟨⟨⟨hr0, hr25⟩, ⟨hc0, hc80⟩, hlast⟩, htouch.set (by omega) (char ' ')⟩

/-- Any other operation leaves the screen or its range of cursors at once. -/
theorem Resting.allowed_of_step {c : Console} (h : c.Resting) {op : Op}
    (hin : (c.step op).InScreen) : c.Allowed op := by
  obtain ⟨⟨hr0, hr25⟩, ⟨hc0, hc80⟩, hlast⟩ := h
  cases op with
  | printChar ch => trivial
  | clearScreen => trivial
  | backspace n =>
      show 1 ≤ c.cursorCol
      by_contra hcol
      have hrange := hin.col
      simp only [Console.step, Console.backspace] at hrange
      by_cases hn : 0 < n
      · rw [if_pos ⟨hn, by omega⟩] at hrange
        simp at hrange
      · rw [if_neg (by omega), if_pos (by omega)] at hrange
        simp at hrange
        omega
  | cursorBlinker =>
      show c.cursorRow ≤ 24
      by_contra hrow
      have hcol := hlast (by omega)
      have hmem : (c.cursorRow * 80 + c.cursorCol) * 2 ∈ (c.step .cursorBlinker).touched := by
        simp only [Console.step, Console.cursorBlinker]
        split <;> simp [Console.set, touch]
      have := hin.onScreen _ hmem
      omega

/-- Every state that the run passes through is in the screen. -/
def Stays (c : Console) (ops : List Op) : Prop := ∀ pre, pre <+: ops → (c.run pre).InScreen

/-- Every operation of the run is allowed where it is performed. -/
def RunAllowed (c : Console) (ops : List Op) : Prop :=
  ∀ pre op, pre ++ [op] <+: ops → (c.run pre).Allowed op

theorem Resting.run {c : Console} (h : c.Resting) (hon : c.OnScreen) (ops : List Op)
    (hall : c.RunAllowed ops) : (c.run ops).Resting ∧ (c.run ops).OnScreen := by
  induction ops using List.reverseRecOn with
  | nil => exact ⟨h, hon⟩
  | append_singleton ops op ih =>
      obtain ⟨hrest, hon'⟩ := ih fun pre o hpre => hall pre o (hpre.trans ⟨[op], rfl⟩)
      rw [run_concat]
      exact hrest.step hon' (hall ops op List.prefix_rfl)

theorem Resting.stays_iff {c : Console} (h : c.Resting) (hon : c.OnScreen) (ops : List Op) :
    c.Stays ops ↔ c.RunAllowed ops := by
  constructor
  · intro hstays pre op hpre
    -- the operations before `op` are allowed, by induction on their number
    induction hk : pre.length using Nat.strong_induction_on generalizing pre op with
    | _ k ih =>
        have hrun := h.run hon pre fun pre' op' hpre' =>
          ih pre'.length (by have := hpre'.length_le; simp at this; omega) pre' op'
            (hpre'.trans (List.IsPrefix.trans ⟨[op], rfl⟩ hpre)) rfl
        have hin := hstays _ hpre
        rw [run_concat] at hin
        exact hrun.1.allowed_of_step hin
  · intro hall pre hpre
    obtain ⟨hrest, hon'⟩ := h.run hon pre fun pre' op hpre' => hall pre' op (hpre'.trans hpre)
    exact ⟨hrest.row, hrest.col, hon'⟩

/-- The console after `clearScreen` and the prompt, whatever it was before. -/
def start (c : Console) : Console := ({ c with touched := [] } : Console).clearScreen.prompt

theorem Resting.print {c : Console} (h : c.Resting) (hon : c.OnScreen) (message : List Byte) :
    (c.print message).Resting ∧ (c.print message).OnScreen := by
  induction message generalizing c with
  | nil => exact ⟨h, hon⟩
  | cons ch rest ih => exact ih (h.printChar ch).1 ((h.printChar ch).2 hon)

theorem Resting.setColor {c : Console} (h : c.Resting) (color : Byte) :
    (c.setColor color).Resting := ⟨h.row, h.col, h.last⟩

theorem OnScreen.setColor {c : Console} (h : c.OnScreen) (color : Byte) :
    (c.setColor color).OnScreen := h

theorem Resting.prompt {c : Console} (h : c.Resting) (hon : c.OnScreen) :
    c.prompt.Resting ∧ c.prompt.OnScreen := by
  obtain ⟨hrest, hon'⟩ := (h.setColor 0x03).print (hon.setColor 0x03) promptText
  unfold Console.prompt
  exact ⟨hrest.setColor 0x0F, hon'.setColor 0x0F⟩

theorem start_spec (c : Console) : c.start.Resting ∧ c.start.OnScreen := by
  obtain ⟨hrest, hon⟩ := ({ c with touched := [] } : Console).clearScreen_spec
  have hempty : ({ c with touched := [] } : Console).OnScreen := by simp [OnScreen]
  unfold start
  generalize Console.clearScreen { c with touched := [] } = d at hrest hon
  exact hrest.prompt (hon hempty)

/-- For which sequences of operations the console stays in its screen. -/
theorem console_stays_iff (c : Console) (ops : List Op) :
    c.start.Stays ops ↔ c.start.RunAllowed ops :=
  c.start_spec.1.stays_iff c.start_spec.2 ops

/-- 69 characters after the prompt the cursor stands at the start of a row. -/
theorem console_leaves_screen :
    ¬ ∀ (c : Console) (ops : List Op), c.start.Stays ops := by
  intro hall
  have hallowed := (start_spec ⟨fun _ => 0, 0, 0, 0, []⟩).1.stays_iff
    (start_spec ⟨fun _ => 0, 0, 0, 0, []⟩).2
    (List.replicate 69 (.printChar (char 'a')) ++ [.backspace 69])
  have hback := hallowed.mp (hall _ _) _ _ List.prefix_rfl
  have hcol : ((start ⟨fun _ => 0, 0, 0, 0, []⟩).run
      (List.replicate 69 (.printChar (char 'a')))).cursorCol = 0 := by decide +kernel
  have hone : 1 ≤ ((start ⟨fun _ => 0, 0, 0, 0, []⟩).run
      (List.replicate 69 (.printChar (char 'a')))).cursorCol := hback
  omega

end Console

end RaxzusHeap
