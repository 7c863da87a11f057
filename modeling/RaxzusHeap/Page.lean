import RaxzusHeap.CommandLine

/-! # The console as a window of a page (`vga.c`)

A `Page` has rows without end; a newline goes to the next row, any other character is stored
at the cursor, and nothing ever moves.  The console shows 25 rows of it: `Window p c k` says
that the screen starts at row `k` of the page, which is 0 until the page outgrows the screen.
A pending scroll moves the window down by one row (`Window.scroll`), everything else happens at
the same place of both (`Window.put`). -/

namespace RaxzusHeap

open Imperative

/-- An unbounded page of rows of 80 characters, and its cursor. -/
structure Page where
  cell : ℕ → ℕ → Byte
  row : ℕ
  col : ℕ

namespace Page

/-- The empty page. -/
def blank : Page := ⟨fun _ _ => char ' ', 0, 0⟩

/-- A newline moves the cursor to the next row; any other character is stored, and the cursor
goes on to the next row behind column 79. -/
def printChar (p : Page) (ch : Byte) : Page :=
  if ch = char '\n' then { p with row := p.row + 1, col := 0 }
  else
    { cell := fun r c => if r = p.row ∧ c = p.col then ch else p.cell r c
      row := if p.col = 79 then p.row + 1 else p.row
      col := if p.col = 79 then 0 else p.col + 1 }

def print (p : Page) (message : List Byte) : Page := message.foldl printChar p

end Page

namespace Console

/-- The screen shows the page from row `k` on, with the cursor at the same place. -/
structure Window (p : Page) (c : Console) (k : ℕ) : Prop where
  resting : c.Resting
  row : (p.row : ℤ) = c.cursorRow + k
  col : c.cursorCol = p.col
  top : 0 < k → 24 ≤ c.cursorRow
  cells : ∀ r < 25, ∀ j < 80, c.cell ((80 * r + j : ℕ) : ℤ) = p.cell (k + r) j
  blank : ∀ r j, p.row < r ∨ (r = p.row ∧ p.col ≤ j) → p.cell r j = char ' '

theorem Window.scroll {p : Page} {c : Console} {k : ℕ} (h : Window p c k)
    (hrow : c.cursorRow = 25) : Window p c.scroll (k + 1) := by
  have hs := c.scroll_spec
  have hcol := h.resting.last hrow
  have hprow := h.row
  refine ⟨hs.resting, ?_, ?_, fun _ => by rw [hs.row], fun r hr j hj => ?_, h.blank⟩
  · rw [hs.row]
    push_cast
    omega
  · rw [hs.col, ← h.col, hcol]
  · rcases Nat.lt_or_ge r 24 with hlt | hge
    · have hcell := h.cells (r + 1) (by omega) j hj
      rw [show k + 1 + r = k + (r + 1) by omega, ← hcell, cell, hs.moved _ (by omega) (by omega),
        cell]
      congr 1
      push_cast
      ring
    · -- the row that the scroll blanks has not been written yet
      rw [h.blank _ _ (.inr ⟨by omega, by have := h.col; omega⟩)]
      exact hs.blank _ (by omega) (by omega)

/-- Above row 25 a character goes to the same place of the screen and of the page. -/
theorem Window.put {p : Page} {c : Console} {k : ℕ} (h : Window p c k) (hrow : c.cursorRow ≤ 24)
    (ch : Byte) : Window (p.printChar ch) (c.put ch) k := by
  have hrest := (h.resting.put hrow ch).1
  obtain ⟨⟨hr0, hr25⟩, ⟨hc0, hc80⟩, hlast⟩ := h.resting
  have hprow := h.row
  have hpcol := h.col
  by_cases hnl : ch = char '\n'
  · have hput : c.put ch = { c with cursorRow := c.cursorRow + 1, cursorCol := 0 } := if_pos hnl
    have hprint : p.printChar ch = { p with row := p.row + 1, col := 0 } := if_pos hnl
    rw [hput] at hrest ⊢
    rw [hprint]
    refine ⟨hrest, ?_, rfl, fun hk => ?_, h.cells, fun r j hj => h.blank r j ?_⟩
    · dsimp only
      push_cast
      omega
    · have := h.top hk
      dsimp only
      omega
    · dsimp only at hj
      omega
  · have hcell : ∀ r < 25, ∀ j < 80, (c.put ch).cell ((80 * r + j : ℕ) : ℤ) =
        (p.printChar ch).cell (k + r) j := by
      intro r hr j hj
      rw [put_cell _ hnl, Page.printChar, if_neg hnl, h.cells r hr j hj]
      dsimp only
      by_cases hat : k + r = p.row ∧ j = p.col
      · rw [if_pos hat, if_pos]
        unfold pos
        push_cast
        omega
      · rw [if_neg hat, if_neg]
        unfold pos
        push_cast
        omega
    have hput : c.put ch = ((c.set ((c.cursorRow * 80 + c.cursorCol) * 2) ch).set
        ((c.cursorRow * 80 + c.cursorCol) * 2 + 1) c.color).advance := if_neg hnl
    have hblank : ∀ r j, p.row < r ∨ (r = p.row ∧ p.col < j) →
        (p.printChar ch).cell r j = char ' ' := by
      intro r j hj
      rw [Page.printChar, if_neg hnl]
      dsimp only
      rw [if_neg (by omega)]
      exact h.blank r j (by omega)
    have hprow' : (p.printChar ch).row = if p.col = 79 then p.row + 1 else p.row := by
      rw [Page.printChar, if_neg hnl]
    have hpcol' : (p.printChar ch).col = if p.col = 79 then 0 else p.col + 1 := by
      rw [Page.printChar, if_neg hnl]
    by_cases hwrap : p.col = 79
    · rw [if_pos hwrap] at hprow' hpcol'
      rw [advance_wrap (by simp only [set_cursorCol]; omega)] at hput
      refine ⟨hrest, ?_, ?_, fun hk => ?_, hcell, fun r j hj => hblank r j ?_⟩
      · rw [hput, hprow']
        simp only [set_cursorRow]
        push_cast
        omega
      · rw [hput, hpcol']
        rfl
      · have := h.top hk
        rw [hput]
        simp only [set_cursorRow]
        omega
      · rw [hprow', hpcol'] at hj
        omega
    · rw [if_neg hwrap] at hprow' hpcol'
      rw [advance_col (by simp only [set_cursorCol]; omega)] at hput
      refine ⟨hrest, ?_, ?_, fun hk => ?_, hcell, fun r j hj => hblank r j ?_⟩
      · rw [hput, hprow']
        exact hprow
      · rw [hput, hpcol']
        simp only [set_cursorCol]
        push_cast
        omega
      · rw [hput]
        exact h.top hk
      · rw [hprow', hpcol'] at hj
        omega

theorem Window.printChar {p : Page} {c : Console} {k : ℕ} (h : Window p c k) (ch : Byte) :
    ∃ k', Window (p.printChar ch) (c.printChar ch) k' := by
  have hrow := h.resting.row
  unfold Console.printChar
  by_cases hlast : 25 ≤ c.cursorRow
  · rw [if_pos hlast]
    exact ⟨k + 1, (h.scroll (by omega)).put (by rw [c.scroll_spec.row]) ch⟩
  · rw [if_neg hlast]
    exact ⟨k, h.put (by omega) ch⟩

theorem Window.print {p : Page} {c : Console} {k : ℕ} (h : Window p c k) (message : List Byte) :
    ∃ k', Window (p.print message) (c.print message) k' := by
  induction message generalizing p c k with
  | nil => exact ⟨k, h⟩
  | cons ch rest ih =>
      obtain ⟨k₁, h₁⟩ := h.printChar ch
      exact ih h₁

theorem clearScreen_cell (c : Console) {j : ℕ} (hj : j < 2000) : c.clearScreen.cell j = char ' ' := by
  have hcells := loop_inv (fun row (t : Console) => ∀ j : ℕ, j < 80 * row → t.cell j = char ' ')
    (n := 25) (s := c)
    (f := fun row c => loop 80 (fun col c =>
      (c.set (((row : ℤ) * 80 + (col : ℤ)) * 2) (char ' ')).set
        (((row : ℤ) * 80 + (col : ℤ)) * 2 + 1) 0x07) c) (fun j hj => absurd hj (by omega))
    fun row t hrow ht => loop_inv
      (fun col (u : Console) => ∀ j : ℕ, j < 80 * row + col → u.cell j = char ' ') ht
      fun col u hcol hu j hj => by
        rw [cell, set_video_ne _ _ (by omega)]
        by_cases hlast : j = 80 * row + col
        · rw [show 2 * (j : ℤ) = ((row : ℤ) * 80 + (col : ℤ)) * 2 by rw [hlast]; push_cast; ring]
          exact set_video_same _ _ _
        · rw [set_video_ne _ _ (by omega)]
          exact hu j (by omega)
  unfold clearScreen
  generalize loop 25 _ c = d at hcells
  exact hcells j (by omega)

theorem clearScreen_window (c : Console) : Window .blank c.clearScreen 0 := by
  refine ⟨c.clearScreen_spec.1, ?_, ?_, fun h => absurd h (lt_irrefl 0),
    fun r hr j hj => c.clearScreen_cell (by omega), fun _ _ _ => rfl⟩
  · unfold clearScreen
    generalize loop 25 _ c = d
    rfl
  · unfold clearScreen
    generalize loop 25 _ c = d
    rfl

/-- After `clearScreen` the console shows a window of the page: the cursor stands in the same
column, in the same row until the page has outgrown the screen and in one of the last two from
then on, and every cell of the screen is the cell of the page as far from the cursor. -/
theorem console_shows_page (c : Console) (message : List Byte) :
    (c.clearScreen.print message).cursorCol = (Page.blank.print message).col ∧
    ((Page.blank.print message).row ≤ 24 →
      (c.clearScreen.print message).cursorRow = (Page.blank.print message).row) ∧
    (24 < (Page.blank.print message).row →
      (c.clearScreen.print message).cursorRow = 24 ∨
        (c.clearScreen.print message).cursorRow = 25) ∧
    ∀ r < 25, ∀ j < 80, (c.clearScreen.print message).video (2 * (80 * (r : ℕ) + (j : ℕ))) =
      (Page.blank.print message).cell ((Page.blank.print message).row -
        (c.clearScreen.print message).cursorRow.toNat + r) j := by
  obtain ⟨k, h⟩ := c.clearScreen_window.print message
  have hrow := h.row
  have hrange := h.resting.row
  have htop := h.top
  refine ⟨h.col, fun hle => ?_, fun hgt => ?_, fun r hr j hj => ?_⟩
  · rcases Nat.eq_zero_or_pos k with rfl | hk
    · omega
    · have := htop hk
      omega
  · rcases Nat.eq_zero_or_pos k with rfl | hk
    · omega
    · have := htop hk
      omega
  · have hcell := h.cells r hr j hj
    rw [show (Page.blank.print message).row - (c.clearScreen.print message).cursorRow.toNat = k by
      omega, ← hcell, cell]
    push_cast
    rfl

end Console

end RaxzusHeap
