import Mathlib

/-! # Format strings

A format is a text with directives: a mark and the character behind it.  `pieces` cuts a text
into directives and characters that stand for themselves, from left to right; a mark in last
position opens a directive that never comes.

* `scan_induction`: induction along the cut.
* `Closed`: no directive stays open, as the number of marks at the end of the text is even
  (`closed_literal`, `closed_directive`).
* `spell_pieces`: the pieces spell the text they were cut from. -/

namespace Format

variable {α : Type}

/-- A character that stands for itself, or the character of a directive. -/
inductive Piece (α : Type) where
  | literal (c : α)
  | directive (d : α)
deriving DecidableEq, Repr

/-- The text of a piece. -/
def Piece.text (mark : α) : Piece α → List α
  | literal c => [c]
  | directive d => [mark, d]

/-- The text that pieces spell. -/
def spell (mark : α) (ps : List (Piece α)) : List α := ps.flatMap (Piece.text mark)

variable [DecidableEq α] {mark c d : α} {text rest : List α}

/-- The pieces of a text. -/
def pieces (mark : α) : List α → List (Piece α)
  | [] => []
  | [c] => if c = mark then [] else [.literal c]
  | c :: d :: rest =>
      if c = mark then .directive d :: pieces mark rest else .literal c :: pieces mark (d :: rest)

/-- The number of marks at the end of a text. -/
def marksAtEnd (mark : α) (text : List α) : ℕ := (text.rtakeWhile (· = mark)).length

/-- No directive is left open at the end of the text. -/
def Closed (mark : α) (text : List α) : Prop := Even (marksAtEnd mark text)

instance : Decidable (Closed mark text) := inferInstanceAs (Decidable (Even _))

/-! ### The cut -/

@[simp] theorem pieces_nil : pieces mark [] = [] := rfl

@[simp] theorem pieces_open : pieces mark [mark] = [] := if_pos rfl

theorem pieces_literal (h : c ≠ mark) (text : List α) :
    pieces mark (c :: text) = .literal c :: pieces mark text := by
  cases text with
  | nil => exact if_neg h
  | cons d rest => exact if_neg h

@[simp] theorem pieces_directive (d : α) (rest : List α) :
    pieces mark (mark :: d :: rest) = .directive d :: pieces mark rest := if_pos rfl

/-- A text is empty, a single mark, begins with a literal or begins with a directive. -/
theorem scan_induction {motive : List α → Prop} (mark : α) (empty : motive []) (single : motive [mark])
    (literal : ∀ c text, c ≠ mark → motive text → motive (c :: text))
    (directive : ∀ d rest, motive rest → motive (mark :: d :: rest)) (text : List α) :
    motive text := by
  induction text using pieces.induct mark with
  | case1 => exact empty
  | case2 => exact single
  | case3 c hc => exact literal c [] hc empty
  | case4 d rest ih => exact directive d rest ih
  | case5 c d rest hc ih => exact literal c (d :: rest) hc ih

/-! ### The end of a text -/

@[simp] theorem marksAtEnd_nil : marksAtEnd mark [] = 0 := by simp [marksAtEnd]

theorem marksAtEnd_concat (mark c : α) (text : List α) :
    marksAtEnd mark (text ++ [c]) = if c = mark then marksAtEnd mark text + 1 else 0 := by
  unfold marksAtEnd
  rw [List.rtakeWhile_concat]
  by_cases h : c = mark <;> simp [h]

theorem marksAtEnd_literal (h : c ≠ mark) (text : List α) :
    marksAtEnd mark (c :: text) = marksAtEnd mark text := by
  induction text using List.reverseRecOn with
  | nil => simpa [h] using marksAtEnd_concat mark c []
  | append_singleton text x ih =>
      rw [← List.cons_append, marksAtEnd_concat, marksAtEnd_concat, ih]

/-- A directive in front adds two marks or none. -/
theorem even_marksAtEnd_directive (d : α) (rest : List α) :
    Even (marksAtEnd mark (mark :: d :: rest)) ↔ Even (marksAtEnd mark rest) := by
  induction rest using List.reverseRecOn with
  | nil =>
      have hone : marksAtEnd mark [mark] = 1 := by simpa using marksAtEnd_concat mark mark []
      have htwo := marksAtEnd_concat mark d [mark]
      rw [hone] at htwo
      rw [show [mark, d] = [mark] ++ [d] from rfl, htwo]
      by_cases h : d = mark <;> simp [h]
  | append_singleton rest x ih =>
      rw [← List.cons_append, ← List.cons_append, marksAtEnd_concat, marksAtEnd_concat]
      by_cases h : x = mark
      · rw [if_pos h, if_pos h, Nat.even_add_one, Nat.even_add_one, ih]
      · rw [if_neg h, if_neg h]

theorem closed_nil : Closed mark [] := by simp [Closed]

theorem not_closed_open : ¬ Closed mark [mark] := by
  have hone : marksAtEnd mark [mark] = 1 := by simpa using marksAtEnd_concat mark mark []
  simp [Closed, hone]

theorem closed_literal (h : c ≠ mark) : Closed mark (c :: text) ↔ Closed mark text := by
  rw [Closed, Closed, marksAtEnd_literal h]

theorem closed_directive : Closed mark (mark :: d :: rest) ↔ Closed mark rest :=
  even_marksAtEnd_directive d rest

/-- The pieces spell the text, but for a mark that is left open. -/
theorem spell_pieces (mark : α) (text : List α) :
    spell mark (pieces mark text) ++ (if Closed mark text then [] else [mark]) = text := by
  induction text using scan_induction mark with
  | empty =>
      rw [if_pos closed_nil]
      rfl
  | single =>
      rw [if_neg not_closed_open, pieces_open]
      rfl
  | literal c text hc ih =>
      rw [pieces_literal hc, spell, List.flatMap_cons, List.append_assoc]
      simp only [closed_literal hc]
      exact congrArg (c :: ·) ih
  | directive d rest ih =>
      rw [pieces_directive, spell, List.flatMap_cons, List.append_assoc]
      simp only [closed_directive]
      exact congrArg (mark :: d :: ·) ih

/-- A character that stands for itself is not the mark. -/
theorem ne_of_literal_mem (h : .literal c ∈ pieces mark text) : c ≠ mark := by
  induction text using scan_induction mark with
  | empty => cases h
  | single =>
      rw [pieces_open] at h
      cases h
  | literal x text hx ih =>
      rw [pieces_literal hx, List.mem_cons] at h
      rcases h with h | h
      · cases h
        exact hx
      · exact ih h
  | directive x rest ih =>
      rw [pieces_directive, List.mem_cons] at h
      rcases h with h | h
      · cases h
      · exact ih h

end Format
