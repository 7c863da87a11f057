import RaxzusHeap.Hexadecimal

/-! # What `kprintf` does with a format

The test for the end of the format stands at the head of the loop, and a percent sign makes
the loop step over the character behind it, whatever it is.

* `foldlM_pieceStep`: the pieces of a format are printed in order, each directive of `%s`,
  `%c`, `%d`, `%x` and `%f` takes one argument, any other piece none.
* `kprintf_exact_iff`: so it goes for a format in memory exactly if the number of percent signs
  at its end is even; otherwise the loop steps over the NUL. -/

namespace RaxzusHeap

open Checked Format

/-- What a directive prints of its argument. -/
def directiveText (d : Byte) (a : VaArg) : List Byte :=
  if d = char 's' then a.string
  else if d = char 'c' then [a.int.setWidth 8]
  else if d = char 'd' then cstr (toString a.int.toInt)
  else if d = char 'x' then hexText a.int
  else if d = char 'f' then cText (doubleText a.double)
  else []

/-- The pieces that take an argument. -/
def takesArgument : Piece Byte → Bool
  | .literal _ => false
  | .directive d => decide (d ∈ [char 's', char 'c', char 'd', char 'x', char 'f'])

/-- What the pieces of a format print, from argument `next` on. -/
def output (args : ℕ → VaArg) : List (Piece Byte) → ℕ → List Byte
  | [], _ => []
  | .literal c :: ps, next => c :: output args ps next
  | .directive d :: ps, next =>
      directiveText d (args next) ++
        output args ps (if takesArgument (.directive d) then next + 1 else next)

/-- `kprintf` reads no character behind the NUL, prints every character outside directives once
and in order, and takes one argument for each directive that has one. -/
def PrintsExactly (fmt : List Byte) (args : ℕ → VaArg) (p : Printer) : Prop :=
  ∃ p' ps, kprintf args (fmt ++ [0]) p = some (p', ps.countP takesArgument) ∧
    spell (char '%') ps = fmt ∧ (∀ c, .literal c ∈ ps → c ≠ char '%') ∧
    p'.printed = p.printed ++ output args ps 0

/-! ### One directive -/

section Directive

variable {args : ℕ → VaArg} {d : Byte} {next : ℕ}

theorem asBuffer_of_length {n : ℕ} {b : List Byte} (h : b.length = n) :
    ∃ v, asBuffer n b = some v := ⟨_, dif_pos h⟩

theorem cText_append_nul (text suf : List Byte) : cText (text ++ 0 :: suf) = cText text := by
  induction text with
  | nil => simp [cText]
  | cons c text ih =>
      unfold cText at ih ⊢
      rw [List.cons_append, List.takeWhile_cons, List.takeWhile_cons, ih]

theorem Printer.callIntToString_spec (p : Printer) (v : BitVec 32) :
    ∃ p', p.callIntToString v.toInt = some (p', cstr (toString v.toInt)) ∧
      p'.printed = p.printed := by
  obtain ⟨b, hrun, hlen, htext⟩ := intToString_spec p.intString v
  obtain ⟨string, hstring⟩ := asBuffer_of_length hlen
  refine ⟨{ p with intString := string }, ?_, rfl⟩
  rw [callIntToString, hrun, Option.bind_eq_bind, Option.bind_some, hstring, htext]
  rfl

theorem Printer.callDoubleToString_spec (p : Printer) (v : Float) :
    ∃ p', p.callDoubleToString v = some (p', cText (doubleText v)) ∧ p'.printed = p.printed := by
  obtain ⟨b, suf, hrun, hlen, htext⟩ := doubleToString_spec p.doubleString v
  obtain ⟨string, hstring⟩ := asBuffer_of_length hlen
  refine ⟨{ p with doubleString := string }, ?_, rfl⟩
  rw [callDoubleToString, hrun, Option.bind_eq_bind, Option.bind_some, hstring, htext,
    cText_append_nul]
  rfl

/-- A directive prints its text and takes its argument. -/
theorem directive_spec (args : ℕ → VaArg) (d : Byte) (next : ℕ) (p : Printer) :
    ∃ p', directive intToHexString args d next p =
        some (p', if takesArgument (.directive d) then next + 1 else next) ∧
      p'.printed = p.printed ++ directiveText d (args next) := by
  by_cases hs : d = char 's'
  · subst hs
    exact ⟨_, rfl, p.printed_print _⟩
  by_cases hc : d = char 'c'
  · subst hc
    exact ⟨_, rfl, p.printed_printChar _⟩
  by_cases hd : d = char 'd'
  · subst hd
    obtain ⟨p', hrun, hprinted⟩ := p.callIntToString_spec (args next).int
    refine ⟨p'.print (cstr (toString (args next).int.toInt)), ?_, ?_⟩
    · rw [directive, if_neg hs, if_neg hc, if_pos rfl, hrun]
      rfl
    · rw [Printer.printed_print, hprinted]
      rfl
  by_cases hx : d = char 'x'
  · subst hx
    exact directive_hex args next p
  by_cases hf : d = char 'f'
  · subst hf
    obtain ⟨p', hrun, hprinted⟩ := p.callDoubleToString_spec (args next).double
    refine ⟨p'.print (cText (doubleText (args next).double)), ?_, ?_⟩
    · rw [directive, if_neg hs, if_neg hc, if_neg hd, if_neg hx, if_pos rfl, hrun]
      rfl
    · rw [Printer.printed_print, hprinted]
      rfl
  -- any other character is skipped
  have hother : takesArgument (.directive d) = false := by
    simp [takesArgument, hs, hc, hd, hx, hf]
  refine ⟨p, ?_, ?_⟩
  · rw [directive, if_neg hs, if_neg hc, if_neg hd, if_neg hx, if_neg hf, hother]
    rfl
  · rw [directiveText, if_neg hs, if_neg hc, if_neg hd, if_neg hx, if_neg hf, List.append_nil]

end Directive

/-! ### The whole format -/

/-- The pieces are printed in order, and their arguments are taken in order. -/
theorem foldlM_pieceStep (args : ℕ → VaArg) (ps : List (Piece Byte)) (next : ℕ) (p : Printer) :
    ∃ p', ps.foldlM (pieceStep intToHexString args) (p, next) =
        some (p', next + ps.countP takesArgument) ∧
      p'.printed = p.printed ++ output args ps next := by
  induction ps generalizing next p with
  | nil => exact ⟨p, rfl, by simp [output]⟩
  | cons piece ps ih =>
      cases piece with
      | literal c =>
          obtain ⟨p', hrun, hprinted⟩ := ih next (p.printChar c)
          refine ⟨p', ?_, ?_⟩
          · rw [List.foldlM_cons, pieceStep, Option.bind_eq_bind, Option.bind_some, hrun,
              List.countP_cons_of_neg (by simp [takesArgument])]
          · rw [hprinted, output]
            simp
      | directive d =>
          obtain ⟨p₁, hstep, hprinted₁⟩ := directive_spec args d next p
          obtain ⟨p', hrun, hprinted⟩ :=
            ih (if takesArgument (.directive d) then next + 1 else next) p₁
          refine ⟨p', ?_, ?_⟩
          · rw [List.foldlM_cons, pieceStep, hstep, Option.bind_eq_bind, Option.bind_some, hrun,
              List.countP_cons]
            split_ifs
            · rw [Nat.add_right_comm, Nat.add_assoc]
            · rfl
          · rw [hprinted, hprinted₁, output, List.append_assoc]

section Format

variable {fmt : List Byte}

theorem kprintf_open (hfmt : ∀ c ∈ fmt, c ≠ 0) (hopen : ¬ Closed (char '%') fmt)
    (args : ℕ → VaArg) (p : Printer) : kprintf args (fmt ++ [0]) p = none := by
  rw [kprintf, kprintfWith, formatLoop_eq hfmt, if_neg hopen]
  rfl

theorem kprintf_closed (hfmt : ∀ c ∈ fmt, c ≠ 0) (hclosed : Closed (char '%') fmt)
    (args : ℕ → VaArg) (p : Printer) : PrintsExactly fmt args p := by
  obtain ⟨p', hrun, hprinted⟩ := foldlM_pieceStep args (pieces (char '%') fmt) 0 p
  have hspell := spell_pieces (char '%') fmt
  rw [if_pos hclosed, List.append_nil] at hspell
  refine ⟨p'.setColor 0x0F, pieces (char '%') fmt, ?_, hspell, fun c => ne_of_literal_mem, hprinted⟩
  rw [Nat.zero_add] at hrun
  rw [kprintf, kprintfWith, formatLoop_eq hfmt, if_pos hclosed, hrun]
  rfl

/-- `kprintf` stops at the end of its format and prints it exactly if the number of percent
signs at the end of the format is even. -/
theorem kprintf_exact_iff (hfmt : ∀ c ∈ fmt, c ≠ 0) (args : ℕ → VaArg) (p : Printer) :
    PrintsExactly fmt args p ↔ Even (marksAtEnd (char '%') fmt) := by
  constructor
  · rintro ⟨p', ps, hrun, -⟩
    by_contra hopen
    rw [kprintf_open hfmt hopen] at hrun
    cases hrun
  · exact fun hclosed => kprintf_closed hfmt hclosed args p

end Format

/-- In `"%d%%"` the last percent sign is the character of a directive. -/
theorem kprintf_exact_percent : PrintsExactly (cstr "%d%%") zeroArg .start :=
  (kprintf_exact_iff (by decide) zeroArg .start).mpr (by decide)

/-- `kprintf("100%")` reads on behind the NUL. -/
theorem kprintf_percent_overruns : kprintf zeroArg (cstr "100%" ++ [0]) .start = none ∧
    ¬ PrintsExactly (cstr "100%") zeroArg .start := by
  have hnone : kprintf zeroArg (cstr "100%" ++ [0]) .start = none :=
    kprintf_open (by decide) (by decide) zeroArg .start
  refine ⟨hnone, ?_⟩
  rintro ⟨p', ps, hrun, -⟩
  rw [hnone] at hrun
  cases hrun

end RaxzusHeap
