import RaxzusHeap.Printer

/-! # Hexadecimal printing (`%x` and `int_to_hex_string`)

The digits are taken off the number from the right into a buffer of ten bytes and printed
from its end.  Zero has a path of its own, which prints a prefix that the formats of the
kernel bring along already.

* `hexLoop_spec`: the loop stores the numeral backwards.
* `intToHexString_spec`: what is printed.
* `hexValue_hexNumeral`: a numeral is read back.
* `hex_canonical_iff`: `%x` prints the numeral of its argument unless it is zero. -/

namespace RaxzusHeap

open Checked Format

/-- The upper-case hexadecimal numeral of a number. -/
def hexNumeral (n : ℕ) : List Byte := (Nat.toDigits 16 n).map fun c => char c.toUpper

/-- The digit a character stands for. -/
def hexDigitValue (c : Byte) : Option ℕ := hexTable.idxOf? c

/-- The number that hexadecimal digits stand for. -/
def hexValue (text : List Byte) : Option ℕ :=
  text.foldlM (fun n c => (hexDigitValue c).map fun d => n * 16 + d) 0

/-- What `int_to_hex_string` prints. -/
def hexText (value : BitVec 32) : List Byte :=
  if value = 0 then cstr "0x0" else hexNumeral value.toNat

/-! ### Numerals -/

/-- The character of a digit below sixteen. -/
def hexDigit (d : ℕ) : Byte := char d.digitChar.toUpper

theorem hexTable_digit {d : ℕ} (h : d < 16) : hexTable[d]? = some (hexDigit d) := by
  revert h
  revert d
  decide

theorem hexDigitValue_digit {d : ℕ} (h : d < 16) : hexDigitValue (hexDigit d) = some d := by
  revert h
  revert d
  decide

theorem hexNumeral_of_lt {n : ℕ} (h : n < 16) : hexNumeral n = [hexDigit n] := by
  rw [hexNumeral, Nat.toDigits_of_lt_base h, List.map_singleton, hexDigit]

theorem hexNumeral_of_ge {n : ℕ} (h : 16 ≤ n) :
    hexNumeral n = hexNumeral (n / 16) ++ [hexDigit (n % 16)] := by
  rw [hexNumeral, Nat.toDigits_of_base_le (by norm_num) h, List.map_append, List.map_singleton]
  rfl

theorem length_hexNumeral_le {n k : ℕ} (hk : 0 < k) : (hexNumeral n).length ≤ k ↔ n < 16 ^ k := by
  rw [hexNumeral, List.length_map, Nat.length_toDigits_le_iff (by norm_num) hk]

theorem length_hexNumeral_word (v : BitVec 32) : (hexNumeral v.toNat).length ≤ 8 :=
  (length_hexNumeral_le (by norm_num)).mpr v.isLt

theorem hexValue_concat (text : List Byte) (c : Byte) :
    hexValue (text ++ [c]) = (hexValue text).bind fun n =>
      (hexDigitValue c).map fun d => n * 16 + d := by
  rw [hexValue, List.foldlM_append]
  simp only [List.foldlM_cons, List.foldlM_nil, bind_pure]
  rfl

theorem hexValue_hexNumeral (n : ℕ) : hexValue (hexNumeral n) = some n := by
  induction n using Nat.strong_induction_on with
  | h n ih =>
      rcases Nat.lt_or_ge n 16 with hlt | hge
      · have hone := hexValue_concat [] (hexDigit n)
        rw [List.nil_append, hexDigitValue_digit hlt] at hone
        rw [hexNumeral_of_lt hlt, hone]
        simp [hexValue]
      · rw [hexNumeral_of_ge hge, hexValue_concat, ih (n / 16) (by omega),
          hexDigitValue_digit (Nat.mod_lt n (by norm_num)), Option.bind_some, Option.map_some,
          Nat.div_add_mod']

/-! ### The loops of `int_to_hex_string` -/

section Loops

variable {v : BitVec 32}

theorem toNat_and_fifteen (v : BitVec 32) : (v &&& 0xF).toNat = v.toNat % 16 := by
  rw [BitVec.toNat_and]
  exact Nat.and_two_pow_sub_one_eq_mod v.toNat 4

theorem toNat_shift_four (v : BitVec 32) : (v >>> 4).toNat = v.toNat / 16 := by
  rw [BitVec.toNat_ushiftRight, Nat.shiftRight_eq_div_pow]

/-- The loop stores the numeral backwards behind what was written before. -/
theorem hexLoop_spec (hv : v ≠ 0) (written : List Byte) (k : ℕ) :
    hexLoop (written.map some ++ List.replicate ((hexNumeral v.toNat).length + k) none)
        written.length v =
      some ((written ++ (hexNumeral v.toNat).reverse).map some ++ List.replicate k none,
        (written ++ (hexNumeral v.toNat).reverse).length) := by
  induction hn : v.toNat using Nat.strong_induction_on generalizing v written with
  | h n ih =>
      subst hn
      have hdigit : hexTable[(v &&& 0xF).toNat]? = some (hexDigit (v.toNat % 16)) := by
        rw [toNat_and_fifteen]
        exact hexTable_digit (Nat.mod_lt _ (by norm_num))
      have hwrite : ∀ m, write (written.map some ++ List.replicate (m + 1) none) written.length
          (some (hexDigit (v.toNat % 16))) =
            some ((written ++ [hexDigit (v.toNat % 16)]).map some ++ List.replicate m none) := by
        intro m
        rw [List.replicate_succ, write_append _ _ (by rw [List.length_map])]
        simp
      have hlen : (written ++ [hexDigit (v.toNat % 16)]).length = written.length + 1 := by simp
      rw [hexLoop, if_neg hv, hdigit, Option.bind_eq_bind, Option.bind_some]
      rcases Nat.lt_or_ge v.toNat 16 with hlt | hge
      · have hrest : v >>> 4 = 0 := BitVec.eq_of_toNat_eq (by
          rw [toNat_shift_four]
          exact Nat.div_eq_of_lt hlt)
        rw [hexNumeral_of_lt hlt, List.length_singleton, Nat.add_comm 1 k, hwrite,
          Option.bind_eq_bind, Option.bind_some, hrest, hexLoop, if_pos rfl, Nat.mod_eq_of_lt hlt,
          List.reverse_singleton, ← hlen, Nat.mod_eq_of_lt hlt]
      · have hne : v >>> 4 ≠ 0 := by
          intro h
          have hzero : (v >>> 4).toNat = 0 := by
            rw [h]
            rfl
          rw [toNat_shift_four] at hzero
          omega
        have hnext := ih (v >>> 4).toNat (by rw [toNat_shift_four]; omega) hne
          (written ++ [hexDigit (v.toNat % 16)]) rfl
        rw [toNat_shift_four, hlen] at hnext
        rw [hexNumeral_of_ge hge, List.length_append, List.length_singleton,
          Nat.add_right_comm _ 1 k, hwrite, Option.bind_eq_bind, Option.bind_some, hnext, List.reverse_append,
          List.reverse_singleton, List.append_assoc]

theorem emitLoop_spec (hex : BitVec 32 → Printer → Option Printer) (text : List Byte)
    (rest : List (Option Byte)) (p : Printer) :
    ∃ p', emitLoop (kprintfWith hex) (text.map some ++ rest) text.length p = some p' ∧
      p'.printed = p.printed ++ text.reverse := by
  induction text using List.reverseRecOn generalizing rest p with
  | nil => exact ⟨p, rfl, by simp⟩
  | append_singleton text c ih =>
      have hbuffer : (text ++ [c]).map some ++ rest = text.map some ++ some c :: rest := by simp
      have hcell : (text.map some ++ some c :: rest)[text.length]? = some (some c) := by simp
      obtain ⟨p', hrun, hprinted⟩ := ih (some c :: rest) ((p.printChar c).setColor 0x0F)
      refine ⟨p', ?_, ?_⟩
      · rw [List.length_append, List.length_singleton, hbuffer, emitLoop, hcell]
        simp only [Option.bind_eq_bind, Option.bind_some, kprintfWith_char, hrun]
      · rw [hprinted]
        simp

end Loops

/-- `int_to_hex_string` stays in its buffer; it prints the numeral, and zero with a prefix. -/
theorem intToHexString_spec (v : BitVec 32) (p : Printer) :
    ∃ p', intToHexString v p = some p' ∧ p'.printed = p.printed ++ hexText v := by
  rw [intToHexString_eq]
  unfold intToHexStringWith kprintf hexText
  by_cases hv : v = 0
  · refine ⟨(p.print (cstr "0x0")).setColor 0x0F, ?_, ?_⟩
    · rw [if_pos hv, kprintfWith_plain (by decide)]
      rfl
    · rw [if_pos hv]
      simp
  · obtain ⟨k, hk⟩ := Nat.exists_eq_add_of_le
      ((length_hexNumeral_word v).trans (by norm_num : 8 ≤ 10))
    have hloop := hexLoop_spec hv [] k
    rw [← hk, List.map_nil, List.nil_append, List.length_nil, List.nil_append] at hloop
    obtain ⟨p', hrun, hprinted⟩ := emitLoop_spec intToHexString
      (hexNumeral v.toNat).reverse (List.replicate k none) p
    refine ⟨p', ?_, ?_⟩
    · rw [if_neg hv, hloop]
      exact hrun
    · rw [if_neg hv, hprinted, List.reverse_reverse]

theorem directive_hex (args : ℕ → VaArg) (next : ℕ) (p : Printer) :
    ∃ p', directive intToHexString args (char 'x') next p = some (p', next + 1) ∧
      p'.printed = p.printed ++ hexText (args next).int := by
  obtain ⟨p', hrun, hprinted⟩ := intToHexString_spec (args next).int p
  refine ⟨p', ?_, hprinted⟩
  rw [directive, if_neg (by decide), if_neg (by decide), if_neg (by decide), if_pos rfl, hrun]
  rfl

theorem kprintf_hex (args : ℕ → VaArg) (p : Printer) :
    ∃ p', kprintf args (cstr "%x" ++ [0]) p = some (p', 1) ∧
      p'.printed = p.printed ++ hexText (args 0).int := by
  obtain ⟨p', hdirective, hprinted⟩ := directive_hex args 0 p
  have hpieces : pieces (char '%') (cstr "%x") = [.directive (char 'x')] := by decide
  refine ⟨p'.setColor 0x0F, ?_, hprinted⟩
  rw [kprintf, kprintfWith, formatLoop_eq (by decide), if_pos (by decide), hpieces, List.foldlM_cons,
    pieceStep, hdirective]
  rfl

/-- The text is the canonical numeral of the value: it has eight digits at most and is read back. -/
structure CanonicalHex (value : BitVec 32) (text : List Byte) : Prop where
  numeral : text = hexNumeral value.toNat
  short : text.length ≤ 8
  readBack : hexValue text = some value.toNat

theorem canonicalHex_numeral (v : BitVec 32) : CanonicalHex v (hexNumeral v.toNat) :=
  ⟨rfl, length_hexNumeral_word v, hexValue_hexNumeral v.toNat⟩

theorem not_canonicalHex_zero : ¬ CanonicalHex 0 (cstr "0x0") := fun h =>
  absurd h.numeral (by decide)

/-- `%x` takes one argument, stays inside the buffer of `int_to_hex_string` and prints the
canonical numeral of the argument exactly if the argument is not zero. -/
theorem hex_canonical_iff (args : ℕ → VaArg) (p : Printer) :
    (∃ p' text, kprintf args (cstr "%x" ++ [0]) p = some (p', 1) ∧
      p'.printed = p.printed ++ text ∧ CanonicalHex (args 0).int text) ↔ (args 0).int ≠ 0 := by
  obtain ⟨p', hrun, hprinted⟩ := kprintf_hex args p
  constructor
  · rintro ⟨p'', text, hrun', hprinted', hcanon⟩ hzero
    rw [hrun] at hrun'
    cases hrun'
    rw [hprinted, hzero] at hprinted'
    have htext := List.append_cancel_left hprinted'
    rw [← htext, hzero] at hcanon
    exact not_canonicalHex_zero hcanon
  · intro hne
    refine ⟨p', hexNumeral (args 0).int.toNat, hrun, ?_, canonicalHex_numeral _⟩
    rw [hprinted, hexText, if_neg hne]

/-- The argument 0 everywhere. -/
def zeroArg : ℕ → VaArg := fun _ => ⟨[], 0, 0⟩

/-- `kprintf("0x%x", 0)` prints a second prefix, which is no literal. -/
theorem hex_zero_prefixed_twice :
    ∃ p', kprintf zeroArg (cstr "0x%x" ++ [0]) .start = some (p', 1) ∧
      p'.printed = cstr "0x0x0" ∧ hexValue (cstr "0x0") = none ∧
      ¬ CanonicalHex 0 (cstr "0x0") := by
  obtain ⟨p', hdirective, hprinted⟩ :=
    directive_hex zeroArg 0 ((Printer.start.printChar (char '0')).printChar (char 'x'))
  have hpieces : pieces (char '%') (cstr "0x%x") =
      [.literal (char '0'), .literal (char 'x'), .directive (char 'x')] := by decide
  refine ⟨p'.setColor 0x0F, ?_, ?_, by decide, not_canonicalHex_zero⟩
  · rw [kprintf, kprintfWith, formatLoop_eq (by decide), if_pos (by decide), hpieces]
    simp only [List.foldlM_cons, List.foldlM_nil, pieceStep, Option.bind_eq_bind, Option.bind_some,
      hdirective]
    rfl
  · have htext : hexText (zeroArg 0).int = cstr "0x0" := if_pos rfl
    rw [Printer.printed_setColor, hprinted, htext]
    decide

end RaxzusHeap
