import RaxzusHeap.Decimal

/-! # Printing of doubles (`double_to_string` in `vga.c`)

The integer part is printed as `int_to_string` prints a number, then a point and up to six
digits of the fraction, in a static buffer of 64 bytes.  Doubles are those of the machine and
of Lean's `Float`; which digits they give is not reasoned about.  A `long long` below zero
comes from a number out of its range and prints no digit.

`doubleToString_spec`: whatever the buffer held, the text is that of the number and its NUL
stands inside the buffer. -/

namespace RaxzusHeap

open Checked

/-- The sign: the buffer, the next free position and the absolute value. -/
def putMinus (string : List Byte) (value : Float) : Option (List Byte × ℕ × Float) :=
  if value < 0 then do
    let string ← write string 0 (char '-')
    some (string, 1, -value)
  else some (string, 0, value)

/-- The integer part from `string[i]` on. -/
def putInteger (string : List Byte) (i : ℕ) (intPart : ℤ) : Option (List Byte × ℕ) :=
  if intPart = 0 then do
    let string ← write string i (char '0')
    some (string, i + 1)
  else do
    let (string, j) ← digitLoop string i intPart
    let string ← reverseLoop string i (j - 1)
    some (string, j)

/-- `while (decimal_places > 0 && frac_part > 0)`. -/
def fractionLoop : ℕ → List Byte → ℕ → Float → Option (List Byte × ℕ)
  | 0, string, i, _ => some (string, i)
  | decimalPlaces + 1, string, i, fracPart =>
      if 0 < fracPart then do
        let fracPart := fracPart * 10
        let digit := fracPart.toInt32.toInt
        let string ← write string i (BitVec.ofInt 8 (48 + digit))
        fractionLoop decimalPlaces string (i + 1) (fracPart - Float.ofInt digit)
      else some (string, i)

/-- The point, the fraction and the NUL from `string[i]` on. -/
def putFraction (string : List Byte) (i : ℕ) (fracPart : Float) : Option (List Byte) := do
  let string ← write string i (char '.')
  let (string, j) ← fractionLoop 6 string (i + 1) fracPart
  let last ← string[j - 1]?
  if last = char '.' then do
    let string ← write string j (char '0')
    write string (j + 1) 0
  else write string j 0

/-- The number behind the sign. -/
def putAbsolute (string : List Byte) (i : ℕ) (value : Float) : Option (List Byte) :=
  if value == 0.0 then writeText string i (cstr "0.0" ++ [0])
  else do
    let intPart := value.toInt64.toInt
    let (string, j) ← putInteger string i intPart
    putFraction string j (value - Float.ofInt intPart)

/-- `double_to_string`, where `string` is what the buffer holds from the last call. -/
def doubleToString (string : List Byte) (value : Float) : Option (List Byte) := do
  let (string, i, value) ← putMinus string value
  putAbsolute string i value

/-! ### The texts -/

/-- The digits of an integer part. -/
def integerText (intPart : ℤ) : List Byte := if intPart < 0 then [] else digits intPart.toNat

/-- The digits of a fraction. -/
def fractionText : ℕ → Float → List Byte
  | 0, _ => []
  | decimalPlaces + 1, fracPart =>
      if 0 < fracPart then
        let fracPart := fracPart * 10
        let digit := fracPart.toInt32.toInt
        BitVec.ofInt 8 (48 + digit) :: fractionText decimalPlaces (fracPart - Float.ofInt digit)
      else []

/-- The point and the digits behind it, of which there is one at least. -/
def pointText (fracPart : Float) : List Byte :=
  let text := char '.' :: fractionText 6 fracPart
  if text.getLast? = some (char '.') then text ++ [char '0'] else text

/-- The text of a number without its sign. -/
def absoluteText (value : Float) : List Byte :=
  if value == 0.0 then cstr "0.0"
  else
    let intPart := value.toInt64.toInt
    integerText intPart ++ pointText (value - Float.ofInt intPart)

/-- The text of a double. -/
def doubleText (value : Float) : List Byte :=
  if value < 0 then char '-' :: absoluteText (-value) else absoluteText value

/-! ### The loops -/

theorem length_integerText {z : ℤ} (h : z < 2 ^ 63) : (integerText z).length ≤ 19 := by
  unfold integerText
  split_ifs with hneg
  · exact Nat.zero_le _
  · exact (length_digits_le (by norm_num)).mpr (by omega)

theorem length_fractionText (n : ℕ) (frac : Float) : (fractionText n frac).length ≤ n := by
  induction n generalizing frac with
  | zero => exact le_rfl
  | succ n ih =>
      rw [fractionText]
      split_ifs with hpos
      · exact Nat.succ_le_succ (ih _)
      · exact Nat.zero_le _

theorem exists_split {α : Type} {rest : List α} {n : ℕ} (h : n ≤ rest.length) :
    ∃ old suf, rest = old ++ suf ∧ old.length = n :=
  ⟨rest.take n, rest.drop n, (List.take_append_drop n rest).symm, by
    rw [List.length_take]
    omega⟩

/-- The digits of the integer part stand behind what was there before. -/
theorem putInteger_spec {z : ℤ} (pre rest : List Byte) (hfit : (integerText z).length < rest.length) :
    ∃ suf, putInteger (pre ++ rest) pre.length z =
        some (pre ++ integerText z ++ suf, (pre ++ integerText z).length) ∧
      (integerText z).length + suf.length = rest.length := by
  obtain ⟨old, suf, rfl, hold⟩ := exists_split hfit.le
  refine ⟨suf, ?_, by rw [List.length_append, hold]⟩
  unfold putInteger
  rcases Int.lt_trichotomy z 0 with hneg | rfl | hpos
  · have hnil : integerText z = [] := if_pos hneg
    rw [hnil, List.length_nil] at hold
    obtain rfl := List.eq_nil_of_length_eq_zero hold
    have hdigits : digitLoop (pre ++ ([] ++ suf)) pre.length z = some (pre ++ suf, pre.length) := by
      rw [digitLoop, if_neg (by omega), List.nil_append]
    have hreverse : reverseLoop (pre ++ suf) pre.length (pre.length - 1) = some (pre ++ suf) := by
      rw [reverseLoop, if_neg (by omega)]
    simp only [if_neg hneg.ne, hdigits, hreverse, hnil, List.append_nil, Option.bind_eq_bind,
      Option.bind_some]
  · have hzero : integerText 0 = [char '0'] := by decide
    rw [hzero, List.length_singleton] at hold
    obtain ⟨x, rfl⟩ := List.length_eq_one_iff.mp hold
    rw [if_pos rfl, List.singleton_append, write_append _ _ rfl, hzero]
    simp
  · obtain ⟨n, rfl⟩ : ∃ n : ℕ, z = n := ⟨z.toNat, by omega⟩
    have htext : integerText n = digits n := by
      rw [integerText, if_neg (by omega), Int.toNat_natCast]
    have hn : 0 < n := by exact_mod_cast hpos
    rw [htext] at hold ⊢
    have hreverse := reverseLoop_spec pre (digits n).reverse suf (by simpa using digits_ne_nil n)
    rw [List.length_reverse, List.reverse_reverse] at hreverse
    rw [if_neg (by exact_mod_cast hn.ne'), digitLoop_spec hn pre old suf hold]
    simp only [Option.bind_eq_bind, Option.bind_some, hreverse]
    simp

/-- The digits of the fraction stand behind what was there before. -/
theorem fractionLoop_spec (n : ℕ) (frac : Float) (pre rest : List Byte) (hfit : n ≤ rest.length) :
    ∃ suf, fractionLoop n (pre ++ rest) pre.length frac =
        some (pre ++ fractionText n frac ++ suf, (pre ++ fractionText n frac).length) ∧
      (fractionText n frac).length + suf.length = rest.length := by
  induction n generalizing frac pre rest with
  | zero => exact ⟨rest, by simp [fractionLoop, fractionText], by simp [fractionText]⟩
  | succ n ih =>
      rw [fractionLoop, fractionText]
      split_ifs with hpos
      · dsimp only
        obtain ⟨x, rest, rfl⟩ : ∃ x t, rest = x :: t :=
          List.exists_cons_of_length_pos (by omega)
        rw [List.length_cons] at hfit
        set digit := BitVec.ofInt 8 (48 + (frac * 10).toInt32.toInt) with hdigit
        obtain ⟨suf, hrun, hsize⟩ := ih (frac * 10 - Float.ofInt (frac * 10).toInt32.toInt)
          (pre ++ [digit]) rest (by omega)
        rw [List.length_append, List.length_singleton, List.append_assoc, List.singleton_append]
          at hrun
        refine ⟨suf, ?_, ?_⟩
        · rw [write_append _ _ rfl, Option.bind_eq_bind, Option.bind_some, hrun]
          simp
        · rw [List.length_cons, List.length_cons]
          omega
      · exact ⟨rest, by simp, by simp⟩

/-! ### `double_to_string` -/

/-- Point, fraction and NUL stand behind what was there before. -/
theorem putFraction_spec (frac : Float) (pre rest : List Byte) (hfit : 9 ≤ rest.length) :
    ∃ suf, putFraction (pre ++ rest) pre.length frac = some (pre ++ (pointText frac ++ 0 :: suf)) ∧
      (pointText frac).length + 1 + suf.length = rest.length := by
  obtain ⟨x, rest, rfl⟩ : ∃ x t, rest = x :: t := List.exists_cons_of_length_pos (by omega)
  rw [List.length_cons] at hfit
  obtain ⟨suf, hrun, hsize⟩ := fractionLoop_spec 6 frac (pre ++ [char '.']) rest (by omega)
  rw [List.length_append, List.length_singleton, List.append_assoc, List.singleton_append] at hrun
  have hlen := length_fractionText 6 frac
  obtain ⟨y, z, suf, rfl⟩ : ∃ y z t, suf = y :: z :: t := by
    obtain ⟨y, t, rfl⟩ : ∃ y t, suf = y :: t := List.exists_cons_of_length_pos (by omega)
    rw [List.length_cons] at hsize
    obtain ⟨z, t, rfl⟩ : ∃ z t', t = z :: t' := List.exists_cons_of_length_pos (by omega)
    exact ⟨y, z, t, rfl⟩
  set text := char '.' :: fractionText 6 frac with htext
  have hpre : pre ++ [char '.'] ++ fractionText 6 frac = pre ++ text := by simp [htext]
  rw [hpre] at hrun
  have hpos : 0 < (pre ++ text).length := by simp [htext]
  have hlast : (pre ++ text ++ y :: z :: suf)[(pre ++ text).length - 1]? = text.getLast? := by
    rw [List.getElem?_append_left (by omega), ← List.getLast?_eq_getElem?,
      List.getLast?_append_of_ne_nil _ (by simp [htext])]
  obtain ⟨last, hsome⟩ : ∃ last, text.getLast? = some last := by
    rw [← Option.isSome_iff_exists]
    simp [htext]
  unfold putFraction
  rw [write_append _ _ rfl]
  simp only [Option.bind_eq_bind, Option.bind_some, hrun, hlast, hsome, pointText, ← htext,
    Option.some.injEq]
  have htextLen : text.length = (fractionText 6 frac).length + 1 := rfl
  simp only [List.length_cons] at hsize
  split_ifs with hpoint
  · refine ⟨suf, ?_, ?_⟩
    · rw [write_append _ _ rfl, Option.bind_some]
      have hend : write ((pre ++ text ++ [char '0']) ++ z :: suf) ((pre ++ text).length + 1) 0 =
          some ((pre ++ text ++ [char '0']) ++ 0 :: suf) := write_append z 0 (by
          simp only [List.length_append, List.length_singleton])
      simpa using hend
    · simp
      omega
  · refine ⟨z :: suf, ?_, ?_⟩
    · rw [write_append _ _ rfl]
      simp
    · simp
      omega

/-- The number behind the sign. -/
theorem putAbsolute_spec (value : Float) (pre rest : List Byte) (hfit : 28 ≤ rest.length) :
    ∃ suf, putAbsolute (pre ++ rest) pre.length value =
        some (pre ++ (absoluteText value ++ 0 :: suf)) ∧
      (absoluteText value).length + 1 + suf.length = rest.length := by
  unfold putAbsolute absoluteText
  split_ifs with hzero
  · have hfour : (cstr "0.0" ++ [0]).length = 4 := by decide
    obtain ⟨old, suf, rfl, hold⟩ := exists_split (show (cstr "0.0" ++ [0]).length ≤ rest.length by omega)
    refine ⟨suf, ?_, ?_⟩
    · rw [writeText_spec pre old suf (cstr "0.0" ++ [0]) hold]
      simp
    · rw [List.length_append, hold]
      rfl
  · dsimp only
    have hint := length_integerText value.toInt64.toInt_lt
    obtain ⟨suf, hrun, hsize⟩ := putInteger_spec (z := value.toInt64.toInt) pre rest (by omega)
    obtain ⟨suf', hrun', hsize'⟩ := putFraction_spec (value - Float.ofInt value.toInt64.toInt)
      (pre ++ integerText value.toInt64.toInt) suf (by omega)
    refine ⟨suf', ?_, ?_⟩
    · simp only [hrun, Option.bind_eq_bind, Option.bind_some, hrun']
      simp
    · simp only [List.length_append]
      omega

/-- The buffer holds the text of the number and its NUL. -/
theorem doubleToString_spec (string : Vector Byte 64) (value : Float) :
    ∃ b suf, doubleToString string.toList value = some b ∧ b.length = 64 ∧
      b = doubleText value ++ 0 :: suf := by
  have hlen : string.toList.length = 64 := by simp
  generalize string.toList = string at hlen
  obtain ⟨x, rest, rfl⟩ : ∃ x t, string = x :: t := List.exists_cons_of_length_pos (by omega)
  rw [List.length_cons] at hlen
  unfold doubleToString putMinus doubleText
  split_ifs with hneg
  · obtain ⟨suf, hrun, hsize⟩ := putAbsolute_spec (-value) [char '-'] rest (by omega)
    have hwrite : write (x :: rest) 0 (char '-') = some (char '-' :: rest) :=
      @write_append _ [] rest x (char '-') 0 rfl
    refine ⟨_, suf, ?_, ?_, rfl⟩
    · rw [hwrite]
      exact hrun
    · simp
      omega
  · obtain ⟨suf, hrun, hsize⟩ := putAbsolute_spec value [] (x :: rest) (by
      rw [List.length_cons]
      omega)
    rw [List.length_cons] at hsize
    refine ⟨_, suf, hrun, ?_, rfl⟩
    simp
    omega

end RaxzusHeap
