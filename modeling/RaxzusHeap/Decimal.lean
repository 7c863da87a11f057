import RaxzusHeap.Lib.Checked
import RaxzusHeap.Numbers

/-! # Decimal printing (`int_to_string` in `vga.c`) and parsing (`string_to_int` in `kutils.c`)

`int_to_string` takes the digits off the number from the right, stores them behind an optional
sign in a static buffer of 12 bytes and reverses them there.  The embedding is checked: it
gives `none` where the source would write outside the buffer or leave the range of `int`.

* `digitLoop_spec`: the division loop stores the numeral backwards.
* `reverseLoop_spec`: the swaps reverse the part of the buffer they are given.
* `intToString_spec`: the buffer holds the numeral of the number.
* `parse_digits`: the Horner loop reads a numeral back. -/

namespace RaxzusHeap

open Checked

/-! ### `int_to_string` -/

/-- `while (value > 0) { string[i++] = (value % 10) + '0'; value /= 10; }` -/
def digitLoop (string : List Byte) (i : ℕ) (value : ℤ) : Option (List Byte × ℕ) :=
  if 0 < value then do
    let string ← write string i (BitVec.ofInt 8 (value.tmod 10 + 48))
    digitLoop string (i + 1) (value.tdiv 10)
  else some (string, i)
termination_by value.toNat
decreasing_by
  rw [Int.tdiv_eq_ediv_of_nonneg (by omega)]
  omega

/-- The swaps between `start_pos` and `end_pos`. -/
def reverseLoop (string : List Byte) (startPos endPos : ℕ) : Option (List Byte) :=
  if startPos < endPos then do
    let temp ← string[startPos]?
    let last ← string[endPos]?
    let string ← write string startPos last
    let string ← write string endPos temp
    reverseLoop string (startPos + 1) (endPos - 1)
  else some string
termination_by endPos - startPos

/-- Stores of the characters of a text from `string[i]` on. -/
def writeText (string : List Byte) (i : ℕ) : List Byte → Option (List Byte)
  | [] => some string
  | c :: text => do
      let string ← write string i c
      writeText string (i + 1) text

/-- The sign: the buffer, the next free position and the absolute value. -/
def putSign (string : List Byte) (value : ℤ) : Option (List Byte × ℕ × ℤ) :=
  if value < 0 then do
    let value ← signed 31 (-value)
    let string ← write string 0 (char '-')
    some (string, 1, value)
  else some (string, 0, value)

/-- The digits and the NUL from `string[i]` on. -/
def putDigits (string : List Byte) (i : ℕ) (value : ℤ) : Option (List Byte) :=
  if value = 0 then do
    let string ← write string i (char '0')
    write string (i + 1) 0
  else do
    let (string, j) ← digitLoop string i value
    let string ← write string j 0
    reverseLoop string i (j - 1)

/-- `int_to_string`, where `string` is what the buffer holds from the last call. -/
def intToString (string : List Byte) (value : ℤ) : Option (List Byte) :=
  if value = -2147483648 then writeText string 0 (cstr "-2147483648" ++ [0])
  else do
    let (string, i, value) ← putSign string value
    putDigits string i value

/-- The C string in a buffer. -/
def cText (buffer : List Byte) : List Byte := buffer.takeWhile (· ≠ 0)

/-- `string_to_int`, checked for overflow. -/
def parseInt (input : List Byte) : Option ℤ :=
  input.foldlM (fun result c => do
    let digit ← signed 31 (c.toInt - 48)
    let product ← signed 31 (result * 10)
    signed 31 (product + digit)) 0

/-! ### Numerals -/

/-- The decimal numeral of a natural number. -/
def digits (n : ℕ) : List Byte := (Nat.toDigits 10 n).map char

theorem char_digitChar {d : ℕ} (h : d < 10) : char d.digitChar = BitVec.ofNat 8 (d + 48) := by
  revert h
  revert d
  decide

theorem digits_of_lt {n : ℕ} (h : n < 10) : digits n = [BitVec.ofNat 8 (n + 48)] := by
  rw [digits, Nat.toDigits_of_lt_base h, List.map_singleton, char_digitChar h]

theorem digits_of_ge {n : ℕ} (h : 10 ≤ n) :
    digits n = digits (n / 10) ++ [BitVec.ofNat 8 (n % 10 + 48)] := by
  rw [digits, Nat.toDigits_of_base_le (by norm_num) h, List.map_append, List.map_singleton,
    char_digitChar (Nat.mod_lt n (by norm_num))]
  rfl

theorem length_digits_le {n k : ℕ} (hk : 0 < k) : (digits n).length ≤ k ↔ n < 10 ^ k := by
  rw [digits, List.length_map, Nat.length_toDigits_le_iff (by norm_num) hk]

theorem digits_ne_nil (n : ℕ) : digits n ≠ [] := by simp [digits]

theorem isDigit_ofNat {d : ℕ} (h : d < 10) : IsDigit (BitVec.ofNat 8 (d + 48)) := by
  unfold IsDigit
  rw [BitVec.toNat_ofNat, Nat.mod_eq_of_lt (by omega)]
  omega

theorem isDigit_of_mem_digits {n : ℕ} {c : Byte} (h : c ∈ digits n) : IsDigit c := by
  induction n using Nat.strong_induction_on with
  | h n ih =>
      rcases Nat.lt_or_ge n 10 with hlt | hge
      · rw [digits_of_lt hlt, List.mem_singleton] at h
        rw [h]
        exact isDigit_ofNat hlt
      · rw [digits_of_ge hge, List.mem_append, List.mem_singleton] at h
        rcases h with h | rfl
        · exact ih _ (by omega) h
        · exact isDigit_ofNat (Nat.mod_lt n (by norm_num))

theorem IsDigit.ne_zero {c : Byte} (h : IsDigit c) : c ≠ 0 := by
  rintro rfl
  exact absurd h (by decide)

/-! ### The loops of `int_to_string` -/

/-- The division loop stores the numeral backwards. -/
theorem digitLoop_spec {n : ℕ} (hn : 0 < n) (pre old suf : List Byte)
    (hold : old.length = (digits n).length) :
    digitLoop (pre ++ (old ++ suf)) pre.length n =
      some (pre ++ ((digits n).reverse ++ suf), pre.length + (digits n).length) := by
  induction n using Nat.strong_induction_on generalizing pre old with
  | h n ih =>
      obtain ⟨c, old, rfl⟩ : ∃ c t, old = c :: t :=
        List.exists_cons_of_ne_nil fun hnil => digits_ne_nil n
          (List.eq_nil_of_length_eq_zero (by rw [← hold, hnil]; rfl))
      have hdigit : BitVec.ofInt 8 ((n : ℤ).tmod 10 + 48) = BitVec.ofNat 8 (n % 10 + 48) := by
        rw [Int.tmod_eq_emod_of_nonneg (by omega)]
        exact BitVec.ofInt_natCast 8 (n % 10 + 48)
      have hquot : (n : ℤ).tdiv 10 = ((n / 10 : ℕ) : ℤ) := by
        rw [Int.tdiv_eq_ediv_of_nonneg (by omega)]
        rfl
      rw [digitLoop, if_pos (by exact_mod_cast hn), List.cons_append, write_append _ _ rfl,
        hdigit, hquot, Option.bind_eq_bind, Option.bind_some]
      rcases Nat.lt_or_ge n 10 with hlt | hge
      · rw [digits_of_lt hlt] at hold ⊢
        have hnil : old = [] := List.eq_nil_of_length_eq_zero (by simpa using hold)
        rw [digitLoop, if_neg (by omega), hnil, Nat.mod_eq_of_lt hlt]
        rfl
      · rw [digits_of_ge hge] at hold ⊢
        have hlen : old.length = (digits (n / 10)).length := by simpa using hold
        have hrest := ih (n / 10) (by omega) (by omega) (pre ++ [BitVec.ofNat 8 (n % 10 + 48)]) old
          hlen
        rw [List.append_assoc, List.singleton_append, List.length_append, List.length_singleton]
          at hrest
        rw [hrest]
        simp
        omega

/-- The swaps reverse the part of the buffer between the two positions. -/
theorem reverseLoop_spec (pre mid suf : List Byte) (hmid : mid ≠ []) :
    reverseLoop (pre ++ (mid ++ suf)) pre.length (pre.length + mid.length - 1) =
      some (pre ++ (mid.reverse ++ suf)) := by
  induction mid using List.bidirectionalRec generalizing pre suf with
  | nil => exact absurd rfl hmid
  | singleton a =>
      rw [reverseLoop, if_neg (by simp)]
      rfl
  | cons_append a mid b ih =>
      have hswap : pre ++ ((a :: (mid ++ [b])) ++ suf) = pre ++ a :: (mid ++ b :: suf) := by simp
      have hlast : (pre ++ a :: (mid ++ b :: suf))[pre.length + mid.length + 1]? = some b := by
        rw [List.getElem?_append_right (by omega),
          show pre.length + mid.length + 1 - pre.length = mid.length + 1 by omega,
          List.getElem?_cons_succ, List.getElem?_append_right le_rfl, Nat.sub_self]
        rfl
      have hfirst : (pre ++ a :: (mid ++ b :: suf))[pre.length]? = some a := by simp
      have hwrite : write (pre ++ b :: (mid ++ b :: suf)) (pre.length + mid.length + 1) a =
          some (pre ++ b :: (mid ++ a :: suf)) := by
        have hat : write ((pre ++ b :: mid) ++ b :: suf) (pre.length + mid.length + 1) a =
            some ((pre ++ b :: mid) ++ a :: suf) := write_append b a (by simp; omega)
        simpa using hat
      rw [show pre.length + (a :: (mid ++ [b])).length - 1 = pre.length + mid.length + 1 by
        simp; omega, hswap, reverseLoop, if_pos (by omega), hfirst, hlast]
      simp only [Option.bind_eq_bind, Option.bind_some]
      rw [write_append _ _ rfl, Option.bind_some, hwrite, Option.bind_some, Nat.add_sub_cancel]
      by_cases hnil : mid = []
      · subst hnil
        rw [reverseLoop, if_neg (by simp)]
        rfl
      · have hrest := ih (pre ++ [b]) (a :: suf) hnil
        have hpos := List.length_pos_iff.mpr hnil
        rw [List.length_append, List.length_singleton, List.append_assoc, List.singleton_append,
          show pre.length + 1 + mid.length - 1 = pre.length + mid.length by omega] at hrest
        rw [hrest]
        simp

/-! ### `int_to_string` -/

theorem cText_append {text : List Byte} (suf : List Byte) (h : ∀ c ∈ text, c ≠ 0) :
    cText (text ++ 0 :: suf) = text := by
  unfold cText
  rw [List.takeWhile_append_of_pos (by simpa using h)]
  simp

theorem cstr_append (s t : String) : cstr (s ++ t) = cstr s ++ cstr t := by simp [cstr]

theorem cstr_natCast (n : ℕ) : cstr (toString (n : ℤ)) = digits n := by
  rw [Int.toString_eq_repr, Int.repr_eq_if, if_pos (by omega), Int.toNat_natCast, cstr,
    Nat.toList_repr, digits]

theorem cstr_negSucc {n : ℕ} (h : 0 < n) : cstr (toString (-(n : ℤ))) = char '-' :: digits n := by
  have hdigits : cstr n.repr = digits n := by rw [cstr, Nat.toList_repr, digits]
  rw [Int.toString_eq_repr, Int.repr_eq_if, if_neg (by omega), neg_neg, Int.toNat_natCast,
    cstr_append, hdigits]
  rfl

/-- The numeral and its NUL stand behind the sign. -/
theorem putDigits_spec (n : ℕ) (pre rest : List Byte) (hfit : (digits n).length < rest.length) :
    ∃ suf, putDigits (pre ++ rest) pre.length n = some (pre ++ (digits n ++ 0 :: suf)) ∧
      (digits n).length + 1 + suf.length = rest.length := by
  obtain ⟨old, c, suf, rfl, hold⟩ : ∃ old c suf, rest = old ++ c :: suf ∧
      old.length = (digits n).length := by
    refine ⟨rest.take (digits n).length, rest[(digits n).length], rest.drop ((digits n).length + 1),
      ?_, by rw [List.length_take]; omega⟩
    rw [List.getElem_cons_drop, List.take_append_drop]
  refine ⟨suf, ?_, by
    rw [List.length_append, List.length_cons]
    omega⟩
  have hwrite : ∀ text : List Byte, text.length = (digits n).length →
      write (pre ++ (text ++ c :: suf)) (pre.length + (digits n).length) 0 =
        some (pre ++ (text ++ 0 :: suf)) := fun text htext => by
    have hat : write ((pre ++ text) ++ c :: suf) (pre.length + (digits n).length) 0 =
        some ((pre ++ text) ++ 0 :: suf) := write_append c 0 (by simp [htext])
    simpa using hat
  unfold putDigits
  rcases Nat.eq_zero_or_pos n with rfl | hn
  · have hzero : digits 0 = [char '0'] := by decide
    rw [hzero, List.length_singleton] at hold hwrite
    obtain ⟨x, rfl⟩ := List.length_eq_one_iff.mp hold
    rw [if_pos (by rfl), List.singleton_append, write_append _ _ rfl, Option.bind_eq_bind,
      Option.bind_some, hzero]
    exact hwrite [char '0'] rfl
  · have hreverse := reverseLoop_spec pre (digits n).reverse (0 :: suf)
      (by simpa using digits_ne_nil n)
    rw [List.length_reverse, List.reverse_reverse] at hreverse
    rw [if_neg (by exact_mod_cast hn.ne'), digitLoop_spec hn pre old (c :: suf) hold]
    simp only [Option.bind_eq_bind, Option.bind_some]
    rw [hwrite _ (by simp), Option.bind_some, hreverse]

theorem writeText_spec (pre old suf text : List Byte) (h : old.length = text.length) :
    writeText (pre ++ (old ++ suf)) pre.length text = some (pre ++ (text ++ suf)) := by
  induction text generalizing pre old with
  | nil =>
      rw [List.eq_nil_of_length_eq_zero h]
      rfl
  | cons c text ih =>
      obtain ⟨x, old, rfl⟩ : ∃ x t, old = x :: t :=
        List.exists_cons_of_ne_nil fun hnil => by simp [hnil] at h
      have hrest := ih (pre ++ [c]) old (by simpa using h)
      rw [List.length_append, List.length_singleton, List.append_assoc, List.singleton_append]
        at hrest
      rw [writeText, List.cons_append, write_append _ _ rfl, Option.bind_eq_bind, Option.bind_some,
        hrest]
      simp

theorem ne_zero_of_mem_digits {n : ℕ} {c : Byte} (h : c ∈ digits n) : c ≠ 0 :=
  (isDigit_of_mem_digits h).ne_zero

theorem putSign_neg {n : ℕ} (h0 : 0 < n) (h : n < 2 ^ 31) (x : Byte) (rest : List Byte) :
    putSign (x :: rest) (-(n : ℤ)) = some (char '-' :: rest, 1, (n : ℤ)) := by
  have hwrite : write (x :: rest) 0 (char '-') = some (char '-' :: rest) :=
    @write_append _ [] rest x (char '-') 0 rfl
  rw [putSign, if_pos (by omega), neg_neg, signed_of_range (by omega) (by omega),
    Option.bind_eq_bind, Option.bind_some, hwrite]
  rfl

theorem putSign_natCast (string : List Byte) (n : ℕ) :
    putSign string n = some (string, 0, (n : ℤ)) := if_neg (by omega)

theorem length_digits_lt {n : ℕ} (h : n < 2 ^ 31) : (digits n).length < 11 :=
  Nat.lt_succ_of_le ((length_digits_le (by norm_num)).mpr (by omega))

/-- The buffer holds the numeral of the number. -/
theorem intToString_spec (string : Vector Byte 12) (v : BitVec 32) :
    ∃ b, intToString string.toList v.toInt = some b ∧ b.length = 12 ∧
      cText b = cstr (toString v.toInt) := by
  have hlen : string.toList.length = 12 := by simp
  generalize string.toList = string at hlen
  have hlo := v.le_two_mul_toInt
  have hhi := v.two_mul_toInt_lt
  generalize v.toInt = z at hlo hhi
  obtain ⟨x, rest, rfl⟩ : ∃ x t, string = x :: t :=
    List.exists_cons_of_ne_nil fun hnil => by simp [hnil] at hlen
  rw [List.length_cons] at hlen
  unfold intToString
  by_cases hmin : z = -2147483648
  · have htext := writeText_spec [] (x :: rest) [] (cstr "-2147483648" ++ [0]) (by
      rw [List.length_cons]
      exact hlen)
    simp only [List.nil_append, List.append_nil, List.length_nil] at htext
    rw [if_pos hmin]
    refine ⟨_, htext, by decide, ?_⟩
    rw [cText_append [] (by decide), hmin]
    decide
  rw [if_neg hmin]
  by_cases hneg : z < 0
  · obtain ⟨n, rfl⟩ : ∃ n : ℕ, z = -(n : ℤ) := ⟨(-z).toNat, by omega⟩
    have hfit := length_digits_lt (n := n) (by omega)
    obtain ⟨suf, hrun, hsize⟩ := putDigits_spec n [char '-'] rest (by omega)
    refine ⟨char '-' :: (digits n ++ 0 :: suf), ?_, by simp; omega, ?_⟩
    · rw [putSign_neg (by omega) (by omega)]
      exact hrun
    · rw [cstr_negSucc (by omega)]
      refine @cText_append (char '-' :: digits n) suf fun c hc => ?_
      rcases List.mem_cons.mp hc with rfl | hc
      · decide
      · exact ne_zero_of_mem_digits hc
  · obtain ⟨n, rfl⟩ : ∃ n : ℕ, z = n := ⟨z.toNat, by omega⟩
    have hfit := length_digits_lt (n := n) (by omega)
    obtain ⟨suf, hrun, hsize⟩ := putDigits_spec n [] (x :: rest) (by rw [List.length_cons]; omega)
    refine ⟨digits n ++ 0 :: suf, ?_, by simp at hsize ⊢; omega, ?_⟩
    · rw [putSign_natCast]
      exact hrun
    · rw [cstr_natCast]
      exact cText_append suf fun c hc => ne_zero_of_mem_digits hc

/-! ### `string_to_int` -/

theorem parseInt_concat (str : List Byte) (c : Byte) :
    parseInt (str ++ [c]) = (do
      let result ← parseInt str
      let digit ← signed 31 (c.toInt - 48)
      let product ← signed 31 (result * 10)
      signed 31 (product + digit)) := by
  rw [parseInt, List.foldlM_append]
  simp only [List.foldlM_cons, List.foldlM_nil, bind_pure]
  rfl

theorem eq_of_signed {w : ℕ} {z y : ℤ} (h : signed w z = some y) : z = y := by
  unfold signed at h
  split at h
  · exact Option.some.inj h
  · cases h

theorem signExtend_sub (c : Byte) : c.signExtend 32 - 48 = BitVec.ofInt 32 (c.toInt - 48) := by
  revert c
  decide +kernel

/-- What `string_to_int` computes without overflow is what it returns. -/
theorem stringToInt_of_parseInt {str : List Byte} {z : ℤ} (h : parseInt str = some z) :
    stringToInt str = BitVec.ofInt 32 z := by
  induction str using List.reverseRecOn generalizing z with
  | nil =>
      cases h
      rfl
  | append_singleton str c ih =>
      simp only [parseInt_concat, Option.bind_eq_bind, Option.bind_eq_some_iff] at h
      obtain ⟨result, hresult, digit, hdigit, product, hproduct, hsum⟩ := h
      rw [stringToInt_concat, ih hresult, ← eq_of_signed hsum, ← eq_of_signed hproduct,
        ← eq_of_signed hdigit, signExtend_sub, BitVec.ofInt_add, BitVec.ofInt_mul]
      rfl

theorem toInt_digit {d : ℕ} (h : d < 10) : (BitVec.ofNat 8 (d + 48)).toInt - 48 = d := by
  rw [BitVec.toInt_eq_toNat_of_lt] <;> rw [BitVec.toNat_ofNat, Nat.mod_eq_of_lt (by omega)] <;> omega

theorem parseInt_digit {str : List Byte} {m d : ℕ} (hstr : parseInt str = some (m : ℤ)) (hd : d < 10)
    (hlt : m * 10 + d < 2 ^ 31) :
    parseInt (str ++ [BitVec.ofNat 8 (d + 48)]) = some ((m * 10 + d : ℕ) : ℤ) := by
  have hdigit : signed 31 (d : ℤ) = some (d : ℤ) := signed_of_range (by omega) (by omega)
  have hproduct : signed 31 ((m : ℤ) * 10) = some ((m : ℤ) * 10) :=
    signed_of_range (by omega) (by omega)
  have hsum : signed 31 ((m : ℤ) * 10 + d) = some ((m * 10 + d : ℕ) : ℤ) := by
    rw [signed_of_range (by omega) (by omega)]
    push_cast
    rfl
  rw [parseInt_concat, hstr, toInt_digit hd, hdigit]
  rw [Option.bind_eq_bind, Option.bind_some, Option.bind_some, hproduct, Option.bind_some, hsum]

theorem parse_digits {n : ℕ} (h : n < 2 ^ 31) : parseInt (digits n) = some (n : ℤ) := by
  induction n using Nat.strong_induction_on with
  | h n ih =>
      rcases Nat.lt_or_ge n 10 with hlt | hge
      · have hempty : parseInt [] = some ((0 : ℕ) : ℤ) := rfl
        have hone := parseInt_digit hempty hlt (by omega)
        rwa [Nat.zero_mul, Nat.zero_add, List.nil_append, ← digits_of_lt hlt] at hone
      · have hsplit := parseInt_digit (ih (n / 10) (by omega) (by omega))
          (Nat.mod_lt n (by norm_num)) (by omega)
        rwa [Nat.div_add_mod', ← digits_of_ge hge] at hsplit

/-- `int_to_string` writes the canonical numeral, inside its buffer and without overflow, and
`string_to_int` reads the numeral of a number that is not negative back. -/
theorem intToString_roundTrip (string : Vector Byte 12) (v : BitVec 32) :
    ∃ b, intToString string.toList v.toInt = some b ∧ cText b = cstr (toString v.toInt) ∧
      (0 ≤ v.toInt → isValidNumber (cText b) = true ∧ parseInt (cText b) = some v.toInt ∧
        stringToInt (cText b) = v) := by
  obtain ⟨b, hb, -, htext⟩ := intToString_spec string v
  refine ⟨b, hb, htext, fun h0 => ?_⟩
  obtain ⟨n, hn⟩ : ∃ n : ℕ, v.toInt = n := ⟨v.toInt.toNat, by omega⟩
  have hhi := v.two_mul_toInt_lt
  have hparse := parse_digits (n := n) (by omega)
  rw [htext, hn, cstr_natCast]
  refine ⟨(isValidNumber_iff _).mpr fun c => isDigit_of_mem_digits, hparse, ?_⟩
  rw [stringToInt_of_parseInt hparse, ← hn, BitVec.ofInt_toInt]

end RaxzusHeap
