import RaxzusHeap.Console

/-! # Strings and numbers of the shell (`kutils.c`, `raxzus_shell_ui.c`)

A C string is the list of its characters before the NUL.  `is_valid_number` accepts exactly
the strings of decimal digits, the empty one among them, and `string_to_int` computes the
value modulo `2 ^ 32` (`stringToInt_eq`). -/

namespace RaxzusHeap

/-- A string literal of the source. -/
def cstr (s : String) : List Byte := s.toList.map char

/-- `checkString`. -/
def checkString : List Byte → List Byte → Bool
  | [], [] => true
  | _ :: _, [] => false
  | [], _ :: _ => false
  | a :: input, b :: compareString => if a ≠ b then false else checkString input compareString

theorem checkString_eq (input compareString : List Byte) :
    checkString input compareString = decide (input = compareString) := by
  induction input generalizing compareString with
  | nil => cases compareString <;> rfl
  | cons a input ih =>
      cases compareString with
      | nil => rfl
      | cons b compareString =>
          rw [checkString, ih]
          by_cases hab : a = b <;> simp [hab]

/-- `is_valid_number`; `char` is signed. -/
def isValidNumber : List Byte → Bool
  | [] => true
  | c :: str => if c.toInt < 48 ∨ 57 < c.toInt then false else isValidNumber str

/-- `string_to_int`, with `int` arithmetic modulo `2 ^ 32`. -/
def stringToInt (input : List Byte) : BitVec 32 :=
  input.foldl (fun result c => result * 10 + (c.signExtend 32 - 48)) 0

/-! ### Decimal digits -/

/-- A decimal digit. -/
def IsDigit (c : Byte) : Prop := 48 ≤ c.toNat ∧ c.toNat ≤ 57

instance (c : Byte) : Decidable (IsDigit c) := inferInstanceAs (Decidable (_ ∧ _))

/-- The number a string of digits stands for. -/
def decimalValue (str : List Byte) : ℕ := str.foldl (fun n c => n * 10 + (c.toNat - 48)) 0

theorem isDigit_iff (c : Byte) : IsDigit c ↔ ¬ (c.toInt < 48 ∨ 57 < c.toInt) := by
  have h := c.isLt
  rw [BitVec.toInt_eq_toNat_cond]
  unfold IsDigit
  split_ifs <;> omega

theorem isValidNumber_iff (str : List Byte) : isValidNumber str = true ↔ ∀ c ∈ str, IsDigit c := by
  induction str with
  | nil => simp [isValidNumber]
  | cons c str ih =>
      rw [isValidNumber, List.forall_mem_cons, isDigit_iff]
      by_cases hc : c.toInt < 48 ∨ 57 < c.toInt
      · simp [hc]
      · rw [if_neg hc, ih]
        exact ⟨fun h => ⟨hc, h⟩, fun h => h.2⟩

theorem decimalValue_concat (str : List Byte) (c : Byte) :
    decimalValue (str ++ [c]) = decimalValue str * 10 + (c.toNat - 48) := by
  simp [decimalValue]

theorem stringToInt_concat (str : List Byte) (c : Byte) :
    stringToInt (str ++ [c]) = stringToInt str * 10 + (c.signExtend 32 - 48) := by
  simp [stringToInt]

theorem digit_eq {c : Byte} (h : IsDigit c) : c.signExtend 32 - 48 = BitVec.ofNat 32 (c.toNat - 48) := by
  obtain ⟨h1, h2⟩ := h
  have hmsb : c.msb = false := by
    rw [BitVec.msb_eq_decide, decide_eq_false_iff_not]
    omega
  rw [BitVec.signExtend_eq_setWidth_of_msb_false hmsb]
  apply BitVec.eq_of_toNat_eq
  simp
  omega

theorem stringToInt_eq {str : List Byte} (h : ∀ c ∈ str, IsDigit c) :
    stringToInt str = BitVec.ofNat 32 (decimalValue str) := by
  induction str using List.reverseRecOn with
  | nil => rfl
  | append_singleton str c ih =>
      have hstr : ∀ x ∈ str, IsDigit x := fun x hx => h x (List.mem_append_left _ hx)
      have hc : IsDigit c := h c (by simp)
      rw [stringToInt_concat, decimalValue_concat, ih hstr, digit_eq hc, BitVec.ofNat_add,
        BitVec.ofNat_mul]
      rfl

theorem stringToInt_range {str : List Byte} (h : ∀ c ∈ str, IsDigit c) {m : ℕ} (hm : m < 2 ^ 31) :
    ¬ ((stringToInt str).toInt < 0 ∨ (m : ℤ) < (stringToInt str).toInt) ↔
      decimalValue str % 2 ^ 32 ≤ m := by
  rw [stringToInt_eq h, BitVec.toInt_eq_toNat_cond, BitVec.toNat_ofNat]
  have := Nat.mod_lt (decimalValue str) (show 0 < 2 ^ 32 by norm_num)
  split_ifs <;> omega

theorem stringToInt_toNat {str : List Byte} (h : ∀ c ∈ str, IsDigit c) :
    (stringToInt str).toNat = decimalValue str % 2 ^ 32 := by
  rw [stringToInt_eq h, BitVec.toNat_ofNat]

end RaxzusHeap
