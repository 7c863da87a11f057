import RaxzusHeap.Lib.Bytes

/-! # Fields of packed records, and what a run of writes leaves in them

`loadLE` and `storeLE` are numbers of any width in byte memory, the lowest byte first: what a
packed record keeps in a field, and what a reader finds who takes several fields at once
(`loadLE_add`).  `foldl_last`: a cell that every step either leaves or sets holds the value of
the last step that sets it. -/

namespace Bytes

/-- The number in the `w` bytes from address `a` on. -/
def loadLE (m : Mem) (a : ℕ) : ℕ → ℕ
  | 0 => 0
  | w + 1 => (m a).toNat + 256 * loadLE m (a + 1) w

/-- Write the lowest `w` bytes of `v` from address `a` on. -/
def storeLE (m : Mem) (a w v : ℕ) : Mem := fun b =>
  if a ≤ b ∧ b < a + w then BitVec.ofNat 8 (v / 256 ^ (b - a)) else m b

variable {m m' : Mem} {a b v w w' : ℕ}

theorem loadLE_congr (h : ∀ x, a ≤ x → x < a + w → m' x = m x) : loadLE m' a w = loadLE m a w := by
  induction w generalizing a with
  | zero => rfl
  | succ w ih =>
    rw [loadLE, loadLE, h a le_rfl (by omega), ih fun x h₁ h₂ => h x (by omega) (by omega)]

/-- Neighbouring fields read as one. -/
theorem loadLE_add (m : Mem) (a w w' : ℕ) :
    loadLE m a (w + w') = loadLE m a w + 256 ^ w * loadLE m (a + w) w' := by
  induction w generalizing a with
  | zero => simp [loadLE]
  | succ w ih =>
    rw [Nat.succ_add, loadLE, loadLE, ih, pow_succ, Nat.add_right_comm a 1 w, Nat.add_assoc a w 1]
    ring

theorem storeLE_outside (h : b < a ∨ a + w ≤ b) : storeLE m a w v b = m b := by
  rw [storeLE, if_neg (by omega)]

theorem loadLE_storeLE (m : Mem) (a w v : ℕ) : loadLE (storeLE m a w v) a w = v % 256 ^ w := by
  have part : ∀ k n, k + n = w → loadLE (storeLE m a w v) (a + k) n = v / 256 ^ k % 256 ^ n := by
    intro k n
    induction n generalizing k with
    | zero =>
      intro _
      simp [loadLE, Nat.mod_one]
    | succ n ih =>
      intro hk
      have byte : storeLE m a w v (a + k) = BitVec.ofNat 8 (v / 256 ^ k) := by
        rw [storeLE, if_pos ⟨by omega, by omega⟩, Nat.add_sub_cancel_left]
      rw [loadLE, byte, Nat.add_assoc, ih (k + 1) (by omega), BitVec.toNat_ofNat,
        show 256 ^ (k + 1) = 256 ^ k * 256 from pow_succ _ _, ← Nat.div_div_eq_div_mul,
        show 256 ^ (n + 1) = 256 * 256 ^ n from pow_succ' _ _, Nat.mod_mul]
  have whole := part 0 w (Nat.zero_add w)
  rwa [pow_zero, Nat.div_one] at whole

theorem loadLE_storeLE_apart (h : b + w' ≤ a ∨ a + w ≤ b) :
    loadLE (storeLE m a w v) b w' = loadLE m b w' :=
  loadLE_congr fun _ _ _ => storeLE_outside (by omega)

end Bytes

section Last

variable {σ ε β : Type*} (step : σ → ε → σ) (read : σ → β) (request : ε → Option β)
  (Inv : σ → Prop)

/-- A cell that every step sets as requested, or leaves, holds the value of the last request. -/
theorem foldl_last (keeps : ∀ s e, Inv s → Inv (step s e))
    (sets : ∀ s e, Inv s → read (step s e) = (request e).getD (read s)) {s : σ} (h : Inv s)
    (es : List ε) : read (es.foldl step s) = (es.filterMap request).getLast?.getD (read s) := by
  induction es generalizing s with
  | nil => rfl
  | cons e es ih =>
    rw [List.foldl_cons, ih (keeps s e h), sets s e h]
    cases asked : request e with
    | none => simp [asked]
    | some b => simp [asked, List.getLast?_cons]

theorem foldl_last' (sets : ∀ s e, read (step s e) = (request e).getD (read s)) (s : σ)
    (es : List ε) : read (es.foldl step s) = (es.filterMap request).getLast?.getD (read s) :=
  foldl_last step read request (fun _ => True) (fun _ _ _ => trivial) (fun s e _ => sets s e) trivial es

end Last
