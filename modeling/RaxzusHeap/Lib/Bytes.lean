import Mathlib

/-! # Words and stacks in byte memory

A memory of bytes with 32-bit little-endian words, and the stack of a 32-bit processor that
grows downwards in it.  `Holds m a ws`: the words `ws` stand one after the other from address
`a` on.  `pushAll_spec` is what a sequence of pushes leaves behind: the words in reverse, the
stack pointer below them and every other byte as it was. -/

namespace Bytes

/-- Byte-addressed memory. -/
abbrev Mem := ℕ → BitVec 8

/-- The word at address `a`. -/
def loadWord (m : Mem) (a : ℕ) : BitVec 32 := m (a + 3) ++ m (a + 2) ++ m (a + 1) ++ m a

/-- Write a word to address `a`. -/
def storeWord (m : Mem) (a : ℕ) (w : BitVec 32) : Mem := fun b =>
  if a ≤ b ∧ b < a + 4 then w.extractLsb' (8 * (b - a)) 8 else m b

/-- The words `ws` stand in memory from address `a` on. -/
def Holds (m : Mem) (a : ℕ) (ws : List (BitVec 32)) : Prop :=
  ∀ (k : ℕ) (w : BitVec 32), ws[k]? = some w → loadWord m (a + 4 * k) = w

/-- The word `k` places above the stack pointer. -/
def stackWord (m : Mem) (sp : BitVec 32) (k : ℕ) : BitVec 32 :=
  loadWord m (sp + BitVec.ofNat 32 (4 * k)).toNat

/-- Push one word: the stack pointer goes down by four, then the word is written. -/
def push (r : Mem × BitVec 32) (w : BitVec 32) : Mem × BitVec 32 :=
  (storeWord r.1 (r.2 - 4).toNat w, r.2 - 4)

/-- Push the words of a list, the first one first. -/
def pushAll (m : Mem) (sp : BitVec 32) (ws : List (BitVec 32)) : Mem × BitVec 32 :=
  ws.foldl push (m, sp)

variable {m m' : Mem} {a : ℕ} {sp w : BitVec 32} {ws ws' : List (BitVec 32)}

theorem loadWord_storeWord (m : Mem) (a : ℕ) (w : BitVec 32) :
    loadWord (storeWord m a w) a = w := by
  have hbyte : ∀ k, k < 4 → storeWord m a w (a + k) = w.extractLsb' (8 * k) 8 := fun k hk => by
    rw [storeWord, if_pos ⟨by omega, by omega⟩, Nat.add_sub_cancel_left]
  rw [loadWord, hbyte 3 (by decide), hbyte 2 (by decide), hbyte 1 (by decide),
    show storeWord m a w a = w.extractLsb' (8 * 0) 8 from hbyte 0 (by decide)]
  apply BitVec.eq_of_getLsbD_eq
  intro i hi
  simp only [BitVec.getLsbD_append, BitVec.getLsbD_extractLsb']
  -- which of the four bytes bit `i` lies in
  rcases (by omega : i < 8 ∨ (8 ≤ i ∧ i < 16) ∨ (16 ≤ i ∧ i < 24) ∨ (24 ≤ i ∧ i < 32)) with
    h | h | h | h
  · simp [h]
  · simp [show ¬ i < 8 by omega, show i - 8 < 8 by omega, show 8 + (i - 8) = i by omega]
  · simp [show ¬ i < 8 by omega, show ¬ i - 8 < 8 by omega, show i - 8 - 8 < 8 by omega,
      show 16 + (i - 8 - 8) = i by omega]
  · simp [show ¬ i < 8 by omega, show ¬ i - 8 < 8 by omega, show ¬ i - 8 - 8 < 8 by omega,
      show i - 8 - 8 - 8 < 8 by omega, show 24 + (i - 8 - 8 - 8) = i by omega]

theorem storeWord_outside {b : ℕ} (h : b < a ∨ a + 4 ≤ b) : storeWord m a w b = m b := by
  rw [storeWord, if_neg (by omega)]

theorem loadWord_congr (h : ∀ b, a ≤ b → b < a + 4 → m' b = m b) :
    loadWord m' a = loadWord m a := by
  rw [loadWord, loadWord, h (a + 3) (by omega) (by omega), h (a + 2) (by omega) (by omega),
    h (a + 1) (by omega) (by omega), h a (by omega) (by omega)]

namespace Holds

theorem congr (h : Holds m a ws)
    (hc : ∀ b, a ≤ b → b < a + 4 * ws.length → m' b = m b) : Holds m' a ws := by
  intro k w hw
  obtain ⟨hk, -⟩ := List.getElem?_eq_some_iff.mp hw
  rw [loadWord_congr fun b h1 h2 => hc b (by omega) (by omega)]
  exact h k w hw

theorem append (h : Holds m a ws) (h' : Holds m (a + 4 * ws.length) ws') :
    Holds m a (ws ++ ws') := by
  intro k w hw
  rcases Nat.lt_or_ge k ws.length with hk | hk
  · rw [List.getElem?_append_left hk] at hw
    exact h k w hw
  · rw [List.getElem?_append_right hk] at hw
    have := h' (k - ws.length) w hw
    rwa [show a + 4 * ws.length + 4 * (k - ws.length) = a + 4 * k by omega] at this

theorem single (h : loadWord m a = w) : Holds m a [w] := by
  intro k v hv
  cases k with
  | zero =>
      rw [← Option.some.inj hv]
      exact h
  | succ k => cases hv

/-- The words above the stack pointer. -/
theorem stackWord (h : Holds m sp.toNat ws) (hroom : sp.toNat + 4 * ws.length ≤ 2 ^ 32) {k : ℕ}
    (hw : ws[k]? = some w) : Bytes.stackWord m sp k = w := by
  obtain ⟨hk, -⟩ := List.getElem?_eq_some_iff.mp hw
  have haddr : (sp + BitVec.ofNat 32 (4 * k)).toNat = sp.toNat + 4 * k := by
    rw [BitVec.toNat_add, BitVec.toNat_ofNat]
    omega
  rw [Bytes.stackWord, haddr]
  exact h k w hw

end Holds

theorem pushAll_append (m : Mem) (sp : BitVec 32) (ws ws' : List (BitVec 32)) :
    pushAll m sp (ws ++ ws') = pushAll (pushAll m sp ws).1 (pushAll m sp ws).2 ws' := by
  rw [pushAll, List.foldl_append]
  rfl

/-- What a sequence of pushes leaves behind. -/
theorem pushAll_spec (h : 4 * ws.length ≤ sp.toNat) :
    (pushAll m sp ws).2.toNat = sp.toNat - 4 * ws.length ∧
      Holds (pushAll m sp ws).1 (sp.toNat - 4 * ws.length) ws.reverse ∧
      ∀ b, b < sp.toNat - 4 * ws.length ∨ sp.toNat ≤ b → (pushAll m sp ws).1 b = m b := by
  induction ws generalizing m sp with
  | nil => exact ⟨by simp [pushAll], fun k w hw => by simp at hw, fun b _ => rfl⟩
  | cons w ws ih =>
      rw [List.length_cons] at h
      have hsp : (sp - 4).toNat = sp.toNat - 4 := by
        rw [BitVec.toNat_sub]
        have : (4 : BitVec 32).toNat = 4 := rfl
        have := sp.isLt
        omega
      have hfit : 4 * ws.length ≤ (sp - 4).toNat := by omega
      obtain ⟨htop, hwords, hrest⟩ := ih (m := storeWord m (sp - 4).toNat w) hfit
      rw [show pushAll m sp (w :: ws) = pushAll (storeWord m (sp - 4).toNat w) (sp - 4) ws from rfl]
      have hlow : sp.toNat - 4 * (w :: ws).length = (sp - 4).toNat - 4 * ws.length := by
        rw [List.length_cons]
        omega
      rw [hlow]
      refine ⟨htop, ?_, fun b hb => ?_⟩
      · rw [List.reverse_cons]
        refine hwords.append (.single ?_)
        rw [List.length_reverse, Nat.sub_add_cancel (by omega)]
        rw [loadWord_congr fun b h1 _ => hrest b (.inr h1), loadWord_storeWord]
      · rw [hrest b (by omega), storeWord_outside (by omega)]

end Bytes
