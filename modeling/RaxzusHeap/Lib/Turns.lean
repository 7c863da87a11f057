import RaxzusHeap.Lib.RoundRobin
import Mathlib.Data.Nat.Nth
import Mathlib.Data.Int.CardIntervalMod
import Mathlib.Dynamics.PeriodicPts.Defs

/-! # Scans one after the other

Each scan goes on from the node the last one chose.  All scans of a run together ask the
nodes in the order of the circle, one question after the other; question `j` goes to
`succ^[j + 1] a`.  A node is chosen when its timer has run out by then (`Granted`), so the
nodes a run chooses are those of the granted questions (`Asked.scans`): what one scan leaves
for the next does not matter.

On a circle of `n` nodes every node is asked once in `n` questions, which bounds the time it
waits for its turn (`Ring.granted`). -/

namespace RoundRobin

variable {α : Type} [DecidableEq α]

/-- How often `x` has been asked in the first `q` questions of a run from `a`. -/
def asks (succ : α → α) (a x : α) (q : ℕ) : ℕ := Nat.count (fun j => succ^[j + 1] a = x) q

/-- The timer of the node that question `q` goes to has run out. -/
def Granted (succ : α → α) (t : α → ℤ) (a : α) (q : ℕ) : Prop :=
  t (succ^[q + 1] a) ≤ asks succ a (succ^[q + 1] a) q + 1

instance (succ : α → α) (t : α → ℤ) (a : α) : DecidablePred (Granted succ t a) :=
  fun q => inferInstanceAs (Decidable (t (succ^[q + 1] a) ≤ asks succ a (succ^[q + 1] a) q + 1))

/-- Timers `t'` and node `b` after `q` questions of a run from timers `t` and node `a`. -/
structure Asked (succ : α → α) (t : α → ℤ) (a : α) (q : ℕ) (t' : α → ℤ) (b : α) : Prop where
  node : b = succ^[q] a
  timer : ∀ x, t' x = max (t x - asks succ a x q) (min (t x) 0)

/-- `k` scans, each from the node the last one chose. -/
inductive Scans (succ : α → α) : ℕ → (α → ℤ) → α → (α → ℤ) → α → Prop where
  | nil (t : α → ℤ) (a : α) : Scans succ 0 t a t a
  | scan {k fuel : ℕ} {t t' t'' : α → ℤ} {a b c : α} : Scans succ k t a t' b →
      scan succ fuel t' b = some (t'', c) → Scans succ (k + 1) t a t'' c

section Asked

variable {succ : α → α} {t t' t'' : α → ℤ} {a b c : α} {q : ℕ}

theorem asks_succ (x : α) (q : ℕ) :
    asks succ a x (q + 1) = asks succ a x q + if succ^[q + 1] a = x then 1 else 0 :=
  Nat.count_succ _ q

theorem Asked.start (succ : α → α) (t : α → ℤ) (a : α) : Asked succ t a 0 t a where
  node := rfl
  timer x := by
    simp only [asks, Nat.count_zero, Nat.cast_zero, sub_zero]
    exact (max_eq_left (min_le_left _ _)).symm

/-- One more question. -/
theorem Asked.next (h : Asked succ t a q t' b) :
    Asked succ t a (q + 1) (countDown t' (succ b)) (succ b) := by
  have hb : succ b = succ^[q + 1] a := by
    rw [h.node, Function.iterate_succ_apply']
  refine ⟨hb, fun x => ?_⟩
  rw [asks_succ, ← hb]
  by_cases hx : x = succ b
  · subst hx
    rw [countDown_same, h.timer, if_pos rfl]
    push_cast
    split <;> omega
  · rw [countDown_ne _ hx, h.timer, if_neg (Ne.symm hx), Nat.add_zero]

/-- The next question is granted when the timer it leaves is not positive. -/
theorem Asked.granted_iff (h : Asked succ t a q t' b) :
    Granted succ t a q ↔ ¬ 0 < countDown t' (succ b) (succ b) := by
  have hb : succ b = succ^[q + 1] a := by
    rw [h.node, Function.iterate_succ_apply']
  rw [h.next.timer, asks_succ, ← hb, if_pos rfl, Granted, ← hb]
  push_cast
  omega

/-- A scan goes on to the next question that is granted. -/
theorem Asked.scan (h : Asked succ t a q t' b) {fuel : ℕ}
    (hrun : scan succ fuel t' b = some (t'', c)) :
    ∃ k, q ≤ k ∧ Granted succ t a k ∧ (∀ j, q ≤ j → j < k → ¬ Granted succ t a j) ∧
      Asked succ t a (k + 1) t'' c := by
  induction fuel generalizing q t' b with
  | zero => cases hrun
  | succ fuel ih =>
      rw [RoundRobin.scan] at hrun
      by_cases hpos : 0 < countDown t' (succ b) (succ b)
      · have hnot : ¬ Granted succ t a q := fun hg => h.granted_iff.mp hg hpos
        rw [if_pos hpos] at hrun
        obtain ⟨k, hk, hgrant, hbetween, hafter⟩ := ih h.next hrun
        refine ⟨k, by omega, hgrant, fun j hj hjk => ?_, hafter⟩
        by_cases hjq : j = q
        · rwa [hjq]
        · exact hbetween j (by omega) hjk
      · rw [if_neg hpos, Option.some.injEq, Prod.mk.injEq] at hrun
        obtain ⟨rfl, rfl⟩ := hrun
        exact ⟨q, le_rfl, h.granted_iff.mpr hpos, fun j hj hjq => by omega, h.next⟩

/-- Questions that are not granted do not count. -/
theorem count_granted_eq {k : ℕ} (hqk : q ≤ k)
    (hbetween : ∀ j, q ≤ j → j < k → ¬ Granted succ t a j) :
    Nat.count (Granted succ t a) k = Nat.count (Granted succ t a) q := by
  induction k, hqk using Nat.le_induction with
  | base => rfl
  | succ k hk ih =>
      rw [Nat.count_succ, if_neg (hbetween k hk (Nat.lt_succ_self k)), Nat.add_zero]
      exact ih fun j hj hjk => hbetween j hj (by omega)

/-- As many questions have been granted as there were scans. -/
theorem Scans.asked {k : ℕ} (h : Scans succ k t a t' b) :
    ∃ q, Asked succ t a q t' b ∧ Nat.count (Granted succ t a) q = k ∧
      ∀ j, k = j + 1 → q = Nat.nth (Granted succ t a) j + 1 := by
  induction h with
  | nil t a => exact ⟨0, .start succ t a, rfl, fun j hj => by cases hj⟩
  | @scan k fuel t t' t'' a b c _ hrun ih =>
      obtain ⟨q, hasked, hcount, -⟩ := ih
      obtain ⟨m, hqm, hgrant, hbetween, hafter⟩ := hasked.scan hrun
      have hm : Nat.count (Granted succ t a) m = k := by
        rw [count_granted_eq hqm hbetween, hcount]
      refine ⟨m + 1, hafter, ?_, fun j hj => ?_⟩
      · rw [Nat.count_succ, if_pos hgrant, hm]
      · obtain rfl : k = j := by omega
        rw [← hm, Nat.nth_count hgrant]

/-- The last of `k + 1` scans ends with the `k`-th granted question. -/
theorem Scans.closed {k : ℕ} (h : Scans succ (k + 1) t a t' b) :
    Asked succ t a (Nat.nth (Granted succ t a) k + 1) t' b := by
  obtain ⟨q, hasked, -, hq⟩ := h.asked
  rwa [hq k rfl] at hasked

end Asked

namespace Ring

variable {succ : α → α} {a : α} {r : List α}

omit [DecidableEq α] in
theorem length_pos (h : Ring succ a r) : 0 < r.length := List.length_pos_of_mem h.self_mem

omit [DecidableEq α] in
/-- In the first turn the questions go along the list. -/
theorem iterate_eq (h : Ring succ a r) {j : ℕ} (hj : j < r.length) : succ^[j + 1] a = r[j] := by
  induction j with
  | zero =>
      have hchain := h.chain
      cases r with
      | nil => cases hj
      | cons x r =>
          rw [List.isChain_cons_cons] at hchain
          exact hchain.1
  | succ j ih =>
      have hlinks := List.isChain_iff_getElem.mp h.chain (j + 1) (by simpa using hj)
      rw [Function.iterate_succ_apply', ih (by omega)]
      simpa using hlinks

omit [DecidableEq α] in
/-- After a whole turn the circle is back at `a`. -/
theorem periodic (h : Ring succ a r) : Function.IsPeriodicPt succ r.length a := by
  have hpos := h.length_pos
  have hlast := h.last
  have hstep := h.iterate_eq (j := r.length - 1) (by omega)
  rw [Nat.sub_add_cancel hpos] at hstep
  rw [List.getLast?_eq_getElem?, List.getElem?_eq_getElem (by omega), Option.some.injEq] at hlast
  exact hstep.trans hlast

omit [DecidableEq α] in
theorem iterate_mod (h : Ring succ a r) (j : ℕ) :
    succ^[j + 1] a = r.get ⟨j % r.length, Nat.mod_lt j h.length_pos⟩ := by
  rw [List.get_eq_getElem, ← h.iterate_eq (Nat.mod_lt j h.length_pos),
    ← h.periodic.iterate_mod_apply (j + 1),
    ← h.periodic.iterate_mod_apply (j % r.length + 1), Nat.mod_add_mod]

/-- In `v` turns and the part of one before it, every node is asked `v` times. -/
theorem asks_eq (h : Ring succ a r) {i : ℕ} (hi : i < r.length) (v : ℕ) :
    asks succ a r[i] (i + r.length * v) = v := by
  have hpos := h.length_pos
  have hsame : ∀ j, (succ^[j + 1] a = r[i]) ↔ j ≡ i [MOD r.length] := by
    intro j
    rw [h.iterate_mod j, List.get_eq_getElem, h.nodup.getElem_inj_iff, Nat.ModEq,
      Nat.mod_eq_of_lt hi]
  calc asks succ a r[i] (i + r.length * v)
      = Nat.count (· ≡ i [MOD r.length]) (i + r.length * v) :=
        le_antisymm (Nat.count_mono_left fun j _ => (hsame j).mp)
          (Nat.count_mono_left fun j _ => (hsame j).mpr)
    _ = v := by
        rw [Nat.count_modEq_card _ hpos, Nat.add_mul_div_left _ _ hpos, Nat.div_eq_of_lt hi,
          Nat.add_mul_mod_self_left, if_neg (lt_irrefl _)]
        simp

/-- Every node of the circle is granted a question in as many turns as its timer shows. -/
theorem granted (h : Ring succ a r) (t : α → ℤ) {p : α} (hp : p ∈ r) :
    ∃ q, succ^[q + 1] a = p ∧ Granted succ t a q ∧ q < r.length * (max 1 (t p)).toNat := by
  obtain ⟨i, hi, rfl⟩ := List.getElem_of_mem hp
  obtain ⟨v, hv⟩ : ∃ v, v = (max 1 (t r[i])).toNat - 1 := ⟨_, rfl⟩
  have hnode : succ^[i + r.length * v + 1] a = r[i] := by
    rw [h.iterate_mod]
    simp [Nat.mod_eq_of_lt hi]
  refine ⟨i + r.length * v, hnode, ?_, ?_⟩
  · rw [Granted, hnode, h.asks_eq hi v]
    omega
  · have hturns : (max 1 (t r[i])).toNat = v + 1 := by omega
    rw [hturns, Nat.mul_succ]
    omega

end Ring

theorem Scans.node_eq {succ : α → α} {t t' : α → ℤ} {a b : α} {q : ℕ}
    (hq : Granted succ t a q) (h : Scans succ (Nat.count (Granted succ t a) q + 1) t a t' b) :
    b = succ^[q + 1] a := by
  have hclosed := h.closed.node
  rwa [Nat.nth_count hq] at hclosed

end RoundRobin
