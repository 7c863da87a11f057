import Mathlib

/-! # Round-robin countdown

Nodes stand in a circle, each with a timer.  A scan walks the circle from a node on, takes
one off every positive timer it meets and stops at the first node whose timer is then not
positive.

`Ring succ a r`: `r` is one turn of the circle, from the node after `a` to `a` itself.
`pass` is a turn in which nobody is ready, `stop` the last part of a scan;
`Ring.exists_scan` says that every scan ends, `Ring.scan_closed` where it ends and what it
leaves on the timers, and `Ring.counted_iff` when it has taken exactly one off every
positive timer. -/

namespace RoundRobin

variable {α : Type}

/-- One turn of the circle, ending at `a`. -/
structure Ring (succ : α → α) (a : α) (r : List α) : Prop where
  chain : List.IsChain (fun x y => succ x = y) (a :: r)
  last : r.getLast? = some a
  nodup : r.Nodup

namespace Ring

variable {succ : α → α} {a : α} {r : List α}

theorem getLastD_eq (h : Ring succ a r) : r.getLastD a = a := by
  rw [List.getLastD_eq_getLast?, h.last]
  rfl

theorem self_mem (h : Ring succ a r) : a ∈ r := List.mem_of_getLast? h.last

theorem succ_mem (h : Ring succ a r) : succ a ∈ r := by
  have hchain := h.chain
  cases r with
  | nil => cases h.self_mem
  | cons x r =>
      rw [List.isChain_cons_cons] at hchain
      rw [hchain.1]
      exact List.mem_cons_self

end Ring

/-- Either everybody sleeps on, or there is a first node that does not. -/
theorem all_or_first (t : α → ℤ) : ∀ r : List α,
    (∀ x ∈ r, 1 < t x) ∨ ∃ xs p ys, r = xs ++ p :: ys ∧ (∀ x ∈ xs, 1 < t x) ∧ t p ≤ 1
  | [] => .inl (by simp)
  | x :: r => by
      rcases lt_or_ge 1 (t x) with hx | hx
      · rcases all_or_first t r with h | ⟨xs, p, ys, rfl, hxs, hp⟩
        · exact .inl (by simpa using ⟨hx, h⟩)
        · exact .inr ⟨x :: xs, p, ys, rfl, by simpa using ⟨hx, hxs⟩, hp⟩
      · exact .inr ⟨[], x, r, rfl, by simp, hx⟩

/-- The first node that is ready is determined by the circle. -/
theorem first_unique {t : α → ℤ} {xs xs' ys ys' : List α} {p p' : α} (h : xs ++ p :: ys = xs' ++ p' :: ys')
    (hxs : ∀ x ∈ xs, 1 < t x) (hp : t p ≤ 1) (hxs' : ∀ x ∈ xs', 1 < t x) (hp' : t p' ≤ 1) :
    xs = xs' ∧ p = p' ∧ ys = ys' := by
  induction xs generalizing xs' with
  | nil =>
      cases xs' with
      | nil => simpa using h
      | cons x' xs' =>
          have h1 := hxs' x' List.mem_cons_self
          rw [List.nil_append, List.cons_append, List.cons.injEq] at h
          rw [← h.1] at h1
          omega
  | cons x xs ih =>
      cases xs' with
      | nil =>
          have h1 := hxs x List.mem_cons_self
          rw [List.nil_append, List.cons_append, List.cons.injEq] at h
          rw [h.1] at h1
          omega
      | cons x' xs' =>
          rw [List.cons_append, List.cons_append, List.cons.injEq] at h
          obtain ⟨rfl, hrest⟩ := h
          obtain ⟨rfl, rfl, rfl⟩ := ih hrest (fun y hy => hxs y (List.mem_cons_of_mem x hy))
            (fun y hy => hxs' y (List.mem_cons_of_mem x hy))
          exact ⟨rfl, rfl, rfl⟩

variable [DecidableEq α]

/-- Take one off the timer of `a` if it is positive. -/
def countDown (t : α → ℤ) (a : α) : α → ℤ :=
  fun b => if b = a then if 0 < t a then t a - 1 else t a else t b

/-- The scan, `none` when `n` nodes are not enough. -/
def scan (succ : α → α) : ℕ → (α → ℤ) → α → Option ((α → ℤ) × α)
  | 0, _, _ => none
  | n + 1, t, a =>
      let b := succ a
      let t' := countDown t b
      if 0 < t' b then scan succ n t' b else some (t', b)

/-- Every timer on the list has one taken off. -/
def countDownAll (t : α → ℤ) (l : List α) : α → ℤ := l.foldl countDown t

variable {succ : α → α} {t t' : α → ℤ} {a b p : α} {r xs ys : List α}

theorem countDown_same (t : α → ℤ) (a : α) :
    countDown t a a = if 0 < t a then t a - 1 else t a := by
  simp [countDown]

theorem countDown_ne (t : α → ℤ) (h : b ≠ a) : countDown t a b = t b := by
  simp [countDown, h]

theorem countDown_le (t : α → ℤ) (a b : α) : countDown t a b ≤ t b := by
  unfold countDown
  split
  · subst b
    split <;> omega
  · exact le_rfl

/-- A scan that meets only sleepers does not come to an end on the way. -/
theorem scan_sleepers (n : ℕ) (hnd : xs.Nodup) (hsleep : ∀ x ∈ xs, 1 < t x)
    (hchain : List.IsChain (fun x y => succ x = y) (a :: xs)) :
    scan succ (n + xs.length) t a = scan succ n (countDownAll t xs) (xs.getLastD a) := by
  induction xs generalizing t a with
  | nil => rfl
  | cons x xs ih =>
      rw [List.isChain_cons_cons] at hchain
      obtain ⟨hx, hchain⟩ := hchain
      obtain ⟨hmem, hnd⟩ := List.nodup_cons.mp hnd
      have h1 : 1 < t x := hsleep x List.mem_cons_self
      have hpos : 0 < countDown t x x := by
        rw [countDown_same, if_pos (by omega)]
        omega
      have hrest : ∀ y ∈ xs, 1 < countDown t x y := fun y hy => by
        rw [countDown_ne t (ne_of_mem_of_not_mem hy hmem)]
        exact hsleep y (List.mem_cons_of_mem x hy)
      have hlen : n + (x :: xs).length = (n + xs.length) + 1 := by simp [Nat.add_assoc]
      rw [hlen, scan, hx, if_pos hpos, ih hnd hrest hchain]
      cases xs <;> rfl

theorem countDownAll_of_notMem (t : α → ℤ) (h : b ∉ xs) : countDownAll t xs b = t b := by
  induction xs generalizing t with
  | nil => rfl
  | cons x xs ih =>
      rw [List.mem_cons, not_or] at h
      show countDownAll (countDown t x) xs b = t b
      rw [ih _ h.2, countDown_ne t h.1]

theorem countDownAll_of_mem (t : α → ℤ) (hnd : xs.Nodup) (h : b ∈ xs) :
    countDownAll t xs b = if 0 < t b then t b - 1 else t b := by
  induction xs generalizing t with
  | nil => cases h
  | cons x xs ih =>
      obtain ⟨hmem, hnd⟩ := List.nodup_cons.mp hnd
      show countDownAll (countDown t x) xs b = _
      rcases List.mem_cons.mp h with rfl | hb
      · rw [countDownAll_of_notMem _ hmem, countDown_same]
      · have hne : b ≠ x := fun e => hmem (e ▸ hb)
        rw [ih _ hnd hb, countDown_ne t hne]

/-- The end of a scan: sleepers, then a node that is ready or becomes so. -/
theorem scan_stop (hnd : (xs ++ p :: ys).Nodup) (hsleep : ∀ x ∈ xs, 1 < t x) (hp : t p ≤ 1)
    (hchain : List.IsChain (fun x y => succ x = y) (a :: (xs ++ p :: ys))) :
    scan succ (1 + xs.length) t a = some (countDownAll t (xs ++ [p]), p) := by
  obtain ⟨hxs, hpys, hdisj⟩ := List.nodup_append.mp hnd
  have hmem : p ∉ xs := fun h => hdisj p h p List.mem_cons_self rfl
  have hfront : List.IsChain (fun x y => succ x = y) (a :: xs) :=
    hchain.prefix ⟨p :: ys, rfl⟩
  have hstep : succ (xs.getLastD a) = p := by
    rw [← List.cons_append] at hchain
    have h := (List.isChain_append.mp hchain).2.2 (xs.getLastD a) (by
      rw [List.getLast?_cons, List.getLastD_eq_getLast?]
      rfl) p (by simp)
    exact h
  have hval : countDownAll t xs p = t p := countDownAll_of_notMem t hmem
  have hstop : ¬ 0 < countDown (countDownAll t xs) p p := by
    rw [countDown_same, hval]
    split <;> omega
  rw [scan_sleepers 1 hxs hsleep hfront, scan, hstep, if_neg hstop]
  simp [countDownAll]

/-- More fuel does not change the result. -/
theorem scan_mono {n m : ℕ} (h : scan succ n t a = some (t', b)) (hnm : n ≤ m) :
    scan succ m t a = some (t', b) := by
  induction n generalizing t a m with
  | zero => cases h
  | succ n ih =>
      obtain ⟨k, rfl⟩ : ∃ k, m = k + 1 := ⟨m - 1, by omega⟩
      rw [scan] at h ⊢
      split at h
      · rw [if_pos ‹_›]
        exact ih h (by omega)
      · rw [if_neg ‹_›]
        exact h

theorem scan_unique {n m : ℕ} {t₁ t₂ : α → ℤ} {b₁ b₂ : α}
    (h₁ : scan succ n t a = some (t₁, b₁)) (h₂ : scan succ m t a = some (t₂, b₂)) :
    t₁ = t₂ ∧ b₁ = b₂ := by
  have := (scan_mono h₁ (le_max_left n m)).symm.trans (scan_mono h₂ (le_max_right n m))
  simpa using this

theorem scan_le {n : ℕ} (h : scan succ n t a = some (t', b)) (c : α) : t' c ≤ t c := by
  induction n generalizing t a with
  | zero => cases h
  | succ n ih =>
      rw [scan] at h
      split at h
      · exact (ih h).trans (countDown_le t (succ a) c)
      · cases h
        exact countDown_le t (succ a) c

namespace Ring

theorem pass (h : Ring succ a r) (hsleep : ∀ x ∈ r, 1 < t x) (n : ℕ) :
    scan succ (n + r.length) t a = scan succ n (countDownAll t r) a := by
  rw [scan_sleepers n h.nodup hsleep h.chain, h.getLastD_eq]

/-- Every scan ends. -/
theorem exists_scan (h : Ring succ a r) (t : α → ℤ) :
    ∃ n t' b, scan succ n t a = some (t', b) := by
  -- a whole turn takes one off the timer of `a`
  induction hk : (t a).toNat using Nat.strong_induction_on generalizing t with
  | _ k ih =>
      rcases all_or_first t r with hall | ⟨xs, p, ys, rfl, hxs, hp⟩
      · have ha : 1 < t a := hall a h.self_mem
        have hdown : countDownAll t r a = t a - 1 := by
          rw [countDownAll_of_mem t h.nodup h.self_mem, if_pos (by omega)]
        obtain ⟨n, t', b, hrun⟩ := ih (countDownAll t r a).toNat (by omega) (countDownAll t r) rfl
        exact ⟨n + r.length, t', b, by rw [h.pass hall n]; exact hrun⟩
      · exact ⟨1 + xs.length, _, p, scan_stop h.nodup hxs hp h.chain⟩

/-- A scan ends at a node of the circle and leaves the timers outside it alone. -/
theorem scan_spec (h : Ring succ a r) {n : ℕ} (hrun : scan succ n t a = some (t', b)) :
    b ∈ r ∧ t' b ≤ 0 ∧ ∀ c, c ∉ r → t' c = t c := by
  induction n using Nat.strong_induction_on generalizing t with
  | _ n ih =>
      rcases all_or_first t r with hall | ⟨xs, p, ys, rfl, hxs, hp⟩
      · have hlong := h.pass hall n
        have hrun' := scan_mono hrun (Nat.le_add_right n r.length)
        rw [hlong] at hrun'
        -- the same scan, begun one turn later, needs less fuel
        obtain ⟨m, hm⟩ : ∃ m, m + r.length = n := by
          by_contra hno
          have hlt : n < r.length := by
            by_contra hge
            exact hno ⟨n - r.length, by omega⟩
          have hzero := h.pass hall 0
          rw [Nat.zero_add, scan_mono hrun hlt.le] at hzero
          cases hzero
        have hpos : 0 < r.length := List.length_pos_of_mem h.self_mem
        rw [← hm, h.pass hall m] at hrun
        obtain ⟨hb, hle, hout⟩ := ih m (by omega) hrun
        refine ⟨hb, hle, fun c hc => ?_⟩
        rw [hout c hc, countDownAll_of_notMem t hc]
      · obtain ⟨rfl, rfl⟩ := scan_unique hrun (scan_stop h.nodup hxs hp h.chain)
        obtain ⟨hnd, -, -⟩ := List.nodup_append.mp
          (show ((xs ++ [b]) ++ ys).Nodup by simpa using h.nodup)
        refine ⟨by simp, ?_, fun c hc => ?_⟩
        · rw [countDownAll_of_mem t hnd (by simp)]
          split <;> omega
        · exact countDownAll_of_notMem t (fun hmem => hc (by
            simp only [List.mem_append, List.mem_cons] at hmem ⊢
            tauto))

/-- The scan ends at the first of the nodes with the fewest whole turns to sleep; the nodes
before it are met once more than those after it. -/
theorem scan_closed (h : Ring succ a r) (hnonneg : ∀ x ∈ r, 0 ≤ t x) {n : ℕ}
    (hrun : scan succ n t a = some (t', b)) :
    ∃ xs ys, r = xs ++ b :: ys ∧
      (∀ x ∈ xs, max (t b - 1) 0 < max (t x - 1) 0 ∧ t' x = t x - (max (t b - 1) 0 + 1)) ∧
      (∀ y ∈ ys, max (t b - 1) 0 ≤ max (t y - 1) 0 ∧ t' y = t y - max (t b - 1) 0) ∧
      t' b = 0 := by
  -- every turn without a ready node takes one off the timer of `a`
  induction hk : (t a).toNat using Nat.strong_induction_on generalizing t n with
  | _ k ih =>
      rcases all_or_first t r with hall | ⟨xs, p, ys, rfl, hxs, hp⟩
      · have hdown : ∀ x ∈ r, countDownAll t r x = t x - 1 := fun x hx => by
          have := hall x hx
          rw [countDownAll_of_mem t h.nodup hx, if_pos (by omega)]
        have hrun' := scan_mono hrun (Nat.le_add_right n r.length)
        rw [h.pass hall n] at hrun'
        have ha := hall a h.self_mem
        obtain ⟨xs, ys, hr, hbefore, hafter, hb⟩ := ih (countDownAll t r a).toNat
          (by rw [hdown a h.self_mem]; omega)
          (fun x hx => by rw [hdown x hx]; have := hall x hx; omega) hrun' rfl
        have hbr : b ∈ r := by rw [hr]; simp
        have h1 := hall b hbr
        refine ⟨xs, ys, hr, fun x hx => ?_, fun y hy => ?_, hb⟩
        · have hxr : x ∈ r := by rw [hr]; simp [hx]
          have h2 := hall x hxr
          have h3 := hbefore x hx
          rw [hdown b hbr, hdown x hxr] at h3
          omega
        · have hyr : y ∈ r := by rw [hr]; simp [hy]
          have h2 := hall y hyr
          have h3 := hafter y hy
          rw [hdown b hbr, hdown y hyr] at h3
          omega
      · obtain ⟨rfl, rfl⟩ := scan_unique hrun (scan_stop h.nodup hxs hp h.chain)
        obtain ⟨hnd, -, hdisj⟩ := List.nodup_append.mp
          (show ((xs ++ [b]) ++ ys).Nodup by simpa using h.nodup)
        have hb0 := hnonneg b (by simp)
        refine ⟨xs, ys, rfl, fun x hx => ?_, fun y hy => ?_, ?_⟩
        · have h1 := hxs x hx
          rw [countDownAll_of_mem t hnd (by simp [hx]), if_pos (by omega)]
          omega
        · have hout : y ∉ xs ++ [b] := fun hmem => hdisj y hmem y hy rfl
          rw [countDownAll_of_notMem t hout]
          omega
        · rw [countDownAll_of_mem t hnd (by simp)]
          split <;> omega

/-- The scan takes exactly one off every positive timer when the timers after the first
ready node are all zero, and only then. -/
theorem counted_iff (h : Ring succ a r) (hnonneg : ∀ x ∈ r, 0 ≤ t x) {n : ℕ}
    (hrun : scan succ n t a = some (t', b)) :
    (∀ x ∈ r, t' x = if 0 < t x then t x - 1 else t x) ↔
      ∃ xs p ys, r = xs ++ p :: ys ∧ (∀ x ∈ xs, 1 < t x) ∧ t p ≤ 1 ∧ ∀ y ∈ ys, t y = 0 := by
  rcases all_or_first t r with hall | ⟨xs, p, ys, rfl, hxs, hp⟩
  · -- nobody is ready, so the node after `a` is met twice
    refine iff_of_false (fun hcount => ?_) ?_
    · have hlong := scan_mono hrun (Nat.le_add_right n r.length)
      rw [h.pass hall n] at hlong
      cases n with
      | zero => cases hlong
      | succ n =>
          have hb := h.succ_mem
          have h1 := hall _ hb
          have hdown : countDownAll t r (succ a) = t (succ a) - 1 := by
            rw [countDownAll_of_mem t h.nodup hb, if_pos (by omega)]
          have hlast : t' (succ a) ≤ countDown (countDownAll t r) (succ a) (succ a) := by
            rw [scan] at hlong
            split at hlong
            · exact scan_le hlong _
            · cases hlong
              exact le_rfl
          rw [countDown_same, hdown, if_pos (by omega), hcount _ hb, if_pos (by omega)] at hlast
          omega
    · rintro ⟨xs, p, ys, rfl, -, hp, -⟩
      have := hall p (by simp)
      omega
  · obtain ⟨rfl, rfl⟩ := scan_unique hrun (scan_stop h.nodup hxs hp h.chain)
    obtain ⟨hnd, -, hdisj⟩ := List.nodup_append.mp
      (show ((xs ++ [b]) ++ ys).Nodup by simpa using h.nodup)
    constructor
    · intro hcount
      refine ⟨xs, b, ys, rfl, hxs, hp, fun y hy => ?_⟩
      have hout : y ∉ xs ++ [b] := fun hmem => hdisj y hmem y hy rfl
      have heq := hcount y (by simp [hy])
      have h0 := hnonneg y (by simp [hy])
      rw [countDownAll_of_notMem t hout] at heq
      split at heq <;> omega
    · rintro ⟨xs', p', ys', heq, hxs', hp', hzero⟩
      -- the first ready node is the same one
      obtain ⟨rfl, rfl, rfl⟩ := first_unique heq hxs hp hxs' hp'
      intro x hx
      rcases List.mem_append.mp (show x ∈ (xs ++ [b]) ++ ys by simpa using hx) with hin | hin
      · exact countDownAll_of_mem t hnd hin
      · rw [countDownAll_of_notMem t (fun hmem => hdisj x hmem x hin rfl), hzero x hin]
        rfl

end Ring

end RoundRobin
