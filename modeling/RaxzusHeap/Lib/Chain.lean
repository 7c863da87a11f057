import Mathlib

/-! # Singly linked chains

`Chain next null a l`: starting at `a` and following `next`, the nodes visited are `l`, and
the walk arrives at `null`.  The nodes may be anything; `next` is partial, as a read of
memory is.

A chain is determined by where it starts (`Chain.unique`), so it never visits a node twice
(`Chain.nodup`), and it depends only on the links of its own nodes (`Chain.congr`).
`Chain.push` and `Chain.cases_ne` are insertion and removal at the front, `Chain.prepend`
links a whole run of nodes in front. -/

namespace Linked

variable {α : Type}

/-- The nodes visited from a start node on, up to `null`. -/
inductive Chain (next : α → Option α) (null : α) : α → List α → Prop where
  | nil : Chain next null null []
  | cons {a b : α} {l : List α} : a ≠ null → next a = some b → Chain next null b l →
      Chain next null a (a :: l)

namespace Chain

variable {next next' : α → Option α} {null a b : α} {l l' : List α}

theorem eq_nil (h : Chain next null null l) : l = [] := by
  cases h with
  | nil => rfl
  | cons hne _ _ => exact absurd rfl hne

theorem of_nil (h : Chain next null a []) : a = null := by
  cases h
  rfl

theorem head_eq (h : Chain next null a (b :: l)) : a = b := by
  cases h
  rfl

/-- A chain that does not start at `null` starts with its first node. -/
theorem cases_ne (h : Chain next null a l) (ha : a ≠ null) :
    ∃ b t, l = a :: t ∧ next a = some b ∧ Chain next null b t := by
  cases h with
  | nil => exact absurd rfl ha
  | cons _ hb ht => exact ⟨_, _, rfl, hb, ht⟩

theorem ne_null (h : Chain next null a l) (hb : b ∈ l) : b ≠ null := by
  induction h with
  | nil => cases hb
  | cons hne _ _ ih =>
      rcases List.mem_cons.mp hb with rfl | hb
      · exact hne
      · exact ih hb

theorem unique (h : Chain next null a l) (h' : Chain next null a l') : l = l' := by
  induction h generalizing l' with
  | nil => exact (h'.eq_nil).symm
  | cons hne hb _ ih =>
      obtain ⟨c, t, rfl, hc, ht⟩ := h'.cases_ne hne
      rw [hb] at hc
      cases hc
      rw [ih ht]

/-- From every node of a chain the rest of the chain can be walked. -/
theorem suffix (h : Chain next null a l) (hb : b ∈ l) :
    ∃ t, Chain next null b t ∧ t.length ≤ l.length := by
  induction h with
  | nil => cases hb
  | @cons a c l hne hc ht ih =>
      rcases List.mem_cons.mp hb with rfl | hb
      · exact ⟨_, .cons hne hc ht, le_rfl⟩
      · obtain ⟨t, hch, hle⟩ := ih hb
        exact ⟨t, hch, hle.trans (Nat.le_succ _)⟩

/-- A chain that ends visits no node twice. -/
theorem nodup (h : Chain next null a l) : l.Nodup := by
  induction h with
  | nil => exact List.nodup_nil
  | cons hne hb ht ih =>
      refine List.nodup_cons.mpr ⟨fun hmem => ?_, ih⟩
      -- the walk from a repeated node would be longer than itself
      obtain ⟨t, hch, hle⟩ := ht.suffix hmem
      have := (Chain.cons hne hb ht).unique hch
      rw [← this, List.length_cons] at hle
      omega

/-- Along a chain every node is linked to the following one. -/
theorem isChain (h : Chain next null a l) : l.IsChain (fun x y => next x = some y) := by
  induction h with
  | nil => exact .nil
  | cons hne hb ht ih =>
      cases ht with
      | nil => exact .singleton _
      | cons hne' hb' ht' => exact .cons_cons hb ih

/-- The last node of a chain is linked to `null`. -/
theorem next_of_getLast? (h : Chain next null a l) {c : α} (hc : l.getLast? = some c) :
    next c = some null := by
  induction h with
  | nil => cases hc
  | cons hne hb ht ih =>
      cases ht with
      | nil =>
          cases hc
          exact hb
      | cons hne' hb' ht' => exact ih (by rwa [List.getLast?_cons_cons] at hc)

/-- Links back along a chain that starts without one are the inverse of the links forward. -/
theorem inverse (h : Chain next null a l) {prev : α → α} (hback : l.IsChain fun x y => prev y = x)
    (hfirst : ∀ x ∈ l.head?, prev x = null) {x y : α} (hx : x ∈ l) (hy : y ∈ l) :
    next x = some y ↔ prev y = x := by
  obtain ⟨i, hi, rfl⟩ := List.getElem_of_mem hx
  obtain ⟨j, hj, rfl⟩ := List.getElem_of_mem hy
  constructor
  · intro hnext
    by_cases hlast : i + 1 < l.length
    · have hi' := h.isChain.getElem i hlast
      rw [hnext, Option.some.injEq, h.nodup.getElem_inj_iff] at hi'
      subst hi'
      exact hback.getElem i hlast
    · have hend := h.next_of_getLast? (List.getLast?_eq_getElem? ▸ List.getElem?_eq_getElem
        (show l.length - 1 < l.length by omega))
      simp only [show l.length - 1 = i by omega, hnext, Option.some.injEq] at hend
      exact absurd hend (h.ne_null hy)
  · intro hprev
    cases j with
    | zero =>
        rw [hfirst _ (by rw [List.head?_eq_getElem?, List.getElem?_eq_getElem hj]; rfl)] at hprev
        exact absurd hprev.symm (h.ne_null hx)
    | succ k =>
        rw [hback.getElem k hj, h.nodup.getElem_inj_iff] at hprev
        subst hprev
        exact h.isChain.getElem k hj

theorem head?_eq (h : Chain next null a l) (ha : a ≠ null) : l.head? = some a := by
  obtain ⟨b, t, rfl, -⟩ := h.cases_ne ha
  rfl

/-- Only the links of the visited nodes matter. -/
theorem congr (h : Chain next null a l) (hc : ∀ b ∈ l, next' b = next b) :
    Chain next' null a l := by
  induction h with
  | nil => exact .nil
  | cons hne hb _ ih =>
      refine .cons hne ?_ (ih fun c hmem => hc c (List.mem_cons_of_mem _ hmem))
      rw [hc _ List.mem_cons_self, hb]

theorem push (h : Chain next null a l) (hb : b ≠ null) (hl : b ∉ l) (hnew : next' b = some a)
    (hc : ∀ c, c ≠ b → c ∈ l → next' c = next c) : Chain next' null b (b :: l) :=
  .cons hb hnew (h.congr fun c hmem => hc c (fun e => hl (e ▸ hmem)) hmem)

/-- Insertion at the end: the last node is linked to the new one. -/
theorem snoc (h : Chain next null a l) {c : α} (hc : l.getLast? = some c) (hb : b ≠ null)
    (hlast : next' c = some b) (hnew : next' b = some null)
    (hrest : ∀ d ∈ l, d ≠ c → next' d = next d) : Chain next' null a (l ++ [b]) := by
  have hnd := h.nodup
  induction h with
  | nil => cases hc
  | @cons d e t hne hd ht ih =>
      obtain ⟨hmem, hnd⟩ := List.nodup_cons.mp hnd
      cases ht with
      | nil =>
          cases hc
          exact .cons hne hlast (.cons hb hnew .nil)
      | @cons _ g t hne' he ht' =>
          rw [List.getLast?_cons_cons] at hc
          have hdc : d ≠ c := fun hdc => hmem (hdc ▸ List.mem_of_getLast? hc)
          refine .cons hne ((hrest d List.mem_cons_self hdc).trans hd) ?_
          exact ih hc (fun x hx => hrest x (List.mem_cons_of_mem d hx)) hnd

/-- The nodes `f i, …, f (i + n)`, each linked to the following one and the last one to `b`,
in front of a chain. -/
theorem prepend (f : ℕ → α) (h : Chain next null b l) :
    ∀ n i, (∀ k, i ≤ k → k ≤ i + n → f k ≠ null) →
      (∀ k, i ≤ k → k < i + n → next (f k) = some (f (k + 1))) →
      next (f (i + n)) = some b →
      Chain next null (f i) ((List.range' i (n + 1)).map f ++ l)
  | 0, i, hne, _, hlast => .cons (hne i le_rfl le_rfl) hlast h
  | n + 1, i, hne, hnext, hlast => by
      have ih := prepend f h n (i + 1) (fun k h1 h2 => hne k (by omega) (by omega))
        (fun k h1 h2 => hnext k (by omega) (by omega))
        (by rw [show i + 1 + n = i + (n + 1) by omega]; exact hlast)
      rw [List.range'_succ]
      exact .cons (hne i le_rfl (by omega)) (hnext i le_rfl (by omega)) ih

end Chain

end Linked
