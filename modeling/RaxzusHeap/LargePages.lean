import RaxzusHeap.HeapPages
import RaxzusHeap.Stable

/-! # The pages of a large range

`kmalloc_large` maps the pages of a range one after the other and `kfree_large` unmaps all
but the first.  `Filled` and `Released` say what these loops have done after any number of
turns (`largeMapLoop_ends`, `unmapLoop`). -/

namespace RaxzusHeap

open Imperative FirstFit

/-! ### Page counts -/

theorem largePages_eq {n : ℕ} (h : n + 4099 < 2 ^ 32) : largePages n = (n + 4099) / 4096 := by
  unfold largePages
  rw [u32_of_lt (n := n + 4) (by omega), u32_of_lt (by omega)]

theorem largePages_pos {n : ℕ} (h : n + 4099 < 2 ^ 32) : 1 ≤ largePages n := by
  rw [largePages_eq h]; omega

theorem largePages_size {n : ℕ} (h : n + 4099 < 2 ^ 32) : n + 4 ≤ 4096 * largePages n := by
  rw [largePages_eq h]; omega

theorem largePages_lt (n : ℕ) : largePages n < 2 ^ 20 := by
  unfold largePages u32; omega

/-! ### The mapping loop -/

/-- Pages `[q, q + n)` were mapped, each to a fresh frame. -/
structure Filled (L : Layout) (q n : ℕ) (use : ℕ → Use) (s : State) (use' : ℕ → Use)
    (s' : State) : Prop where
  pages : HeapPages L use' s'
  backed : ∀ p, Backed use' p ↔ Backed use p ∨ (q ≤ p ∧ p < q + n)
  same : SameHeap L use s s'
  vars : SameVars s s'
  maps : ∀ d p e, s'.maps d p = some e → s.maps d p = some e ∨ (q ≤ p ∧ p < q + n)
  kept : ∀ g, use g ≠ .free → use' g = use g
  fresh : ∀ g, use g = .free → use' g = .free ∨ (∃ d i, use' g = .table d i) ∨
    ∃ p, q ≤ p ∧ p < q + n ∧ use' g = .page p
  tables : ∀ c, use c = .dir .proc → ∀ t i, use' t = .table c i → use t = .table c i
  stale : s'.stale = false → s.stale = false
  spares : Spares use s use' s'

/-- A page fault while `[q, q + n)` is being mapped. -/
structure FaultedIn (L : Layout) (q n : ℕ) (s s' : State) : Prop where
  direct : L.DirectMap s'
  maps : ∀ d p e, s'.maps d p = some e → s.maps d p = some e ∨ (q ≤ p ∧ p < q + n)
  vars : SameVars s s'

namespace Filled

variable {L : Layout} {q n : ℕ} {use use' : ℕ → Use} {s s' : State}

theorem refl (h : HeapPages L use s) : Filled L q 0 use s use s :=
  ⟨h, fun p => by constructor <;> [exact Or.inl; (rintro (h | h) <;> [exact h; omega])],
    fun _ _ => rfl, SameVars.refl s, fun _ _ _ hm => Or.inl hm, fun _ _ => rfl,
    fun _ hg => Or.inl hg, fun _ _ _ _ ht => ht, id, Spares.refl use s⟩

theorem succ (h : Filled L q n use s use' s') {D f : ℕ} {use'' : ℕ → Use} {s'' : State}
    (hD : use' D = .dir .large) (hf : use' f = .free) (ha : Added L D (q + n) f use' s' use'' s'') :
    Filled L q (n + 1) use s use'' s'' := by
  refine ⟨ha.pages, fun p => ?_, fun b hb => ?_, h.vars.trans ha.grown.vars,
    fun d p e hm => ?_, fun g hg => ?_, fun g hg => ?_, fun c hc t i ht => ?_,
    fun hst => h.stale (ha.grown.stale hst), h.spares.trans ha.grown.spares⟩
  · rw [ha.backed, h.backed, or_assoc]
    refine or_congr_right ?_
    omega
  · rw [ha.same b ((h.backed _).mpr (Or.inl hb)), h.same b hb]
  · rw [ha.grown.maps] at hm
    split_ifs at hm with hc
    · exact Or.inr (by omega)
    · rcases h.maps d p e hm with hm | hp
      · exact Or.inl hm
      · exact Or.inr (by omega)
  · have hg' := h.kept g hg
    rw [HeapPages.kept_of_grown hf ha.grown g (by rw [hg']; exact hg), hg']
  · rcases h.fresh g hg with hg' | ⟨d, i, hg'⟩ | ⟨p, h1, h2, hg'⟩
    · by_cases hgf : g = f
      · subst hgf
        refine Or.inr (Or.inr ⟨q + n, by omega, by omega, ?_⟩)
        rw [ha.grown.labels.kept g (by rw [Function.update_self]; simp), Function.update_self]
      · rcases ha.grown.labels.fresh g (by rw [Function.update_of_ne hgf]; exact hg') with h1 | h1
        · exact Or.inl h1
        · exact Or.inr (Or.inl h1)
    · refine Or.inr (Or.inl ⟨d, i, ?_⟩)
      rw [HeapPages.kept_of_grown hf ha.grown g (by rw [hg']; simp), hg']
    · refine Or.inr (Or.inr ⟨p, h1, by omega, ?_⟩)
      rw [HeapPages.kept_of_grown hf ha.grown g (by rw [hg']; simp), hg']
  · have hc' : use' c = .dir .proc := by rw [h.kept c (by rw [hc]; simp), hc]
    have hcK : c ≠ L.dirFrame := by
      rintro rfl
      rw [h.pages.inv.use_dirFrame] at hc'
      cases hc'
    have hcD : c ≠ D := by
      rintro rfl
      rw [hc'] at hD
      cases hD
    exact h.tables c hc t i (HeapPages.table_of_grown ha.grown hcK hcD ht)

end Filled

section Loops

variable {L : Layout} {use : ℕ → Use} {s : State}

/-- One turn of the mapping loop. -/
theorem Layout.largeMapPage_ends (h : HeapPages L use s) {D q i m : ℕ}
    (hD : use D = .dir .large) (hlo : 0x80000 ≤ q + i) (hhi : q + i < 0xC0000)
    (hp : ¬ Backed use (q + i)) (hroom : Room s.allocated 3 m) (hm : m ≤ 0x50000) :
    Ends (L.largeMapPage (q * 4096) i) s
      (fun b s' => b = true ∧ ∃ f use', s.FirstFree f ∧ use f = .free ∧
        Added L D (q + i) f use s use' s')
      (fun s' => 0x40000 < m ∧ Faulted L (q + i) s s') := by
  obtain ⟨f, hlt, hfirst, hf, hf0, hframe⟩ := h.inv.processFrame hroom (by omega)
  have hdir : s.large.pageDirectory = KERNEL_BASE + D * 4096 := h.dirs .large D hD (by simp)
  have hva : u32 (q * 4096 + u32 (i * 4096)) = (q + i) * 4096 := by
    rw [u32_of_lt (n := i * 4096) (by omega), u32_of_lt (by omega), Nat.add_mul]
  unfold Layout.largeMapPage
  refine Ends.bind_ok hframe ?_
  rw [if_neg hf0]
  refine Ends.bind_ok (run_get _) ?_
  simp only [hva]
  show Ends (L.mapPage s.large.pageDirectory _ _ _ >>= fun _ => _) _ _ _
  rw [hdir]
  rw [← homeOf_large hlo] at hD
  exact h.mapBoth hD hf (by omega) hp (by omega) hhi (State.room_newTables hroom) hm
    (fun use' s' ha => Ends.of_ok rfl ⟨rfl, f, use', hfirst, hf, ha⟩)
    (fun s' hlt hfault => ⟨hlt, hfault⟩)

theorem ends_of_not {α : Type} {x : Kernel α} (hx : ∀ g, Keeps (fun u => u.allocated g = true) x)
    {R : State → Prop}
    (hmono : ∀ t t', (∀ g, t.allocated g = true → t'.allocated g = true) → R t' → R t)
    (hR : ¬ R s) : Ends x s (fun _ t => ¬ R t) (fun t => ¬ R t) := by
  have hnot : ¬ R (final (x s)) := fun hr => hR (hmono s _ (fun g hg => hx g s hg) hr)
  cases hrun : x s with
  | ok a t => rw [hrun] at hnot; exact .of_ok hrun hnot
  | error e t => rw [hrun] at hnot; exact .of_error hrun hnot

/-- The mapping loop, as long as three frames below `m` are clear before each turn.  The
condition `R` is what is known of the state in which the loop ends; it must have held all
along, as the bitmap only grows. -/
theorem Layout.largeMapLoop_ends (h : HeapPages L use s) {D q N m : ℕ} (hm : m ≤ 0x50000) (hD : use D = .dir .large)
    (hlo : 0x80000 ≤ q) (hhi : q + N ≤ 0xC0000) (hp : ∀ p, q ≤ p → p < q + N → ¬ Backed use p)
    (R : State → Prop)
    (hmono : ∀ t t', (∀ g, t.allocated g = true → t'.allocated g = true) → R t' → R t)
    (hroom : ∀ i use' t, i < N → Filled L q i use s use' t → R t → Room t.allocated 3 m) :
    Ends (iterate N true fun i mapped =>
        if mapped then L.largeMapPage (q * 4096) i else pure false) s
      (fun b t => R t → b = true ∧ ∃ use', Filled L q N use s use' t)
      (fun t => R t → 0x40000 < m ∧ FaultedIn L q N s t) := by
  refine Ends.iterate (fun i b t => R t → b = true ∧ ∃ use', Filled L q i use s use' t)
    (fun _ => ⟨rfl, use, Filled.refl h⟩) (fun i b t hi hI => ?_)
  by_cases hR : R t
  · obtain ⟨rfl, use', hfill⟩ := hI hR
    have hpi : ¬ Backed use' (q + i) := fun hb => by
      rcases (hfill.backed _).mp hb with hb | hb
      · exact hp (q + i) (by omega) (by omega) hb
      · omega
    have hD' : use' D = .dir .large := by rw [hfill.kept D (by rw [hD]; simp), hD]
    simp only [if_true]
    refine (L.largeMapPage_ends hfill.pages hD' (by omega) (by omega) hpi
      (hroom i use' t hi hfill hR) hm).mono ?_ ?_
    · rintro b t' ⟨rfl, f, use'', -, hf, ha⟩ _
      exact ⟨rfl, use'', hfill.succ hD' hf ha⟩
    · intro t' hend _
      obtain ⟨hlt, hfault⟩ := hend
      refine ⟨hlt, hfault.direct, fun d p e hm => ?_, hfill.vars.trans hfault.vars⟩
      rcases hfault.maps d p e hm with hm | rfl
      · rcases hfill.maps d p e hm with hm | hp
        · exact Or.inl hm
        · exact Or.inr (by omega)
      · exact Or.inr ⟨by omega, by omega⟩
  · -- the condition fails from here on
    refine (ends_of_not (fun g => ?_) hmono hR).mono (fun _ u hu hr => absurd hr hu)
      (fun u hu hr => absurd hr hu)
    split_ifs
    · exact (stable_allocated g).largeMapPage L _ _
    · exact Keeps.pure _ _

/-- Pages `[a, b)` were unmapped and their frames released. -/
structure Released (L : Layout) (a b : ℕ) (use : ℕ → Use) (s : State) (use' : ℕ → Use)
    (s' : State) : Prop where
  pages : HeapPages L use' s'
  freed : ∀ g p, use g = .page p → a ≤ p → p < b → use' g = .free
  kept : ∀ g, (∀ p, use g = .page p → p < a ∨ b ≤ p) → use' g = use g
  same : SameHeap L use' s s'
  vars : SameVars s s'
  stale : s'.stale = s.stale

theorem Released.backed {a b : ℕ} {use' : ℕ → Use} {s' : State}
    (h : Released L a b use s use' s') (p : ℕ) :
    Backed use' p ↔ Backed use p ∧ (p < a ∨ b ≤ p) := by
  constructor
  · rintro ⟨g, hg⟩
    by_cases hin : ∃ p', use g = .page p' ∧ a ≤ p' ∧ p' < b
    · obtain ⟨p', hp', h1, h2⟩ := hin
      rw [h.freed g p' hp' h1 h2] at hg
      cases hg
    · have hk := h.kept g (fun p' hp' => by
        by_contra hc
        exact hin ⟨p', hp', by omega, by omega⟩)
      rw [hg] at hk
      refine ⟨⟨g, hk.symm⟩, ?_⟩
      by_contra hc
      exact hin ⟨p, hk.symm, by omega, by omega⟩
  · rintro ⟨⟨g, hg⟩, hp⟩
    refine ⟨g, ?_⟩
    rw [h.kept g (fun p' hp' => by rw [hg] at hp'; cases hp'; exact hp), hg]

/-- The unmapping loop of `kfree_large`. -/
theorem Layout.unmapLoop (h : HeapPages L use s) {q N : ℕ} (hN : 1 ≤ N) (hlo : 0x80000 ≤ q)
    (hhi : q + N ≤ 0xC0000) (hp : ∀ p, q + 1 ≤ p → p < q + N → Backed use p) :
    ∃ use' s', times (N - 1)
        (fun i => L.largeUnmapPage (u32 (q * 4096 + u32 ((i + 1) * 4096))) true) s = .ok () s' ∧
      Released L (q + 1) (q + N) use s use' s' := by
  obtain ⟨s', hrun, use', hrel⟩ := times_rule
    (fun i => L.largeUnmapPage (u32 (q * 4096 + u32 ((i + 1) * 4096))) true)
    (fun i t => ∃ use', Released L (q + 1) (q + 1 + i) use s use' t) (n := N - 1) (s := s)
    ⟨use, h, fun g p _ h1 h2 => by omega, fun _ _ => rfl, fun _ _ => rfl, SameVars.refl s, rfl⟩
    (fun i t hi ⟨u, hrel⟩ => by
      have hva : u32 (q * 4096 + u32 ((i + 1) * 4096)) = (q + 1 + i) * 4096 := by
        rw [u32_of_lt (n := (i + 1) * 4096) (by omega), u32_of_lt (by omega)]
        ring
      obtain ⟨f, hf⟩ := (hrel.backed (q + 1 + i)).mpr
        ⟨hp (q + 1 + i) (by omega) (by omega), Or.inr le_rfl⟩
      obtain ⟨t', hrun, hrem⟩ := hrel.pages.unmap hf (by omega)
      refine ⟨t', by rw [hva]; exact hrun, Function.update u f .free, hrem.pages,
        fun g p hg h1 h2 => ?_, fun g hg => ?_, fun b hb => ?_, hrel.vars.trans hrem.vars,
        hrem.stale.trans hrel.stale⟩
      · by_cases hgf : g = f
        · rw [hgf, Function.update_self]
        · rw [Function.update_of_ne hgf]
          by_cases hlast : p = q + 1 + i
          · -- the frame of the last page is the one released now
            subst hlast
            have hug : u g = .page (q + 1 + i) := by
              rw [hrel.kept g (fun p' hp' => by rw [hg] at hp'; cases hp'; exact Or.inr le_rfl), hg]
            exact absurd (hrel.pages.frame_unique hug hf) hgf
          · exact hrel.freed g p hg h1 (by omega)
      · have hu : u g = use g := hrel.kept g (fun p hp => by have := hg p hp; omega)
        have hgf : g ≠ f := by
          rintro rfl
          rw [hu] at hf
          have := hg _ hf
          omega
        rw [Function.update_of_ne hgf, hu]
      · rw [hrem.same b hb]
        refine hrel.same b ?_
        obtain ⟨g, hg⟩ := hb
        refine ⟨g, ?_⟩
        by_cases hgf : g = f
        · rw [hgf, Function.update_self] at hg; cases hg
        · rwa [Function.update_of_ne hgf] at hg)
  rw [show q + 1 + (N - 1) = q + N by omega] at hrel
  exact ⟨use', s', hrun, hrel⟩

end Loops

end RaxzusHeap
