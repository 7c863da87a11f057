import RaxzusHeap.Domain
import RaxzusHeap.Large

/-! # The invariant of the whole heap

`HeapInv` puts the seven size-class domains and the large domain next to one another over
one set of pages.  Each operation concerns one domain; the lemmas of this file show that it
leaves the others alone and keeps `HeapInv`: `domainAlloc`, `domainFree`, `largeAlloc`,
`largeFree` and, for the client, `write`. -/

namespace RaxzusHeap

open Imperative FirstFit Linked

/-- The invariant of the heap: `live` are the pointers in the client's hands, `ranges` the
ranges of the large domain. -/
structure HeapInv (L : Layout) (use : ℕ → Use) (live ranges : ℕ → Option ℕ) (s : State) :
    Prop where
  pages : HeapPages L use s
  dom : ∀ d, DomainInv L use live d s
  large : LargeInv L use live ranges s
  heap : ∀ p n, live p = some n → 0x10000000 ≤ p

theorem window_cases {p : ℕ} (h : 0x10000000 ≤ p) :
    0x80000000 ≤ p ∨ ∃ d : SizeClass, d.virtBase ≤ p ∧ p < d.virtBase + 0x10000000 := by
  by_cases hp : 0x80000000 ≤ p
  · exact Or.inl hp
  · refine Or.inr ?_
    by_cases h2 : p < 0x20000000
    · exact ⟨.heap64, by simp only [SizeClass.virtBase]; omega⟩
    by_cases h3 : p < 0x30000000
    · exact ⟨.heap128, by simp only [SizeClass.virtBase]; omega⟩
    by_cases h4 : p < 0x40000000
    · exact ⟨.heap256, by simp only [SizeClass.virtBase]; omega⟩
    by_cases h5 : p < 0x50000000
    · exact ⟨.heap512, by simp only [SizeClass.virtBase]; omega⟩
    by_cases h6 : p < 0x60000000
    · exact ⟨.heap1k, by simp only [SizeClass.virtBase]; omega⟩
    by_cases h7 : p < 0x70000000
    · exact ⟨.heap2k, by simp only [SizeClass.virtBase]; omega⟩
    · exact ⟨.heap4k, by simp only [SizeClass.virtBase]; omega⟩

theorem region_unique {c d : SizeClass} {p : ℕ} (hc : c.virtBase ≤ p)
    (hc' : p < c.virtBase + 0x10000000) (hd : d.virtBase ≤ p)
    (hd' : p < d.virtBase + 0x10000000) : c = d := by
  by_contra hne
  rcases SizeClass.region_disjoint hne with h | h <;> omega

namespace HeapInv

variable {L : Layout} {use use' : ℕ → Use} {live ranges : ℕ → Option ℕ} {s s' : State}

theorem backed_live (h : HeapInv L use live ranges s) {p n b : ℕ} (hp : live p = some n)
    (hsize : n + 4099 < 2 ^ 32) (h1 : p ≤ b) (h2 : b < p + n) : Backed use (b / 4096) := by
  rcases window_cases (h.heap p n hp) with hge | ⟨d, hd1, hd2⟩
  · obtain ⟨hmod, N, hN, hn, _⟩ := h.large.header p n hp hge
    have hn := hn hsize
    obtain ⟨hlo, _⟩ := h.large.within _ N hN
    have hpq : p / 4096 * 4096 + 4 = p := by omega
    refine (h.large.backed _ (by omega)).mpr ⟨p / 4096, N, hN, by omega, ?_⟩
    rw [held_live (by rw [hpq]; exact hp)]
    omega
  · obtain ⟨hblock, hn⟩ := (h.dom d).live p n hp hd1 hd2
    have hend := (h.dom d).block_end hblock
    have hmod := d.virtBase_mod
    have hal := (h.dom d).aligned
    have hcle := (h.dom d).cursor_le
    exact ((h.dom d).backed _ (by omega) (by omega)).mpr (by omega)

/-! ### Size-class operations -/

theorem heap_update (h : HeapInv L use live ranges s) {a : ℕ} (o : Option ℕ)
    (ha : 0x10000000 ≤ a) (p n : ℕ) (hp : Function.update live a o p = some n) :
    0x10000000 ≤ p := by
  by_cases hpa : p = a
  · rw [hpa]; exact ha
  · rw [Function.update_of_ne hpa] at hp
    exact h.heap p n hp

/-- `heap_domain_alloc` keeps the invariant, or stops on a page table beyond 1 GB. -/
theorem domainAllocTight (h : HeapInv L use live ranges s) (d : SizeClass) {n m : ℕ}
    (hn : n ≤ d.blockSize) (hm : m ≤ 0x50000)
    (hslow : (s.domains d).nextFreeBlock = 0 →
      (s.domains d).nextVirtAddr < d.virtBase + 0x10000000 ∧ s.PageRoom L d m) :
    Ends (L.heapDomainAlloc d) s
      (fun a s' => ∃ use', HeapInv L use' (Function.update live a (some n)) ranges s' ∧
        Popped L d use live s a use' s')
      (fun s' => 0x40000 < m ∧ Faulted L ((s.domains d).nextVirtAddr / 4096) s s') := by
  refine ((h.dom d).alloc h.pages hn hm hslow).mono ?_ (fun _ hs => hs)
  rintro a s' ⟨use', hp', hd', hpop⟩
  have hreg := hpop.region hd'
  have hbase := d.virtBase_bounds
  refine ⟨use', ⟨hp', fun c => ?_, ?_, h.heap_update _ (by omega)⟩, hpop⟩
  · by_cases hc : c = d
    · subst hc; exact hd'
    · have hdisj := SizeClass.region_disjoint hc
      refine (h.dom c).congr (fun D hD => hpop.kept D (by rw [hD]; simp)) (hpop.others.domains c hc)
        (fun p h1 h2 => hpop.backed_other (h.dom d) (by omega))
        (fun b hb _ => hpop.same b ((h.dom c).backed_block hb).1) (fun b h1 h2 => ?_)
      rw [Function.update_of_ne (by omega)]
  · refine h.large.congr (fun D hD => hpop.kept D (by rw [hD]; simp)) hpop.others.large
      (fun p hp => hpop.backed_other (h.dom d) (by omega)) (fun q N hq => ?_) (fun q N hq _ => ?_)
      (fun p hp => by rw [Function.update_of_ne (by omega)])
    · refine hpop.same _ ?_
      rw [Nat.mul_div_cancel q (by norm_num)]
      exact h.large.backed_first hq
    · refine hpop.same _ ?_
      rw [show (q * 4096 + 4) / 4096 = q by omega]
      exact h.large.backed_first hq

theorem domainAlloc (h : HeapInv L use live ranges s) (d : SizeClass) {n m : ℕ}
    (hn : n ≤ d.blockSize) (hm : m ≤ 0x50000)
    (hslow : (s.domains d).nextFreeBlock = 0 →
      (s.domains d).nextVirtAddr < d.virtBase + 0x10000000 ∧ Room s.allocated 3 m) :
    Ends (L.heapDomainAlloc d) s
      (fun a s' => ∃ use', HeapInv L use' (Function.update live a (some n)) ranges s' ∧
        Popped L d use live s a use' s')
      (fun s' => 0x40000 < m ∧ Faulted L ((s.domains d).nextVirtAddr / 4096) s s') :=
  h.domainAllocTight d hn hm fun hnil => ⟨(hslow hnil).1, .of_room (hslow hnil).2 (by omega)⟩

/-- `heap_domain_free` of a live block keeps the invariant and writes one word. -/
theorem domainFree (h : HeapInv L use live ranges s) {d : SizeClass} {b n : ℕ}
    (hb : live b = some n) (h1 : d.virtBase ≤ b) (h2 : b < d.virtBase + 0x10000000) :
    ∃ s', L.heapDomainFree d b s = .ok () s' ∧
      HeapInv L use (Function.update live b none) ranges s' ∧ OtherVars d s s' ∧
      (s'.domains d).nextVirtAddr = (s.domains d).nextVirtAddr ∧
      (∀ x, Backed use (x / 4096) → x / 4 ≠ b / 4 →
        s'.peek L.dirFrame x = s.peek L.dirFrame x) ∧
      (∀ g, s'.allocated g = s.allocated g) ∧ s'.maps = s.maps ∧ s'.stale = s.stale := by
  obtain ⟨s₁, s', hrun, hst, rfl, hp', hd'⟩ := (h.dom d).free h.pages hb h1 h2
  have hbase := d.virtBase_bounds
  have hothers : OtherVars d s (s₁.setDomain d fun r => { r with nextFreeBlock := b }) :=
    (hst.vars.other d).trans (.setDomain s₁ d _ rfl)
  have hpeek : ∀ x, Backed use (x / 4096) → x / 4 ≠ b / 4 →
      (s₁.setDomain d fun r => { r with nextFreeBlock := b }).peek L.dirFrame x =
        s.peek L.dirFrame x := fun x hx hne => by
    rw [State.peek_setDomain, hst.peek x hx, if_neg hne]
  refine ⟨_, hrun, ⟨hp', fun c => ?_, ?_, h.heap_update _ (by omega)⟩, hothers, ?_, hpeek,
    fun g => hst.alloc g, hst.maps, hst.stale⟩
  · by_cases hc : c = d
    · subst hc; exact hd'
    · have hdisj := SizeClass.region_disjoint hc
      refine (h.dom c).congr (fun _ _ => rfl) (hothers.domains c hc) (fun _ _ _ => Iff.rfl)
        (fun x hx _ => ?_) (fun x h3 h4 => ?_)
      · have hxlt := (h.dom c).backed_block hx
        have hxge := hx.1
        have hmod := c.virtBase_mod
        have hmod' := d.virtBase_mod
        exact hpeek x hxlt.1 (by omega)
      · rw [Function.update_of_ne (by omega)]
  · refine h.large.congr (fun _ _ => rfl) hothers.large (fun _ _ => Iff.rfl) (fun q N hq => ?_)
      (fun q N hq _ => ?_) (fun p hp => by rw [Function.update_of_ne (by omega)])
    · have hlo := (h.large.within q N hq).1
      refine hpeek _ ?_ (by omega)
      rw [Nat.mul_div_cancel q (by norm_num)]
      exact h.large.backed_first hq
    · have hlo := (h.large.within q N hq).1
      refine hpeek _ ?_ (by omega)
      rw [show (q * 4096 + 4) / 4096 = q by omega]
      exact h.large.backed_first hq
  · rw [State.setDomain_self, hst.vars.domains]

/-! ### Large operations -/

/-- The size-class domains do not see an operation of the large domain. -/
theorem dom_of_large (h : HeapInv L use live ranges s) {q : ℕ} (o : Option ℕ) (hlo : 0x80000 ≤ q)
    (hlabels : LargeLabels use use') (hvars : LargeVars s s')
    (hback : ∀ p, p < 0x80000 → (Backed use' p ↔ Backed use p))
    (hpeek : ∀ b, Backed use (b / 4096) → b / 4096 < 0x80000 →
      s'.peek L.dirFrame b = s.peek L.dirFrame b) (d : SizeClass) :
    DomainInv L use' (Function.update live (q * 4096 + 4) o) d s' := by
  have hbase := d.virtBase_bounds
  refine (h.dom d).congr (fun D hD => hlabels.kept D (by rw [hD]; simp)
    (fun p _ => by rw [hD]; simp)) (congrFun hvars.domains d)
    (fun p h1 h2 => hback p (by omega)) (fun b hb _ => ?_) (fun b h1 h2 => ?_)
  · have hb' := (h.dom d).backed_block hb
    exact hpeek b hb'.1 (by omega)
  · rw [Function.update_of_ne (by omega)]

/-- `kmalloc_large` keeps the invariant. -/
theorem largeAlloc (h : HeapInv L use live ranges s) {n m : ℕ} (hm : m ≤ 0x50000) (hn0 : n ≠ 0)
    (hN : 1 ≤ largePages n)
    (hfit : ¬ L.Reuses s (largePages n) →
      s.large.nextVirtAddr + largePages n * 4096 ≤ 0xC0000000)
    (R : State → Prop)
    (hmono : ∀ t t', (∀ g, t.allocated g = true → t'.allocated g = true) → R t' → R t)
    (hroom : ∀ use' t, HeapPages L use' t → LargeLabels use use' → R t →
      Room t.allocated 3 m) :
    Ends (L.kmallocLarge n) s
      (fun a s' => R s' → ∃ q use', a = q * 4096 + 4 ∧ Carved L use live ranges n q s use' s' ∧
        HeapInv L use' (Function.update live a (some n))
          (Function.update ranges q (some (largePages n))) s')
      (fun s' => R s' → 0x40000 < m ∧ LargeFaulted L s s') := by
  refine (h.large.alloc h.pages hm hn0 hN hfit R hmono hroom).mono (fun a s' hq hR => ?_)
    (fun _ hs => hs)
  obtain ⟨q, use', rfl, hc⟩ := hq hR
  have hlo := hc.lo
  refine ⟨q, use', rfl, hc, hc.pages, ?_, hc.inv, h.heap_update _ (by omega)⟩
  refine h.dom_of_large _ hlo hc.labels hc.vars (fun p hp => ?_) (fun b hb hlt => ?_)
  · rw [hc.backed]
    exact ⟨fun hb => hb.resolve_right (by omega), Or.inl⟩
  · exact hc.same b hb (Or.inl (by omega))

theorem largeFree (h : HeapInv L use live ranges s) {p n : ℕ} (hp : live p = some n)
    (hge : 0x80000000 ≤ p) :
    ∃ q N use' s', p = q * 4096 + 4 ∧ L.kfreeLarge p s = .ok () s' ∧
      Returned L use live ranges q N s use' s' ∧
      HeapInv L use' (Function.update live p none) ranges s' := by
  obtain ⟨q, N, use', s', rfl, hrun, hr⟩ := h.large.free h.pages hp hge
  have hlo := hr.lo
  refine ⟨q, N, use', s', rfl, hrun, hr, hr.pages, ?_, hr.inv, h.heap_update _ (by omega)⟩
  have hback : ∀ x, x < 0x80000 → (Backed use' x ↔ Backed use x) := fun x hx => by
    rw [hr.backed]
    exact ⟨fun hb => hb.1, fun hb => ⟨hb, Or.inl (by omega)⟩⟩
  exact h.dom_of_large _ hlo hr.labels hr.vars hback
    (fun b hb hlt => hr.same b ((hback _ hlt).mpr hb) (by omega))

end HeapInv

/-! ### Bytes of a word -/

theorem setByte_lt {w k b : ℕ} (hw : w < 2 ^ 32) (hk : k < 4) : setByte w k b < 2 ^ 32 := by
  unfold setByte byteOf
  interval_cases k <;> simp only [Nat.reducePow] <;> omega

theorem byteOf_setByte {w k b : ℕ} (hw : w < 2 ^ 32) (hk : k < 4) :
    byteOf (setByte w k b) k = b % 256 := by
  unfold setByte byteOf
  interval_cases k <;> simp only [Nat.reducePow] <;> omega

theorem byteOf_setByte_ne {w k j b : ℕ} (hw : w < 2 ^ 32) (hk : k < 4) (hj : j < 4)
    (hne : j ≠ k) : byteOf (setByte w k b) j = byteOf w j := by
  unfold setByte byteOf
  interval_cases k <;> interval_cases j <;> simp only [Nat.reducePow] <;> omega

/-- The byte the kernel reads at `va`. -/
def Layout.byteAt (L : Layout) (s : State) (va : ℕ) : Option ℕ :=
  (s.peek L.dirFrame va).map fun w => byteOf w (va % 4)

/-- The words of the blocks in `live` read as before. -/
def Quiet (L : Layout) (live : ℕ → Option ℕ) (s s' : State) : Prop :=
  ∀ p n, live p = some n → n + 4099 < 2 ^ 32 → ∀ y, p ≤ y → y < p + n →
    s'.peek L.dirFrame y = s.peek L.dirFrame y

namespace HeapInv

variable {L : Layout} {use use' : ℕ → Use} {live ranges : ℕ → Option ℕ} {s s' : State}

/-! ### What the operations leave alone -/

/-- A live block of another address shares no word with the block at `b`. -/
theorem apart_word (h : HeapInv L use live ranges s) {d : SizeClass} {b m p n : ℕ}
    (hb : live b = some m) (hb1 : d.virtBase ≤ b) (hb2 : b < d.virtBase + 0x10000000)
    (hp : live p = some n) (hpb : p ≠ b) {y : ℕ} (h1 : p ≤ y) (h2 : y < p + n) :
    y / 4 ≠ b / 4 := by
  have hbase := d.virtBase_bounds
  obtain ⟨hblock, _⟩ := (h.dom d).live b m hb hb1 hb2
  have hal := hblock.aligned
  have hend := (h.dom d).block_end hblock
  have hsize := d.blockSize_ge
  rcases window_cases (h.heap p n hp) with hge | ⟨c, hc1, hc2⟩
  · omega
  · obtain ⟨hpblock, hn⟩ := (h.dom c).live p n hp hc1 hc2
    by_cases hcd : c = d
    · subst hcd
      rcases hpblock.disjoint hblock hpb with h3 | h3 <;> omega
    · have hpend := (h.dom c).block_end hpblock
      have hcle := (h.dom c).cursor_le
      have hdle := (h.dom d).cursor_le
      rcases SizeClass.region_disjoint hcd with h3 | h3 <;> omega

theorem domainAlloc_quiet (h : HeapInv L use live ranges s) {d : SizeClass} {a : ℕ}
    (hpop : Popped L d use live s a use' s') : Quiet L live s s' :=
  fun _ _ hp hn y h1 h2 => hpop.same y (h.backed_live hp hn h1 h2)

theorem largeAlloc_quiet (h : HeapInv L use live ranges s) {n q : ℕ}
    (hc : Carved L use live ranges n q s use' s') : Quiet L live s s' := by
  intro p k hp hk y h1 h2
  refine hc.same y (h.backed_live hp hk h1 h2) ?_
  have hlo := hc.lo
  rcases window_cases (h.heap p k hp) with hge | ⟨c, hc1, hc2⟩
  · obtain ⟨hmod, A, hA, hsize, _⟩ := h.large.header p k hp hge
    have hsize := hsize hk
    have hpq : p / 4096 ≠ q := by
      intro e
      have hp4 : p = q * 4096 + 4 := by omega
      rw [hp4, hc.fresh] at hp
      cases hp
    have hA' : Function.update ranges q (some (largePages n)) (p / 4096) = some A := by
      rw [Function.update_of_ne hpq]; exact hA
    rcases hc.inv.disjoint _ A q _ hA' (Function.update_self ..) hpq with h3 | h3 <;> omega
  · obtain ⟨hpblock, hn⟩ := (h.dom c).live p k hp hc1 hc2
    have hpend := (h.dom c).block_end hpblock
    have hcle := (h.dom c).cursor_le
    have hbase := c.virtBase_bounds
    omega

theorem largeFree_quiet (h : HeapInv L use live ranges s) {q N : ℕ}
    (hr : Returned L use live ranges q N s use' s')
    (h' : HeapInv L use' (Function.update live (q * 4096 + 4) none) ranges s') :
    Quiet L (Function.update live (q * 4096 + 4) none) s s' := by
  intro p k hp hk y h1 h2
  refine hr.same y (h'.backed_live hp hk h1 h2) ?_
  have hlo := hr.lo
  rcases window_cases (h'.heap p k hp) with hge | ⟨c, hc1, hc2⟩
  · obtain ⟨hmod, A, hA, hsize, _⟩ := h'.large.header p k hp hge
    have hsize := hsize hk
    have hpq : p / 4096 ≠ q := by
      intro e
      have hp4 : p = q * 4096 + 4 := by omega
      rw [hp4, Function.update_self] at hp
      cases hp
    have hN := (h.large.within q N hr.range).2.1
    rcases h'.large.disjoint _ A q N hA hr.range hpq with h3 | h3 <;> omega
  · obtain ⟨hpblock, hn⟩ := (h'.dom c).live p k hp hc1 hc2
    have hpend := (h'.dom c).block_end hpblock
    have hcle := (h'.dom c).cursor_le
    have hbase := c.virtBase_bounds
    omega

/-! ### Client writes -/

/-- The word of a free block is not part of a live one. -/
theorem free_apart (h : HeapInv L use live ranges s) {d : SizeClass} {p n k x : ℕ}
    (hp : live p = some n) (hx : d.IsBlock (s.domains d).nextVirtAddr x) (hnone : live x = none)
    (hk : k < n) : x / 4 ≠ (p + k) / 4 := by
  have hxlt := (h.dom d).backed_block hx
  have hxp : x ≠ p := by rintro rfl; rw [hp] at hnone; cases hnone
  have hxal := hx.aligned
  have hxend := (h.dom d).block_end hx
  have hsize := d.blockSize_ge
  have hbase := d.virtBase_bounds
  rcases window_cases (h.heap p n hp) with hge | ⟨c, hc1, hc2⟩
  · omega
  · obtain ⟨hpblock, hle⟩ := (h.dom c).live p n hp hc1 hc2
    have hpend := (h.dom c).block_end hpblock
    have hcle := (h.dom c).cursor_le
    by_cases hcd : c = d
    · subst hcd
      rcases hpblock.disjoint hx (Ne.symm hxp) with h3 | h3 <;> omega
    · have hdle := (h.dom d).cursor_le
      have hxge := hx.1
      have hmod := d.virtBase_mod
      rcases SizeClass.region_disjoint hcd with h3 | h3 <;> omega

/-- A word written inside a live block keeps the invariant. -/
theorem storeLive (h : HeapInv L use live ranges s) {p n k v : ℕ} (hp : live p = some n)
    (hn : n + 4099 < 2 ^ 32) (hk : k < n) (hv : v < 2 ^ 32) :
    ∃ s', L.store (p + k) v s = .ok () s' ∧ HeapInv L use live ranges s' ∧
      Stored L use (p + k) v s s' := by
  have hback := h.backed_live hp hn (Nat.le_add_right p k) (by omega)
  obtain ⟨s', hrun, hp', hst⟩ := h.pages.store hback hv
  refine ⟨s', hrun, ⟨hp', fun d => ?_, ?_, h.heap⟩, hst⟩
  · refine (h.dom d).congr (fun _ _ => rfl) (congrFun hst.vars.domains d) (fun _ _ _ => Iff.rfl)
      (fun x hx hnone => ?_) (fun _ _ _ => rfl)
    have hxlt := (h.dom d).backed_block hx
    rw [hst.peek x hxlt.1, if_neg (h.free_apart hp hx hnone hk)]
  · -- the bookkeeping words of the ranges lie outside every live block
    have hword : ∀ q N, ranges q = some N → ∀ j, j < 8 → j % 4 = 0 →
        (j = 0 ∨ live (q * 4096 + 4) = none) → (q * 4096 + j) / 4 ≠ (p + k) / 4 := by
      intro q N hq j hj hj4 hor
      obtain ⟨hlo, hN, _⟩ := h.large.within q N hq
      rcases window_cases (h.heap p n hp) with hge | ⟨c, hc1, hc2⟩
      · obtain ⟨hmod, A, hA, hsize, _⟩ := h.large.header p n hp hge
        have hsize := hsize hn
        by_cases hpq : p / 4096 = q
        · have hp4 : p = q * 4096 + 4 := by omega
          rcases hor with rfl | hnone
          · omega
          · rw [hp4, hnone] at hp; cases hp
        · rcases h.large.disjoint _ A q N hA hq hpq with h3 | h3 <;> omega
      · obtain ⟨hpblock, hle⟩ := (h.dom c).live p n hp hc1 hc2
        have hpend := (h.dom c).block_end hpblock
        have hcle := (h.dom c).cursor_le
        have hbase := c.virtBase_bounds
        omega
    refine h.large.congr (fun _ _ => rfl) hst.vars.large (fun _ _ => Iff.rfl) (fun q N hq => ?_)
      (fun q N hq hnone => ?_) (fun _ _ => rfl)
    · have h0 := hword q N hq 0 (by norm_num) rfl (Or.inl rfl)
      rw [Nat.add_zero] at h0
      rw [hst.peek _ (by rw [Nat.mul_div_cancel q (by norm_num)]; exact h.large.backed_first hq),
        if_neg h0]
    · have hdiv : (q * 4096 + 4) / 4096 = q := by omega
      rw [hst.peek _ (by rw [hdiv]; exact h.large.backed_first hq),
        if_neg (hword q N hq 4 (by norm_num) rfl (Or.inr hnone))]

theorem write (h : HeapInv L use live ranges s) {p n k b : ℕ} (hp : live p = some n)
    (hn : n + 4099 < 2 ^ 32) (hk : k < n) :
    ∃ w s', s.peek L.dirFrame (p + k) = some w ∧ w < 2 ^ 32 ∧
      L.storeByte (p + k) b s = .ok () s' ∧ HeapInv L use live ranges s' ∧
      Stored L use (p + k) (setByte w ((p + k) % 4) b) s s' := by
  have hback := h.backed_live hp hn (Nat.le_add_right p k) (by omega)
  obtain ⟨w, hw, hpeek, hload⟩ := h.pages.load hback
  obtain ⟨s', hrun, h', hst⟩ := h.storeLive hp hn hk
    (setByte_lt (b := b) hw (Nat.mod_lt (p + k) (by norm_num : 0 < 4)))
  refine ⟨w, s', hpeek, hw, ?_, h', hst⟩
  unfold Layout.storeByte
  rw [run_bind_ok hload]
  exact hrun

end HeapInv

end RaxzusHeap
