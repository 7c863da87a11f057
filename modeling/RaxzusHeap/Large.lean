import RaxzusHeap.LargePages
import RaxzusHeap.Lib.Extents

/-! # The large domain

`ranges` gives the page count of every range carved from the window of the large domain: a
range starts at a page `q` and is either live (pointer `q * 4096 + 4`, all its pages mapped)
or a slot of the LIFO (page `q` alone mapped).  `LargeInv` ties the ranges to the words in
memory: the header of a live range and the second word of a slot hold the page count, the
first word of a slot holds the link.

`kmalloc_large` first selects a range (`LargeInv.takeSlot`), which leaves a `Hole` among the
ranges, and then maps and enters it (`LargeInv.alloc`); `kfree_large` turns a live range into
the front slot of the LIFO (`LargeInv.free`). -/

namespace RaxzusHeap

open Imperative FirstFit Linked

/-- Number of mapped pages of the range at `q` of length `N`. -/
def held (live : ℕ → Option ℕ) (q N : ℕ) : ℕ := if (live (q * 4096 + 4)).isSome then N else 1

theorem held_live {live : ℕ → Option ℕ} {q n : ℕ} (h : live (q * 4096 + 4) = some n) (N : ℕ) :
    held live q N = N := by simp [held, h]

theorem held_slot {live : ℕ → Option ℕ} {q : ℕ} (h : live (q * 4096 + 4) = none) (N : ℕ) :
    held live q N = 1 := by simp [held, h]

theorem held_le {live : ℕ → Option ℕ} {q N : ℕ} (hN : 1 ≤ N) :
    1 ≤ held live q N ∧ held live q N ≤ N := by
  unfold held
  split_ifs <;> omega

/-- The invariant of the large domain. -/
structure LargeInv (L : Layout) (use : ℕ → Use) (live ranges : ℕ → Option ℕ) (s : State) :
    Prop where
  home : ∃ D, use D = .dir .large
  aligned : s.large.nextVirtAddr % 4096 = 0
  cursor_ge : 0x80000000 ≤ s.large.nextVirtAddr
  cursor_le : s.large.nextVirtAddr ≤ 0xC0000000
  within : Extents.Within ranges 0x80000 (s.large.nextVirtAddr / 4096)
  disjoint : Extents.Disjoint ranges
  header : ∀ p n, live p = some n → 0x80000000 ≤ p → p % 4096 = 4 ∧
    ∃ N, ranges (p / 4096) = some N ∧ (n + 4099 < 2 ^ 32 → n + 4 ≤ 4096 * N) ∧
      s.peek L.dirFrame (p / 4096 * 4096) = some N
  slot : ∀ q N, ranges q = some N → live (q * 4096 + 4) = none →
    s.peek L.dirFrame (q * 4096 + 4) = some N
  chain : ∃ l, Chain (s.peek L.dirFrame) 0 s.large.nextFreeVirt l ∧
    ∀ b, b ∈ l ↔ b % 4096 = 0 ∧ (∃ N, ranges (b / 4096) = some N) ∧ live (b + 4) = none
  backed : ∀ p, 0x80000 ≤ p →
    (Backed use p ↔ ∃ q N, ranges q = some N ∧ q ≤ p ∧ p < q + held live q N)

/-- The kernel variables other than the cursor and the LIFO head agree. -/
structure LargeVars (s s' : State) : Prop where
  domains : s'.domains = s.domains
  pageDirectory : s'.large.pageDirectory = s.large.pageDirectory
  currentIndex : s'.currentIndex = s.currentIndex
  processLists : s'.processLists = s.processLists

theorem LargeVars.trans {s₁ s₂ s₃ : State} (h₁ : LargeVars s₁ s₂) (h₂ : LargeVars s₂ s₃) :
    LargeVars s₁ s₃ :=
  ⟨h₂.domains.trans h₁.domains, h₂.pageDirectory.trans h₁.pageDirectory,
    h₂.currentIndex.trans h₁.currentIndex, h₂.processLists.trans h₁.processLists⟩

theorem SameVars.largeVars {s s' : State} (h : SameVars s s') : LargeVars s s' :=
  ⟨h.domains, by rw [h.large], h.currentIndex, h.processLists⟩

theorem LargeVars.dirAddr {s s' : State} (h : LargeVars s s') (o : Owner) :
    s'.dirAddr o = s.dirAddr o := by
  cases o with
  | cls c => simp only [State.dirAddr, h.domains]
  | large => exact h.pageDirectory
  | proc => rfl

/-- The state after an update of the large domain's record. -/
def State.setLarge (s : State) (f : LargeDomain → LargeDomain) : State :=
  { s with large := f s.large }

theorem modifyLarge_run (f : LargeDomain → LargeDomain) (s : State) :
    modifyLarge f s = .ok () (s.setLarge f) := rfl

@[simp] theorem State.large_setLarge (s : State) (f : LargeDomain → LargeDomain) :
    (s.setLarge f).large = f s.large := rfl

@[simp] theorem State.peek_setLarge (s : State) (f : LargeDomain → LargeDomain) (D : ℕ) :
    (s.setLarge f).peek D = s.peek D := rfl

theorem LargeVars.setLarge (s : State) {f : LargeDomain → LargeDomain}
    (hf : (f s.large).pageDirectory = s.large.pageDirectory) : LargeVars s (s.setLarge f) :=
  ⟨rfl, hf, rfl, rfl⟩

theorem HeapPages.setLarge {L : Layout} {use : ℕ → Use} {s : State} (h : HeapPages L use s)
    {f : LargeDomain → LargeDomain}
    (hf : (f s.large).pageDirectory = s.large.pageDirectory) : HeapPages L use (s.setLarge f) :=
  h.congr rfl (fun _ => rfl) rfl rfl (LargeVars.setLarge s hf).dirAddr

/-- The range on top of the LIFO is long enough for `pages` pages. -/
def Layout.Reuses (L : Layout) (s : State) (pages : ℕ) : Prop :=
  s.large.nextFreeVirt ≠ 0 ∧
    ∃ K, s.peek L.dirFrame (s.large.nextFreeVirt + 4) = some K ∧ pages ≤ K

/-- A range selected for an allocation: apart from all others, inside the window, unmapped. -/
structure Hole (L : Layout) (use : ℕ → Use) (live ranges : ℕ → Option ℕ) (q N : ℕ) (s : State) :
    Prop where
  inv : LargeInv L use live ranges s
  apart : Extents.Apart ranges q N
  lo : 0x80000 ≤ q
  pos : 1 ≤ N
  hi : q + N ≤ s.large.nextVirtAddr / 4096

theorem Hole.unbacked {L : Layout} {use : ℕ → Use} {live ranges : ℕ → Option ℕ} {q N : ℕ} {s : State}
    (h : Hole L use live ranges q N s) (p : ℕ) (h1 : q ≤ p) (h2 : p < q + N) : ¬ Backed use p := by
  intro hb
  have hlo := h.lo
  obtain ⟨a, A, hA, h3, h4⟩ := (h.inv.backed p (by omega)).mp hb
  have h5 := @held_le live a A (h.inv.within a A hA).2.1
  rcases h.apart a A hA with h6 | h6 <;> omega

/-- How the range was selected: carved off the cursor, or taken from the LIFO, which
releases the frame kept for its first page. -/
inductive Slot (use : ℕ → Use) (live ranges : ℕ → Option ℕ) (q N : ℕ) (s : State)
    (use₁ : ℕ → Use) (ranges₁ : ℕ → Option ℕ) (s₁ : State) : Prop where
  | fresh (hq : s.large.nextVirtAddr = q * 4096) (hr : ranges₁ = ranges) (hu : use₁ = use)
      (hc : s₁.large.nextVirtAddr = s.large.nextVirtAddr + N * 4096)
      (hhead : s₁.large.nextFreeVirt = s.large.nextFreeVirt)
      (ha : ∀ g, s₁.allocated g = s.allocated g)
  | reused {K f : ℕ} (hq : s.large.nextFreeVirt = q * 4096) (hK : ranges q = some K) (hN : N ≤ K)
      (hlive : live (q * 4096 + 4) = none) (hr : ranges₁ = Function.update ranges q none)
      (hf : use f = .page q) (hu : use₁ = Function.update use f .free)
      (hc : s₁.large.nextVirtAddr = s.large.nextVirtAddr)
      (ha : ∀ g, s₁.allocated g = (s.unmark f).allocated g)

namespace LargeInv

variable {L : Layout} {use use' : ℕ → Use} {live live' ranges : ℕ → Option ℕ} {s s' : State}

theorem backed_first (h : LargeInv L use live ranges s) {q N : ℕ} (hq : ranges q = some N) :
    Backed use q := by
  obtain ⟨hlo, hN, _⟩ := h.within q N hq
  exact (h.backed q hlo).mpr ⟨q, N, hq, le_rfl, by have := @held_le live q N hN; omega⟩

/-- The invariant rests on the record, the pages and the bookkeeping words of the domain. -/
theorem congr (h : LargeInv L use live ranges s)
    (hhome : ∀ D, use D = .dir .large → use' D = use D) (hlarge : s'.large = s.large)
    (hback : ∀ p, 0x80000 ≤ p → (Backed use' p ↔ Backed use p))
    (hpeek : ∀ q N, ranges q = some N →
      s'.peek L.dirFrame (q * 4096) = s.peek L.dirFrame (q * 4096))
    (hcount : ∀ q N, ranges q = some N → live (q * 4096 + 4) = none →
      s'.peek L.dirFrame (q * 4096 + 4) = s.peek L.dirFrame (q * 4096 + 4))
    (hlive : ∀ p, 0x80000000 ≤ p → live' p = live p) : LargeInv L use' live' ranges s' := by
  have hlive4 : ∀ q N, ranges q = some N → live' (q * 4096 + 4) = live (q * 4096 + 4) :=
    fun q N hq => hlive _ (by have := (h.within q N hq).1; omega)
  exact
    { home := by
        obtain ⟨D, hD⟩ := h.home
        exact ⟨D, by rw [hhome D hD, hD]⟩
      aligned := by rw [hlarge]; exact h.aligned
      cursor_ge := by rw [hlarge]; exact h.cursor_ge
      cursor_le := by rw [hlarge]; exact h.cursor_le
      within := by rw [hlarge]; exact h.within
      disjoint := h.disjoint
      header := fun p n hp hge => by
        rw [hlive p hge] at hp
        obtain ⟨hmod, N, hN, hn, hv⟩ := h.header p n hp hge
        exact ⟨hmod, N, hN, hn, by rw [hpeek _ N hN]; exact hv⟩
      slot := fun q N hq hnone => by
        rw [hlive4 q N hq] at hnone
        rw [hcount q N hq hnone]
        exact h.slot q N hq hnone
      chain := by
        obtain ⟨l, hl, hmem⟩ := h.chain
        rw [hlarge]
        refine ⟨l, hl.congr fun b hb => ?_, fun b => ?_⟩
        · obtain ⟨hmod, ⟨N, hN⟩, _⟩ := (hmem b).mp hb
          have := hpeek _ N hN
          rwa [show b / 4096 * 4096 = b by omega] at this
        · rw [hmem b]
          refine and_congr_right fun hmod => and_congr_right fun ⟨N, hN⟩ => ?_
          have := hlive4 _ N hN
          rw [show b / 4096 * 4096 = b by omega] at this
          rw [this]
      backed := fun p hp => by
        rw [hback p hp, h.backed p hp]
        refine exists_congr fun q => exists_congr fun N => and_congr_right fun hq => ?_
        rw [held, held, hlive4 q N hq] }

/-! ### Selecting a range -/

end LargeInv

/-- The effect of `largeTakeSlot`. -/
structure TookSlot (L : Layout) (use : ℕ → Use) (live ranges : ℕ → Option ℕ) (q N : ℕ) (s : State)
    (use₁ : ℕ → Use) (ranges₁ : ℕ → Option ℕ) (s₁ : State) : Prop where
  pages : HeapPages L use₁ s₁
  hole : Hole L use₁ live ranges₁ q N s₁
  slot : Slot use live ranges q N s use₁ ranges₁ s₁
  vars : LargeVars s s₁
  same : SameHeap L use₁ s s₁
  stale : s₁.stale = s.stale
  maps : ∀ d p e, s₁.maps d p = some e → s.maps d p = some e
  reuse : L.Reuses s N → s₁.large.nextVirtAddr = s.large.nextVirtAddr
  spares : ¬ L.Reuses s N → Spares use s use₁ s₁

namespace LargeInv

variable {L : Layout} {use : ℕ → Use} {live ranges : ℕ → Option ℕ} {s : State}

/-- The range at the cursor. -/
theorem takeCursor (h : HeapPages L use s) (hl : LargeInv L use live ranges s) {N : ℕ}
    (hnot : ¬ L.Reuses s N) (hN : 1 ≤ N) (hfit : s.large.nextVirtAddr + N * 4096 ≤ 0xC0000000) :
    ∃ q s₁, takeCursor N s = .ok (q * 4096) s₁ ∧
      TookSlot L use live ranges q N s use ranges s₁ := by
  have hmod := hl.aligned
  have hge := hl.cursor_ge
  obtain ⟨q, hq⟩ : ∃ q, s.large.nextVirtAddr = q * 4096 :=
    ⟨s.large.nextVirtAddr / 4096, by omega⟩
  have hdiv : s.large.nextVirtAddr / 4096 = q := by omega
  have hnew : u32 (q * 4096 + u32 (N * 4096)) = (q + N) * 4096 := by
    rw [u32_of_lt (n := N * 4096) (by omega), u32_of_lt (by omega), Nat.add_mul]
  set f : LargeDomain → LargeDomain := fun r =>
    { r with nextVirtAddr := u32 (r.nextVirtAddr + u32 (N * 4096)) } with hf
  have hcur : (f s.large).nextVirtAddr = (q + N) * 4096 := by rw [hf]; simp only [hq, hnew]
  have hdiv' : (q + N) * 4096 / 4096 = q + N := by omega
  refine ⟨q, s.setLarge f, ?_, h.setLarge rfl, ?_, ?_, .setLarge s rfl, fun _ _ => rfl, rfl,
    fun _ _ _ hm => hm, fun hr => absurd hr hnot,
    fun _ => Spares.of_mem rfl rfl fun _ _ => rfl⟩
  · unfold RaxzusHeap.takeCursor
    rw [run_bind_ok (run_get s), run_bind_ok (modifyLarge_run f s), hq]
    rfl
  · refine ⟨?_, ?_, by omega, hN, ?_⟩
    · exact
        { home := hl.home
          aligned := by rw [State.large_setLarge, hcur]; omega
          cursor_ge := by rw [State.large_setLarge, hcur]; omega
          cursor_le := by rw [State.large_setLarge, hcur]; omega
          within := by
            rw [State.large_setLarge, hcur, hdiv']
            have := hl.within
            rw [hdiv] at this
            exact this.mono (by omega)
          disjoint := hl.disjoint
          header := hl.header
          slot := hl.slot
          chain := hl.chain
          backed := hl.backed }
    · have := hl.within
      rw [hdiv] at this
      exact .of_end this N
    · rw [State.large_setLarge, hcur, hdiv']
  · refine .fresh hq rfl rfl ?_ rfl (fun _ => rfl)
    rw [State.large_setLarge, hcur, hq, Nat.add_mul]

theorem head (hl : LargeInv L use live ranges s) (hne : s.large.nextFreeVirt ≠ 0) :
    ∃ q K t next, s.large.nextFreeVirt = q * 4096 ∧ ranges q = some K ∧
      live (q * 4096 + 4) = none ∧ s.peek L.dirFrame (q * 4096) = some next ∧
      Chain (s.peek L.dirFrame) 0 next t ∧ q * 4096 ∉ t ∧
      ∀ b, b ∈ q * 4096 :: t ↔
        b % 4096 = 0 ∧ (∃ N, ranges (b / 4096) = some N) ∧ live (b + 4) = none := by
  obtain ⟨l, hch, hmem⟩ := hl.chain
  obtain ⟨next, t, rfl, hnext, ht⟩ := hch.cases_ne hne
  obtain ⟨hmod, ⟨K, hK⟩, hlive⟩ := (hmem _).mp List.mem_cons_self
  have hq : s.large.nextFreeVirt = s.large.nextFreeVirt / 4096 * 4096 := by omega
  have hnd := (List.nodup_cons.mp hch.nodup).1
  refine ⟨s.large.nextFreeVirt / 4096, K, t, next, hq, hK, ?_, ?_, ht, ?_, ?_⟩
  · rwa [← hq]
  · rwa [← hq]
  · rwa [← hq]
  · rwa [← hq]

/-- Taking the front of the LIFO out releases its page. -/
theorem takeHead (h : HeapPages L use s) (hl : LargeInv L use live ranges s) {q K N : ℕ}
    {t : List ℕ} {next : ℕ} (hq : s.large.nextFreeVirt = q * 4096) (hK : ranges q = some K)
    (hN : 1 ≤ N) (hNK : N ≤ K) (hlive : live (q * 4096 + 4) = none)
    (ht : Chain (s.peek L.dirFrame) 0 next t) (hqt : q * 4096 ∉ t)
    (hmem : ∀ b, b ∈ q * 4096 :: t ↔
      b % 4096 = 0 ∧ (∃ N, ranges (b / 4096) = some N) ∧ live (b + 4) = none) :
    ∃ use₁ s₁, L.largeUnmapPage (q * 4096) true
        (s.setLarge fun r => { r with nextFreeVirt := next }) = .ok () s₁ ∧
      TookSlot L use live ranges q N s use₁ (Function.update ranges q none) s₁ := by
  obtain ⟨hlo, _, hhi⟩ := hl.within q K hK
  obtain ⟨f, hf⟩ := hl.backed_first hK
  have h₁ : HeapPages L use (s.setLarge fun r => { r with nextFreeVirt := next }) :=
    h.setLarge rfl
  obtain ⟨s₁, hrun, hrem⟩ := h₁.unmap hf hlo
  have hcur : s₁.large = { s.large with nextFreeVirt := next } := hrem.vars.large
  have hbacked := h.backed_release hf
  have hpeek : ∀ b, Backed use (b / 4096) → b / 4096 ≠ q →
      s₁.peek L.dirFrame b = s.peek L.dirFrame b := fun b hb hne =>
    hrem.same b ((hbacked _).mpr ⟨hb, hne⟩)
  have hstart : ∀ a A, ranges a = some A → a ≠ q → Backed use a ∧ Function.update ranges q none a =
      some A := fun a A ha hne => ⟨hl.backed_first ha, by rw [Function.update_of_ne hne]; exact ha⟩
  refine ⟨_, s₁, hrun, hrem.pages, ⟨?_, .of_removed hl.disjoint hK hNK, hlo, hN, ?_⟩,
    .reused hq hK hNK hlive rfl hf rfl (by rw [hcur]) hrem.alloc,
    (LargeVars.setLarge s rfl).trans hrem.vars.largeVars, fun b hb => hrem.same b hb, hrem.stale,
    fun d p e hm => hrem.sub d p e hm, fun _ => by rw [hcur], fun hnot => absurd ?_ hnot⟩
  rotate_right
  · refine ⟨by omega, K, ?_, hNK⟩
    rw [hq]
    exact hl.slot q K hK hlive
  · exact
      { home := by
          obtain ⟨D, hD⟩ := hl.home
          exact ⟨D, by rw [Function.update_of_ne (by rintro rfl; rw [hf] at hD; cases hD)]; exact hD⟩
        aligned := by rw [hcur]; exact hl.aligned
        cursor_ge := by rw [hcur]; exact hl.cursor_ge
        cursor_le := by rw [hcur]; exact hl.cursor_le
        within := by rw [hcur]; exact hl.within.remove q
        disjoint := hl.disjoint.remove q
        header := fun p n hp hge => by
          obtain ⟨hmod, A, hA, hn, hv⟩ := hl.header p n hp hge
          have hne : p / 4096 ≠ q := by
            intro e
            rw [show q * 4096 + 4 = p by omega, hp] at hlive
            cases hlive
          obtain ⟨hb, hA'⟩ := hstart _ A hA hne
          have hdiv : p / 4096 * 4096 / 4096 = p / 4096 := by omega
          exact ⟨hmod, A, hA', hn, by rw [hpeek _ (by rwa [hdiv]) (by rwa [hdiv])]; exact hv⟩
        slot := fun a A ha hnone => by
          obtain ⟨hne, ha⟩ := Extents.update_none ha
          have hdiv : (a * 4096 + 4) / 4096 = a := by omega
          rw [hpeek _ (by rw [hdiv]; exact (hstart a A ha hne).1) (by rwa [hdiv])]
          exact hl.slot a A ha hnone
        chain := by
          rw [hcur]
          refine ⟨t, ht.congr fun b hb => ?_, fun b => ?_⟩
          · obtain ⟨hmod, ⟨A, hA⟩, _⟩ := (hmem b).mp (List.mem_cons_of_mem _ hb)
            have hne : b / 4096 ≠ q := by
              intro e
              rw [show q * 4096 = b by omega] at hqt
              exact hqt hb
            exact hpeek b (hstart _ A hA hne).1 hne
          · by_cases hbq : b = q * 4096
            · subst hbq
              rw [show q * 4096 / 4096 = q by omega, Function.update_self]
              exact ⟨fun hm => absurd hm hqt, fun hm => by obtain ⟨_, ⟨_, hm⟩, _⟩ := hm; cases hm⟩
            · have h1 : b ∈ t ↔ b ∈ q * 4096 :: t := by simp [hbq]
              rw [h1, hmem b]
              refine and_congr_right fun hmod => ?_
              rw [Function.update_of_ne (show b / 4096 ≠ q by omega)]
        backed := fun p hp => by
          rw [hbacked p, hl.backed p hp]
          constructor
          · rintro ⟨⟨a, A, hA, h1, h2⟩, hne⟩
            have haq : a ≠ q := by
              rintro rfl
              rw [held_slot hlive] at h2
              omega
            exact ⟨a, A, (hstart a A hA haq).2, h1, h2⟩
          · rintro ⟨a, A, hA, h1, h2⟩
            obtain ⟨haq, hA'⟩ := Extents.update_none hA
            refine ⟨⟨a, A, hA', h1, h2⟩, ?_⟩
            rintro rfl
            have h3 := hl.within _ A hA'
            have h4 := @held_le live a A h3.2.1
            have h5 := hl.within _ K hK
            rcases hl.disjoint a A p K hA' hK haq with h6 | h6 <;> omega }
  · rw [hcur]
    show q + N ≤ s.large.nextVirtAddr / 4096
    omega

/-- `largeTakeSlot` selects a range that meets no other range. -/
theorem takeSlot (h : HeapPages L use s) (hl : LargeInv L use live ranges s) {N : ℕ}
    (hN : 1 ≤ N) (hfit : ¬ L.Reuses s N → s.large.nextVirtAddr + N * 4096 ≤ 0xC0000000) :
    ∃ q use₁ ranges₁ s₁, L.largeTakeSlot N s = .ok (q * 4096) s₁ ∧
      TookSlot L use live ranges q N s use₁ ranges₁ s₁ := by
  unfold Layout.largeTakeSlot
  rw [run_bind_ok (run_get s)]
  by_cases hne : s.large.nextFreeVirt ≠ 0
  · obtain ⟨q, K, t, next, hq, hK, hlive, hnext, ht, hqt, hmem⟩ := hl.head hne
    obtain ⟨hlo, _, hhi⟩ := hl.within q K hK
    have hle := hl.cursor_le
    have hcount := hl.slot q K hK hlive
    have hu : u32 (q * 4096 + 4) = q * 4096 + 4 := u32_of_lt (by omega)
    rw [if_pos hne]
    simp only [hq, hu]
    rw [run_bind_ok (L.load_of_peek hcount)]
    by_cases hNK : N ≤ K
    · obtain ⟨use₁, s₁, hrun, htook⟩ := hl.takeHead h hq hK hN hNK hlive ht hqt hmem
      refine ⟨q, use₁, _, s₁, ?_, htook⟩
      rw [if_pos hNK, run_bind_ok (L.load_of_peek hnext), run_bind_ok (modifyLarge_run _ s),
        run_bind_ok hrun]
      rfl
    · have hnot : ¬ L.Reuses s N := by
        rintro ⟨_, K', hK', hle⟩
        rw [hq, hcount] at hK'
        cases hK'
        exact hNK hle
      obtain ⟨q', s₁, hrun, htook⟩ := hl.takeCursor h hnot hN (hfit hnot)
      exact ⟨q', use, ranges, s₁, by rw [if_neg hNK]; exact hrun, htook⟩
  · have hnot : ¬ L.Reuses s N := fun hr => hne hr.1
    obtain ⟨q', s₁, hrun, htook⟩ := hl.takeCursor h hnot hN (hfit hnot)
    exact ⟨q', use, ranges, s₁, by rw [if_neg hne]; exact hrun, htook⟩

/-! ### `kmalloc_large` -/

end LargeInv

/-- Only free frames and frames of large pages change their use, and they become free, page
tables or large pages. -/
structure LargeLabels (use use' : ℕ → Use) : Prop where
  kept : ∀ g, use g ≠ .free → (∀ p, 0x80000 ≤ p → use g ≠ .page p) → use' g = use g
  fresh : ∀ g, use' g = use g ∨ use' g = .free ∨ (∃ d i, use' g = .table d i) ∨
    ∃ p, 0x80000 ≤ p ∧ use' g = .page p
  tables : ∀ c, use c = .dir .proc → ∀ t i, use' t = .table c i → use t = .table c i

theorem LargeLabels.trans {u₁ u₂ u₃ : ℕ → Use} (h₁ : LargeLabels u₁ u₂) (h₂ : LargeLabels u₂ u₃) :
    LargeLabels u₁ u₃ := by
  refine ⟨fun g hg hp => ?_, fun g => ?_, fun c hc t i ht => ?_⟩
  · have h := h₁.kept g hg hp
    rw [h₂.kept g (by rw [h]; exact hg) (by rw [h]; exact hp), h]
  · rcases h₂.fresh g with h | h
    · rw [h]; exact h₁.fresh g
    · exact Or.inr h
  · have hc' : u₂ c = .dir .proc := by
      rw [h₁.kept c (by rw [hc]; simp) (by rw [hc]; simp), hc]
    exact h₁.tables c hc t i (h₂.tables c hc' t i ht)

/-- The effect of `kmalloc_large` for `n` bytes on the range it entered. -/
structure Carved (L : Layout) (use : ℕ → Use) (live ranges : ℕ → Option ℕ) (n q : ℕ) (s : State)
    (use' : ℕ → Use) (s' : State) : Prop where
  pages : HeapPages L use' s'
  inv : LargeInv L use' (Function.update live (q * 4096 + 4) (some n))
    (Function.update ranges q (some (largePages n))) s'
  took : ∃ use₁ ranges₁ s₁, TookSlot L use live ranges q (largePages n) s use₁ ranges₁ s₁
  fresh : live (q * 4096 + 4) = none
  lo : 0x80000 ≤ q
  backed : ∀ p, Backed use' p ↔ Backed use p ∨ (q ≤ p ∧ p < q + largePages n)
  same : ∀ b, Backed use (b / 4096) → (b / 4096 < q ∨ q + largePages n ≤ b / 4096) →
    s'.peek L.dirFrame b = s.peek L.dirFrame b
  vars : LargeVars s s'
  labels : LargeLabels use use'
  stale : s'.stale = false → s.stale = false
  spares : ¬ L.Reuses s (largePages n) → Spares use s use' s'
  cursor : s'.large.nextVirtAddr = s.large.nextVirtAddr ∨
    (s.large.nextVirtAddr = q * 4096 ∧
      s'.large.nextVirtAddr = s.large.nextVirtAddr + largePages n * 4096)

/-- What a page fault inside `kmalloc_large` leaves. -/
structure LargeFaulted (L : Layout) (s s' : State) : Prop where
  direct : L.DirectMap s'
  maps : ∀ d p e, s'.maps d p = some e → s.maps d p = some e ∨ (0x80000 ≤ p ∧ p < 0xC0000)
  cursor_ge : 0x80000000 ≤ s'.large.nextVirtAddr
  cursor_le : s'.large.nextVirtAddr ≤ 0xC0000000
  vars : LargeVars s s'

section Labels

variable {L : Layout} {use use₁ use' : ℕ → Use} {live ranges ranges₁ : ℕ → Option ℕ}
  {q N : ℕ} {s s₁ t : State}

theorem TookSlot.labels (h : TookSlot L use live ranges q N s use₁ ranges₁ s₁) :
    LargeLabels use use₁ := by
  have hlo := h.hole.lo
  cases h.slot with
  | fresh hq hr hu hc hhead ha =>
      subst hu
      exact ⟨fun _ _ _ => rfl, fun _ => Or.inl rfl, fun _ _ _ _ ht => ht⟩
  | @reused K f hq hK hN hlive hr hf hu hc ha =>
      subst hu
      refine ⟨fun g _ hp => ?_, fun g => ?_, fun c _ t i ht => ?_⟩
      · rw [Function.update_of_ne (by rintro rfl; exact hp q hlo hf)]
      · by_cases hgf : g = f
        · subst hgf; exact Or.inr (Or.inl (Function.update_self ..))
        · rw [Function.update_of_ne hgf]; exact Or.inl rfl
      · have htf : t ≠ f := by rintro rfl; rw [Function.update_self] at ht; cases ht
        rwa [Function.update_of_ne htf] at ht

theorem Filled.largeLabels (h : Filled L q N use s use' t) (hlo : 0x80000 ≤ q) :
    LargeLabels use use' := by
  refine ⟨fun g hg _ => h.kept g hg, fun g => ?_, h.tables⟩
  by_cases hg : use g = .free
  · rcases h.fresh g hg with h1 | h1 | ⟨p, h1, _, h2⟩
    · exact Or.inr (Or.inl h1)
    · exact Or.inr (Or.inr (Or.inl h1))
    · exact Or.inr (Or.inr (Or.inr ⟨p, by omega, h2⟩))
  · exact Or.inl (h.kept g hg)

theorem TookSlot.backed (h : TookSlot L use live ranges q N s use₁ ranges₁ s₁)
    (hp : HeapPages L use s) (p : ℕ) :
    Backed use₁ p ∨ (q ≤ p ∧ p < q + N) ↔ Backed use p ∨ (q ≤ p ∧ p < q + N) := by
  have hN := h.hole.pos
  cases h.slot with
  | fresh hq hr hu hc hhead ha => subst hu; exact Iff.rfl
  | @reused K f hq hK hN' hlive hr hf hu hc ha =>
      subst hu
      rw [hp.backed_release hf]
      constructor
      · rintro (⟨hb, _⟩ | hb)
        · exact Or.inl hb
        · exact Or.inr hb
      · rintro (hb | hb)
        · by_cases hpq : p = q
          · exact Or.inr (by omega)
          · exact Or.inl ⟨hb, hpq⟩
        · exact Or.inr hb

theorem TookSlot.backed_of_ne (h : TookSlot L use live ranges q N s use₁ ranges₁ s₁)
    (hp : HeapPages L use s) {p : ℕ} (hb : Backed use p) (hpq : p < q ∨ q + N ≤ p) :
    Backed use₁ p := by
  have hN := h.hole.pos
  rcases (h.backed hp p).mpr (Or.inl hb) with h1 | h1
  · exact h1
  · omega

theorem TookSlot.ranges_update (h : TookSlot L use live ranges q N s use₁ ranges₁ s₁) :
    Function.update ranges₁ q (some N) = Function.update ranges q (some N) := by
  cases h.slot with
  | fresh hq hr hu hc hhead ha => rw [hr]
  | reused hq hK hN hlive hr hf hu hc ha => rw [hr, Function.update_idem]

theorem TookSlot.cursor (h : TookSlot L use live ranges q N s use₁ ranges₁ s₁) :
    s₁.large.nextVirtAddr = s.large.nextVirtAddr ∨
      (s.large.nextVirtAddr = q * 4096 ∧
        s₁.large.nextVirtAddr = s.large.nextVirtAddr + N * 4096) := by
  cases h.slot with
  | fresh hq hr hu hc hhead ha => exact Or.inr ⟨hq, hc⟩
  | reused hq hK hN hlive hr hf hu hc ha => exact Or.inl hc

end Labels

namespace LargeInv

variable {L : Layout} {use use₁ use' : ℕ → Use} {live ranges ranges₁ : ℕ → Option ℕ}
  {s s₁ t s' : State}

theorem live_of_none (hl : LargeInv L use live ranges s) {q : ℕ} (hlo : 0x80000 ≤ q)
    (hq : ranges q = none) : live (q * 4096 + 4) = none := by
  cases hlive : live (q * 4096 + 4) with
  | none => rfl
  | some n =>
      obtain ⟨_, N, hN, _⟩ := hl.header _ n hlive (by omega)
      rw [show (q * 4096 + 4) / 4096 = q by omega, hq] at hN
      cases hN

/-- Entering a filled hole among the ranges, once its header is written. -/
theorem enter {q N n : ℕ} (hole : Hole L use₁ live ranges₁ q N s₁)
    (hfill : Filled L q N use₁ s₁ use' t) (hst : Stored L use' (q * 4096) N t s')
    (hn : n + 4099 < 2 ^ 32 → n + 4 ≤ 4096 * N) :
    LargeInv L use' (Function.update live (q * 4096 + 4) (some n))
      (Function.update ranges₁ q (some N)) s' := by
  have hl := hole.inv
  have hlo := hole.lo
  have hnone : ranges₁ q = none := hole.apart.not_start hole.pos hl.within
  have hqlive := hl.live_of_none hlo hnone
  have hcur : s'.large = s₁.large := hst.vars.large.trans hfill.vars.large
  have hne : ∀ a A, ranges₁ a = some A → a ≠ q := fun a A ha e => by
    rw [e, hnone] at ha; cases ha
  have hrange : ∀ a A, ranges₁ a = some A →
      Function.update ranges₁ q (some N) a = some A := fun a A ha => by
    rw [Function.update_of_ne (hne a A ha)]; exact ha
  -- the bookkeeping words of the other ranges
  have hpeek : ∀ a A k, ranges₁ a = some A → k < 4096 →
      s'.peek L.dirFrame (a * 4096 + k) = s₁.peek L.dirFrame (a * 4096 + k) := by
    intro a A k ha hk
    have hdiv : (a * 4096 + k) / 4096 = a := by omega
    have hb : Backed use₁ ((a * 4096 + k) / 4096) := by rw [hdiv]; exact hl.backed_first ha
    have haq := hne a A ha
    rw [hst.peek _ ((hfill.backed _).mpr (Or.inl hb)), if_neg (by omega), hfill.same _ hb]
  have hpeek0 : ∀ a A, ranges₁ a = some A →
      s'.peek L.dirFrame (a * 4096) = s₁.peek L.dirFrame (a * 4096) := fun a A ha => by
    have := hpeek a A 0 ha (by norm_num)
    rwa [Nat.add_zero] at this
  have hqb : Backed use' (q * 4096 / 4096) :=
    (hfill.backed _).mpr (Or.inr (by have := hole.pos; omega))
  have hlive' : ∀ a A, ranges₁ a = some A →
      Function.update live (q * 4096 + 4) (some n) (a * 4096 + 4) = live (a * 4096 + 4) :=
    fun a A ha => by
      have haq := hne a A ha
      rw [Function.update_of_ne (by omega)]
  exact
    { home := by
        obtain ⟨D, hD⟩ := hl.home
        exact ⟨D, by rw [hfill.kept D (by rw [hD]; simp), hD]⟩
      aligned := by rw [hcur]; exact hl.aligned
      cursor_ge := by rw [hcur]; exact hl.cursor_ge
      cursor_le := by rw [hcur]; exact hl.cursor_le
      within := by rw [hcur]; exact hl.within.insert hlo hole.pos hole.hi
      disjoint := hl.disjoint.insert hole.apart
      header := fun p k hp hge => by
        by_cases hpq : p = q * 4096 + 4
        · subst hpq
          rw [Function.update_self] at hp
          cases hp
          have hdiv : (q * 4096 + 4) / 4096 = q := by omega
          refine ⟨by omega, N, by rw [hdiv, Function.update_self], hn, ?_⟩
          rw [hdiv, hst.peek _ hqb, if_pos rfl]
        · rw [Function.update_of_ne hpq] at hp
          obtain ⟨hmod, A, hA, hk, hv⟩ := hl.header p k hp hge
          exact ⟨hmod, A, hrange _ A hA, hk, by rw [hpeek0 _ A hA]; exact hv⟩
      slot := fun a A ha hnone' => by
        rcases Extents.update_some ha with ⟨rfl, rfl⟩ | ⟨haq, ha'⟩
        · rw [Function.update_self] at hnone'; cases hnone'
        · rw [hlive' a A ha'] at hnone'
          rw [hpeek a A 4 ha' (by norm_num)]
          exact hl.slot a A ha' hnone'
      chain := by
        obtain ⟨l, hch, hmem⟩ := hl.chain
        rw [hcur]
        refine ⟨l, hch.congr fun b hb => ?_, fun b => ?_⟩
        · obtain ⟨hmod, ⟨A, hA⟩, _⟩ := (hmem b).mp hb
          have := hpeek0 _ A hA
          rwa [show b / 4096 * 4096 = b by omega] at this
        · rw [hmem b]
          refine and_congr_right fun hmod => ?_
          by_cases hbq : b / 4096 = q
          · have hb4 : b + 4 = q * 4096 + 4 := by omega
            rw [hbq, hnone, hb4, Function.update_self]
            simp
          · rw [Function.update_of_ne hbq, Function.update_of_ne (by omega)]
      backed := fun p hp => by
        rw [hfill.backed p, hl.backed p hp]
        constructor
        · rintro (⟨a, A, hA, h1, h2⟩ | ⟨h1, h2⟩)
          · exact ⟨a, A, hrange a A hA, h1, by rwa [held, hlive' a A hA]⟩
          · exact ⟨q, N, Function.update_self .., h1, by
              rw [held_live (Function.update_self ..)]; exact h2⟩
        · rintro ⟨a, A, hA, h1, h2⟩
          rcases Extents.update_some hA with ⟨rfl, rfl⟩ | ⟨haq, hA'⟩
          · rw [held_live (Function.update_self ..)] at h2
            exact Or.inr ⟨h1, h2⟩
          · rw [held, hlive' a A hA'] at h2
            exact Or.inl ⟨a, A, hA', h1, h2⟩ }

/-- `kmalloc_large` enters a new live range, as long as three frames below `m` are clear
whenever it maps a page. -/
theorem alloc (h : HeapPages L use s) (hl : LargeInv L use live ranges s) {n m : ℕ}
    (hm : m ≤ 0x50000) (hn0 : n ≠ 0) (hN : 1 ≤ largePages n)
    (hfit : ¬ L.Reuses s (largePages n) →
      s.large.nextVirtAddr + largePages n * 4096 ≤ 0xC0000000)
    (R : State → Prop)
    (hmono : ∀ t t', (∀ g, t.allocated g = true → t'.allocated g = true) → R t' → R t)
    (hroom : ∀ use' t, HeapPages L use' t → LargeLabels use use' → R t →
      Room t.allocated 3 m) :
    Ends (L.kmallocLarge n) s
      (fun a s' => R s' → ∃ q use', a = q * 4096 + 4 ∧ Carved L use live ranges n q s use' s')
      (fun s' => R s' → 0x40000 < m ∧ LargeFaulted L s s') := by
  obtain ⟨q, use₁, ranges₁, s₁, hslot, htook⟩ := hl.takeSlot h hN hfit
  have hole := htook.hole
  have hlo := hole.lo
  have hcle := hole.inv.cursor_le
  have hhi := hole.hi
  obtain ⟨D, hD⟩ := hole.inv.home
  unfold Layout.kmallocLarge
  rw [if_neg hn0]
  refine Ends.bind_ok hslot ?_
  refine Ends.bind ((L.largeMapLoop_ends htook.pages hm hD hlo (by omega) hole.unbacked R hmono
    (fun i use' t _ hfill hR => hroom use' t hfill.pages
      (htook.labels.trans (hfill.largeLabels hlo)) hR)).mono (fun _ _ hq => hq) ?_) ?_
  · intro t hI hR
    obtain ⟨hlt, hf⟩ := hI hR
    refine ⟨hlt, hf.direct, fun d p e hm => ?_, by rw [hf.vars.large]; exact hole.inv.cursor_ge,
      by rw [hf.vars.large]; exact hcle, htook.vars.trans hf.vars.largeVars⟩
    rcases hf.maps d p e hm with hm | hp
    · exact Or.inl (htook.maps d p e hm)
    · exact Or.inr (by omega)
  intro b t hI
  by_cases hR : R t
  · obtain ⟨rfl, use', hfill⟩ := hI hR
    have hlt := largePages_lt n
    have hdiv : q * 4096 / 4096 = q := by omega
    obtain ⟨s', hrun, hp', hst⟩ := hfill.pages.store (a := q * 4096) (v := largePages n)
      (by rw [hdiv, hfill.backed]; exact Or.inr (by omega)) (by omega)
    simp only [if_true]
    refine Ends.bind_ok hrun (Ends.of_ok rfl fun _ => ⟨q, use', u32_of_lt (by omega), ?_⟩)
    exact
      { pages := hp'
        inv := by
          rw [← htook.ranges_update]
          exact enter hole hfill hst largePages_size
        took := ⟨use₁, ranges₁, s₁, htook⟩
        fresh := hole.inv.live_of_none hlo (hole.apart.not_start hole.pos hole.inv.within)
        lo := hlo
        backed := fun p => by rw [hfill.backed p, htook.backed h]
        same := fun b hb hne => by
          have hb₁ := htook.backed_of_ne h hb hne
          rw [hst.peek b ((hfill.backed _).mpr (Or.inl hb₁)), if_neg (by omega), hfill.same b hb₁,
            htook.same b hb₁]
        vars := htook.vars.trans (hfill.vars.trans hst.vars).largeVars
        labels := htook.labels.trans (hfill.largeLabels hlo)
        stale := fun hst' => by
          rw [hst.stale] at hst'
          rw [← htook.stale]
          exact hfill.stale hst'
        spares := fun hnot => ((htook.spares hnot).trans hfill.spares).trans hst.spares
        cursor := by
          rw [hst.vars.large, hfill.vars.large]
          exact htook.cursor }
  · refine (ends_of_not (fun g => ?_) hmono hR).mono (fun _ u hu hr => absurd hr hu)
      (fun u hu hr => absurd hr hu)
    split_ifs
    · exact ((stable_allocated g).store L _ _).bind fun _ => Keeps.pure _ _
    · exact Keeps.pure _ _

/-! ### `kfree_large` -/

end LargeInv

/-- The effect of `kfree_large` on the live range at `q` of length `N`. -/
structure Returned (L : Layout) (use : ℕ → Use) (live ranges : ℕ → Option ℕ) (q N : ℕ) (s : State)
    (use' : ℕ → Use) (s' : State) : Prop where
  pages : HeapPages L use' s'
  inv : LargeInv L use' (Function.update live (q * 4096 + 4) none) ranges s'
  range : ranges q = some N
  lo : 0x80000 ≤ q
  freed : ∀ g p, use g = .page p → q + 1 ≤ p → p < q + N → use' g = .free
  kept : ∀ g, (∀ p, use g = .page p → p < q + 1 ∨ q + N ≤ p) → use' g = use g
  backed : ∀ p, Backed use' p ↔ Backed use p ∧ (p < q + 1 ∨ q + N ≤ p)
  same : ∀ b, Backed use' (b / 4096) → b / 4096 ≠ q → s'.peek L.dirFrame b = s.peek L.dirFrame b
  vars : LargeVars s s'
  stale : s'.stale = s.stale
  cursor : s'.large.nextVirtAddr = s.large.nextVirtAddr

theorem Returned.labels {L : Layout} {use use' : ℕ → Use} {live ranges : ℕ → Option ℕ}
    {q N : ℕ} {s s' : State} (h : Returned L use live ranges q N s use' s') :
    LargeLabels use use' := by
  have hlo := h.lo
  have hcases : ∀ g, use' g = use g ∨ use' g = .free := by
    intro g
    by_cases hin : ∃ p, use g = .page p ∧ q + 1 ≤ p ∧ p < q + N
    · obtain ⟨p, hg, h1, h2⟩ := hin
      exact Or.inr (h.freed g p hg h1 h2)
    · refine Or.inl (h.kept g fun p hg => ?_)
      by_contra hc
      exact hin ⟨p, hg, by omega, by omega⟩
  refine ⟨fun g _ hp => h.kept g fun p hg => ?_, fun g => (hcases g).imp_right Or.inl,
    fun c _ t i ht => ?_⟩
  · by_contra hc
    exact hp p (by omega) hg
  · cases hcases t with
    | inl hold => rwa [hold] at ht
    | inr hfree => rw [hfree] at ht; cases ht

namespace LargeInv

variable {L : Layout} {use use' : ℕ → Use} {live ranges : ℕ → Option ℕ} {s t s₁ s₂ s' : State}

/-- A live range becomes the front slot of the LIFO. -/
theorem leave (hl : LargeInv L use live ranges s) {q N n : ℕ} (hq : ranges q = some N)
    (hlive : live (q * 4096 + 4) = some n) (hrel : Released L (q + 1) (q + N) use s use' t)
    (hlink : Stored L use' (q * 4096) s.large.nextFreeVirt t s₁)
    (hcount : Stored L use' (q * 4096 + 4) N s₁ s₂) :
    LargeInv L use' (Function.update live (q * 4096 + 4) none) ranges
      (s₂.setLarge fun r => { r with nextFreeVirt := q * 4096 }) := by
  obtain ⟨hlo, hN, _⟩ := hl.within q N hq
  have hlarge : s₂.large = s.large :=
    hcount.vars.large.trans (hlink.vars.large.trans hrel.vars.large)
  have hbq : Backed use' q := (hrel.backed q).mpr ⟨hl.backed_first hq, Or.inl (by omega)⟩
  have hfirst : ∀ a A, ranges a = some A → Backed use' a := fun a A ha => by
    refine (hrel.backed a).mpr ⟨hl.backed_first ha, ?_⟩
    by_cases haq : a = q
    · exact Or.inl (by omega)
    · have hA := (hl.within a A ha).2.1
      rcases hl.disjoint a A q N ha hq haq with h1 | h1 <;> omega
  -- the bookkeeping words of the other ranges
  have hpeek : ∀ a A k, ranges a = some A → a ≠ q → k < 4096 →
      s₂.peek L.dirFrame (a * 4096 + k) = s.peek L.dirFrame (a * 4096 + k) := by
    intro a A k ha haq hk
    have hdiv : (a * 4096 + k) / 4096 = a := by omega
    have hb : Backed use' ((a * 4096 + k) / 4096) := by rw [hdiv]; exact hfirst a A ha
    rw [hcount.peek _ hb, if_neg (by omega), hlink.peek _ hb, if_neg (by omega), hrel.same _ hb]
  have hpeek0 : ∀ a A, ranges a = some A → a ≠ q →
      s₂.peek L.dirFrame (a * 4096) = s.peek L.dirFrame (a * 4096) := fun a A ha haq => by
    have := hpeek a A 0 ha haq (by norm_num)
    rwa [Nat.add_zero] at this
  have hlive' : ∀ a, a ≠ q →
      Function.update live (q * 4096 + 4) none (a * 4096 + 4) = live (a * 4096 + 4) :=
    fun a haq => Function.update_of_ne (by omega) _ _
  exact
    { home := by
        obtain ⟨D, hD⟩ := hl.home
        exact ⟨D, by rw [hrel.kept D (fun p hp => by rw [hD] at hp; cases hp), hD]⟩
      aligned := by rw [State.large_setLarge, hlarge]; exact hl.aligned
      cursor_ge := by rw [State.large_setLarge, hlarge]; exact hl.cursor_ge
      cursor_le := by rw [State.large_setLarge, hlarge]; exact hl.cursor_le
      within := by rw [State.large_setLarge, hlarge]; exact hl.within
      disjoint := hl.disjoint
      header := fun p k hp hge => by
        have hpq : p ≠ q * 4096 + 4 := by
          rintro rfl
          rw [Function.update_self] at hp; cases hp
        rw [Function.update_of_ne hpq] at hp
        obtain ⟨hmod, A, hA, hk, hv⟩ := hl.header p k hp hge
        exact ⟨hmod, A, hA, hk, by
          rw [State.peek_setLarge, hpeek0 _ A hA (by omega)]; exact hv⟩
      slot := fun a A ha hnone => by
        rw [State.peek_setLarge]
        by_cases haq : a = q
        · subst haq
          rw [hq] at ha
          cases ha
          have hdiv : (a * 4096 + 4) / 4096 = a := by omega
          rw [hcount.peek _ (by rw [hdiv]; exact hbq), if_pos rfl]
        · rw [hlive' a haq] at hnone
          rw [hpeek a A 4 ha haq (by norm_num)]
          exact hl.slot a A ha hnone
      chain := by
        obtain ⟨l, hch, hmem⟩ := hl.chain
        have hdiv : q * 4096 / 4096 = q := by omega
        have hnotin : q * 4096 ∉ l := fun hm => by
          have := ((hmem _).mp hm).2.2
          rw [hlive] at this; cases this
        have hq0 : q * 4096 ≠ 0 := by omega
        change ∃ l, Chain (s₂.peek L.dirFrame) 0 (q * 4096) l ∧ _
        refine ⟨q * 4096 :: l, hch.push hq0 hnotin ?_ (fun c hcq hc => ?_), fun b => ?_⟩
        · rw [hcount.peek _ (by rw [hdiv]; exact hbq), if_neg (by omega),
            hlink.peek _ (by rw [hdiv]; exact hbq), if_pos rfl]
        · obtain ⟨hmod, ⟨A, hA⟩, _⟩ := (hmem c).mp hc
          have := hpeek0 _ A hA (by omega)
          rwa [show c / 4096 * 4096 = c by omega] at this
        · rw [List.mem_cons]
          by_cases hbq : b = q * 4096
          · subst hbq
            rw [hdiv, hq, Function.update_self]
            simp
          · rw [hmem b]
            constructor
            · rintro (hb | ⟨hmod, hr, hn⟩)
              · exact absurd hb hbq
              · exact ⟨hmod, hr, by rw [Function.update_of_ne (by omega)]; exact hn⟩
            · rintro ⟨hmod, hr, hn⟩
              rw [Function.update_of_ne (by omega)] at hn
              exact Or.inr ⟨hmod, hr, hn⟩
      backed := fun p hp => by
        rw [hrel.backed p, hl.backed p hp]
        constructor
        · rintro ⟨⟨a, A, hA, h1, h2⟩, h3⟩
          by_cases haq : a = q
          · subst haq
            rw [hq] at hA
            cases hA
            rw [held_live hlive] at h2
            exact ⟨a, N, hq, h1, by rw [held_slot (Function.update_self ..)]; omega⟩
          · exact ⟨a, A, hA, h1, by rw [held, hlive' a haq]; exact h2⟩
        · rintro ⟨a, A, hA, h1, h2⟩
          by_cases haq : a = q
          · subst haq
            rw [held_slot (Function.update_self ..)] at h2
            exact ⟨⟨a, N, hq, h1, by rw [held_live hlive]; omega⟩, Or.inl (by omega)⟩
          · rw [held, hlive' a haq] at h2
            refine ⟨⟨a, A, hA, h1, h2⟩, ?_⟩
            have h4 := @held_le live a A (hl.within a A hA).2.1
            rw [held] at h4
            rcases hl.disjoint a A q N hA hq haq with h5 | h5 <;> omega }

/-- `kfree_large` of a live pointer. -/
theorem free (h : HeapPages L use s) (hl : LargeInv L use live ranges s) {p n : ℕ}
    (hp : live p = some n) (hge : 0x80000000 ≤ p) :
    ∃ q N use' s', p = q * 4096 + 4 ∧ L.kfreeLarge p s = .ok () s' ∧
      Returned L use live ranges q N s use' s' := by
  obtain ⟨hmod, N, hN, _, hv⟩ := hl.header p n hp hge
  obtain ⟨q, rfl⟩ : ∃ q, p = q * 4096 + 4 := ⟨p / 4096, by omega⟩
  have hdiv : (q * 4096 + 4) / 4096 = q := by omega
  rw [hdiv] at hN hv
  obtain ⟨hlo, hN1, hhi⟩ := hl.within q N hN
  have hcle := hl.cursor_le
  have hp0 : ¬ q * 4096 + 4 = 0 := by omega
  have hq0 : q * 4096 / 4096 = q := Nat.mul_div_cancel q (by norm_num)
  have hN32 : N < 2 ^ 32 := by omega
  have hhead : s.large.nextFreeVirt < 2 ^ 32 := by
    by_cases hne : s.large.nextFreeVirt ≠ 0
    · obtain ⟨a, K, _, _, ha, hK, _⟩ := hl.head hne
      have := (hl.within a K hK).2.2
      omega
    · omega
  obtain ⟨use', t, hloop, hrel⟩ := L.unmapLoop h hN1 hlo (by omega) (fun x h1 h2 =>
    (hl.backed x (by omega)).mpr ⟨q, N, hN, by omega, by rw [held_live hp]; exact h2⟩)
  have hbq : Backed use' q := (hrel.backed q).mpr ⟨hl.backed_first hN, Or.inl (by omega)⟩
  obtain ⟨s₁, hrun₁, hp₁, hlink⟩ := hrel.pages.store (a := q * 4096)
    (by rw [hq0]; exact hbq) hhead
  obtain ⟨s₂, hrun₂, hp₂, hcount⟩ := hp₁.store (a := q * 4096 + 4) (v := N)
    (by rw [hdiv]; exact hbq) hN32
  have hu4 : u32 (q * 4096 + 4) = q * 4096 + 4 := u32_of_lt (by omega)
  have hstart : u32Sub (q * 4096 + 4) 4 = q * 4096 := by
    clear hu4
    unfold u32Sub
    omega
  refine ⟨q, N, use', s₂.setLarge fun r => { r with nextFreeVirt := q * 4096 }, rfl, ?_, ?_⟩
  · unfold Layout.kfreeLarge
    rw [if_neg hp0]
    simp only [hstart, hu4]
    rw [run_bind_ok (L.load_of_peek hv), run_bind_ok hloop, run_bind_ok (run_get t),
      hrel.vars.large, run_bind_ok hrun₁, run_bind_ok hrun₂]
    rfl
  · exact
      { pages := hp₂.setLarge rfl
        inv := hl.leave hN hp hrel hlink hcount
        range := hN
        lo := hlo
        freed := hrel.freed
        kept := hrel.kept
        backed := hrel.backed
        same := fun b hb hbne => by
          rw [State.peek_setLarge, hcount.peek b hb, if_neg (by omega), hlink.peek b hb,
            if_neg (by omega), hrel.same b hb]
        vars := ((hrel.vars.trans hlink.vars).trans hcount.vars).largeVars.trans
          (.setLarge s₂ rfl)
        stale := hcount.stale.trans (hlink.stale.trans hrel.stale)
        cursor := by
          rw [State.large_setLarge]
          show s₂.large.nextVirtAddr = _
          rw [hcount.vars.large, hlink.vars.large, hrel.vars.large] }

end LargeInv

end RaxzusHeap
