import RaxzusHeap.LargeRuns

/-! # Virtual space of the large domain

As long as a slot is only reused for exactly the pages it has, every page below the cursor
belongs to a live allocation or to a slot, and a range keeps its page count for good
(`large_space_conserved`).  A smaller request takes the whole slot and records the smaller
count, which loses the rest (`reuse_loses_pages`). -/

namespace RaxzusHeap

open Imperative FirstFit Linked Extents

/-- Each page from the base of the window up to the cursor belongs to a live allocation or to
a slot, and no page belongs to two of them. -/
structure SpaceConserved (L : Layout) (live : ℕ → Option ℕ) (slots : List ℕ) (s : State) :
    Prop where
  exact : ∀ p, (0x80000 ≤ p ∧ p * 4096 < s.large.nextVirtAddr) ↔
    ∃ a N, LargeRange L live slots s a N ∧ a ≤ p * 4096 ∧ p * 4096 < a + 4096 * N
  disjoint : ∀ a N a' N', LargeRange L live slots s a N → LargeRange L live slots s a' N' →
    a ≠ a' → a + 4096 * N ≤ a' ∨ a' + 4096 * N' ≤ a

section Runs

variable {L : Layout} {use : ℕ → Use} {live ranges : ℕ → Option ℕ} {s : State}

/-- The cover of the window, as the invariant of a run. -/
def Covered (ranges : ℕ → Option ℕ) (s : State) : Prop :=
  Covers ranges 0x80000 (s.large.nextVirtAddr / 4096)

/-- An exact call keeps the cover and all ranges that were there. -/
theorem Effect.covered {c : HeapCall} {use' : ℕ → Use} {ranges' : ℕ → Option ℕ}
    (h : LargeHeap L use c.live ranges c.before)
    (he : Effect L use c.live ranges c.before c.op c.result use' ranges' c.after)
    (hG : LargeExact L c) (hr : L.heapCall c.op c.before = .ok c.result c.after)
    (hcov : Covered ranges c.before) :
    Covered ranges' c.after ∧ ∀ q N, ranges q = some N → ranges' q = some N := by
  obtain ⟨live, s, op, a, s'⟩ := c
  obtain ⟨hop, hexact⟩ := hG
  dsimp only at *
  unfold Covered at *
  cases he with
  | popped hsmall => rw [hop.op] at hsmall; cases hsmall
  | pushed _ _ _ _ hothers =>
      rw [hothers.large]
      exact ⟨hcov, fun _ _ hq => hq⟩
  | @carved _ n q _ _ hlarge hc =>
      have hn0 : n ≠ 0 := by
        rintro rfl
        have hzero : L.heapCall op s = .ok 0 s := by
          cases op with
          | kmallocLarge size => cases hlarge; rfl
          | kmalloc size =>
              simp only [HeapOp.large] at hlarge
              split_ifs at hlarge with hcls
              cases hlarge
              cases hcls
          | domainAlloc | domainFree | kfreeLarge | kfree | write => cases hlarge
        rw [hzero] at hr
        cases hr
      obtain ⟨use₁, ranges₁, s₁, htook⟩ := hc.took
      have hlarge' := hc.cursor
      cases htook.slot with
      | @fresh hq hr₁ _ hc₁ _ _ =>
          subst hr₁
          have hdiv : s.large.nextVirtAddr / 4096 = q := by omega
          have hwithin := h.heap.large.within
          rw [hdiv] at hcov hwithin
          have hcur : s'.large.nextVirtAddr / 4096 = q + largePages n := by
            have hle := hc.inv.within q (largePages n) (Function.update_self ..)
            omega
          refine ⟨?_, ?_⟩
          · rw [hcur]
            exact hcov.carve hwithin
          · intro q' N hq'
            have hlt := hwithin q' N hq'
            rw [Function.update_of_ne (by omega)]
            exact hq'
      | @reused K f hq hK hN hlive _ _ _ hc₁ _ =>
          have hslot := h.heap.large.slot q K hK hlive
          have hlo := hc.lo
          have hreuse : L.Reuses s (largePages n) := by
            refine ⟨by omega, K, ?_, hN⟩
            rw [hq]
            exact hslot
          have hcount := hexact n hlarge hn0 hreuse
          rw [hq, hslot] at hcount
          cases hcount
          have hsame : Function.update ranges q (some (largePages n)) = ranges := by
            rw [← hK]
            exact Function.update_eq_self q ranges
          have hcur : s'.large.nextVirtAddr = s.large.nextVirtAddr := by
            cases hlarge' with
            | inl heq => exact heq
            | inr hmoved =>
                -- the slot would start at the cursor
                have hwithin := h.heap.large.within q _ hK
                omega
          rw [hsame, hcur]
          exact ⟨hcov, fun _ _ hq => hq⟩
  | returned _ _ hret =>
      rw [hret.cursor]
      exact ⟨hcov, fun _ _ hq => hq⟩
  | wrote _ _ _ _ hst =>
      rw [hst.vars.large]
      exact ⟨hcov, fun _ _ hq => hq⟩
  | refused => exact ⟨hcov, fun _ _ hq => hq⟩

theorem HeapRun.largeExact (h : HeapRun L (LargeExact L) live s) :
    ∃ use ranges, LargeHeap L use live ranges s ∧ Covered ranges s := by
  apply h.invariant (I := fun live s => ∃ use ranges, LargeHeap L use live ranges s ∧
    Covered ranges s)
  · intro use m t hb
    refine ⟨use, noLive, hb.largeHeap, ?_⟩
    intro p h1 h2
    rw [hb.largeCursor, LARGE_VIRT_BASE] at h2
    omega
  · intro c hs hlegal hr hG
    obtain ⟨use, ranges, hs, hcov⟩ := hs
    obtain ⟨use', ranges', h', he⟩ := hs.call hlegal hr hG.1
    exact ⟨use', ranges', h', (he.covered hs hG hr hcov).1⟩

theorem HeapTrace.ranges_kept {calls : List HeapCall} {live' : ℕ → Option ℕ} {s' : State}
    (h : LargeHeap L use live ranges s) (hcov : Covered ranges s)
    (trace : HeapTrace L (LargeExact L) live s calls live' s') :
    ∃ use' ranges', LargeHeap L use' live' ranges' s' ∧ Covered ranges' s' ∧
      ∀ q N, ranges q = some N → ranges' q = some N := by
  induction trace with
  | nil => exact ⟨use, ranges, h, hcov, fun _ _ hq => hq⟩
  | @snoc calls lv t op a t' tr legal hr guard ih =>
      obtain ⟨use₁, ranges₁, h₁, hcov₁, hsub₁⟩ := ih
      obtain ⟨use₂, ranges₂, h₂, he⟩ :=
        LargeHeap.call (c := ⟨lv, t, op, a, t'⟩) h₁ legal hr guard.1
      obtain ⟨hcov₂, hsub₂⟩ := Effect.covered (c := ⟨lv, t, op, a, t'⟩) h₁ he guard hr hcov₁
      exact ⟨use₂, ranges₂, h₂, hcov₂, fun q N hq => hsub₂ q N (hsub₁ q N hq)⟩

theorem LargeHeap.conserved (h : LargeHeap L use live ranges s) (hcov : Covered ranges s)
    {slots : List ℕ} (hl : IsLifo L s slots) : SpaceConserved L live slots s := by
  have haligned := h.heap.large.aligned
  refine ⟨?_, ?_⟩
  · intro p
    constructor
    · rintro ⟨h1, h2⟩
      obtain ⟨q, N, hq, h3, h4⟩ := hcov p h1 (by omega)
      exact ⟨q * 4096, N, (h.range_iff hl _ N).mpr ⟨q, rfl, hq⟩, by omega, by omega⟩
    · rintro ⟨a, N, ha, h1, h2⟩
      obtain ⟨q, rfl, hq⟩ := (h.range_iff hl a N).mp ha
      obtain ⟨h3, _, h5⟩ := h.heap.large.within q N hq
      omega
  · intro a N a' N' ha ha' hne
    obtain ⟨q, rfl, hq⟩ := (h.range_iff hl a N).mp ha
    obtain ⟨q', rfl, hq'⟩ := (h.range_iff hl a' N').mp ha'
    have hqq : q ≠ q' := by
      intro e
      exact hne (by rw [e])
    cases h.heap.large.disjoint q N q' N' hq hq' hqq with
    | inl h1 => exact Or.inl (by omega)
    | inr h1 => exact Or.inr (by omega)

/-- While slots are reused exactly, the window up to the cursor is the disjoint union of the
live allocations and the slots; each range keeps its page count along further calls; and
once it is the slot on top of the LIFO, it serves a request of that many pages again. -/
theorem large_space_conserved (run : HeapRun L (LargeExact L) live s) :
    ∃ slots, IsLifo L s slots ∧ SpaceConserved L live slots s ∧
      ∀ calls live' s', HeapTrace L (LargeExact L) live s calls live' s' →
        ∃ slots', IsLifo L s' slots' ∧ ∀ a N, LargeRange L live slots s a N →
          LargeRange L live' slots' s' a N ∧
          (s'.large.nextFreeVirt = a → L.Reuses s' N) := by
  obtain ⟨use, ranges, h, hcov⟩ := run.largeExact
  obtain ⟨slots, hl⟩ := h.exists_lifo
  refine ⟨slots, hl, h.conserved hcov hl, ?_⟩
  intro calls live' s' trace
  obtain ⟨use', ranges', h', _, hsub⟩ := trace.ranges_kept h hcov
  obtain ⟨slots', hl'⟩ := h'.exists_lifo
  refine ⟨slots', hl', ?_⟩
  intro a N ha
  obtain ⟨q, rfl, hq⟩ := (h.range_iff hl a N).mp ha
  have hq' := hsub q N hq
  refine ⟨(h'.range_iff hl' _ N).mpr ⟨q, rfl, hq'⟩, ?_⟩
  intro hhead
  have hlo := (h'.heap.large.within q N hq').1
  have hne : s'.large.nextFreeVirt ≠ 0 := by omega
  obtain ⟨q₁, K, _, _, hq₁, hK, hnone, _⟩ := h'.heap.large.head hne
  have hqq : q₁ = q := by omega
  rw [hqq] at hK hnone
  rw [hq'] at hK
  cases hK
  refine ⟨hne, N, ?_, le_rfl⟩
  rw [hhead]
  exact h'.heap.large.slot q N hq' hnone

end Runs

/-! ### Reuse of a larger slot -/

/-- Two pages are allocated and freed, and a request for one page reuses them: the second
page belongs to nobody any more. -/
theorem reuse_loses_pages :
    ∃ s s₁ s₂ s₃, Layout.lowest.boot (State.powerOn fun _ _ => 0) = .ok () s ∧
      Layout.lowest.kmallocLarge 8188 s = .ok 0x80000004 s₁ ∧
      Layout.lowest.kfreeLarge 0x80000004 s₁ = .ok () s₂ ∧
      Layout.lowest.kmallocLarge 100 s₂ = .ok 0x80000004 s₃ ∧
      s₃.large.nextVirtAddr = 0x80002000 ∧
      ∃ slots, IsLifo Layout.lowest s₃ slots ∧
        ¬ SpaceConserved Layout.lowest (Function.update noLive 0x80000004 (some 100)) slots s₃ := by
  obtain ⟨use, m, s, hboot, hb⟩ := Layout.lowest.boot_spec fun _ _ => 0
  obtain ⟨use₁, s₁, hr₁, h₁, hcur₁, hroom₁, -⟩ := hb.first_large
  obtain ⟨q, N, use₂, s₂, hq, hr₂, hret, h₂, hroom₂⟩ := h₁.kfreeLarge_ok (n := 8188)
    (Function.update_self ..)
  have hq' : q = 0x80000 := by omega
  subst hq'
  have hN : N = 2 := by
    have := hret.range
    rw [Function.update_self] at this
    exact (Option.some.inj this).symm
  subst hN
  have hcur₂ : s₂.large.nextVirtAddr = 0x80002000 := by rw [hret.cursor, hcur₁]
  rw [Function.update_idem] at h₂
  -- the range is the only slot
  obtain ⟨hhead, hcount⟩ := h₂.head_of_only (Function.update_self ..) (Function.update_self ..) (by
    intro q' K' hK' _
    by_contra hne
    rw [Function.update_of_ne hne] at hK'
    cases hK')
  have hreuses : Layout.lowest.Reuses s₂ (largePages 100) :=
    ⟨by omega, 2, hcount, by rw [largePages_100]; norm_num⟩
  obtain ⟨q, use₃, s₃, hr₃, hc, h₃, _⟩ := h₂.kmallocLarge_ok (n := 100) (k := 0) (by norm_num)
    (by norm_num) (fun hnot => absurd hreuses hnot) (by
      rw [largePages_100]
      exact (hroom₂ _ _ (by norm_num) hroom₁).anti 100 _ s₂ (by norm_num))
  obtain ⟨hq, hcur₃⟩ := hc.of_reuse h₂.heap.large hreuses
  obtain rfl : q = 0x80000 := by omega
  rw [hcur₂] at hcur₃
  rw [largePages_100, Function.update_idem, Function.update_idem] at h₃
  obtain ⟨slots, hl⟩ := h₃.exists_lifo
  refine ⟨s, s₁, s₂, s₃, hboot, hr₁, hr₂, hr₃, hcur₃, slots, hl, ?_⟩
  intro hcons
  -- the page 0x80001 is below the cursor
  obtain ⟨a, N, ha, h1, h2⟩ := (hcons.exact 0x80001).mp ⟨by norm_num, by rw [hcur₃]; norm_num⟩
  obtain ⟨q, rfl, hq⟩ := (h₃.range_iff hl a N).mp ha
  cases Extents.update_some hq with
  | inl hin => omega
  | inr hout => cases hout.2

/-- Two pages after booting, and the same two pages after they were freed and allocated again. -/
theorem large_space_conserved_first :
    ∃ s s₁ s₂ s₃ s₄ live₄ slots slots', Layout.lowest.boot (State.powerOn fun _ _ => 0) = .ok () s ∧
      Layout.lowest.kmallocLarge 8188 s = .ok 0x80000004 s₁ ∧
      Layout.lowest.kmallocLarge 8188 s₁ = .ok 0x80002004 s₂ ∧
      Layout.lowest.kfreeLarge 0x80000004 s₂ = .ok () s₃ ∧
      Layout.lowest.kmallocLarge 8188 s₃ = .ok 0x80000004 s₄ ∧ IsLifo Layout.lowest s₁ slots ∧
      SpaceConserved Layout.lowest (Function.update noLive 0x80000004 (some 8188)) slots s₁ ∧
      IsLifo Layout.lowest s₄ slots' ∧ SpaceConserved Layout.lowest live₄ slots' s₄ ∧
      ∀ a N, LargeRange Layout.lowest (Function.update noLive 0x80000004 (some 8188)) slots s₁ a N →
        LargeRange Layout.lowest live₄ slots' s₄ a N := by
  obtain ⟨use, m, s, hboot, hb⟩ := Layout.lowest.boot_spec fun _ _ => 0
  obtain ⟨s₁, s₂, s₃, s₄, calls, hr₁, hr₂, hr₃, hr₄, run, trace⟩ := hb.reused_large hboot
  obtain ⟨slots, hl, hcons, hlater⟩ := large_space_conserved run
  obtain ⟨slots₄, hl₄, hkept⟩ := hlater _ _ _ trace
  obtain ⟨slots', hl', hcons', -⟩ := large_space_conserved (run.trace trace)
  obtain rfl : slots' = slots₄ := Chain.unique hl' hl₄
  exact ⟨s, s₁, s₂, s₃, s₄, _, slots, slots', hboot, hr₁, hr₂, hr₃, hr₄, hl, hcons, hl', hcons',
    fun a N ha => (hkept a N ha).1⟩

end RaxzusHeap
