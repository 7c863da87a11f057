import RaxzusHeap.SmallRuns
import RaxzusHeap.FreeList

/-! # The regions of the size-class domains

`heap_domain_alloc` never compares the cursor with the end of its region.  As long as its
slow path is entered below the end, the seven regions stay apart (`regions_apart`).  The
next page is mapped beyond the end: `kmallocs 65537` drives the last domain into the window
of the large one (`kmalloc_leaves_its_region`). -/

namespace RaxzusHeap

open Imperative FirstFit Linked

/-! ### Runs inside the regions -/

theorem HeapOp.classOf_small {op : HeapOp} {d : SizeClass} {n : ℕ} (h : op.small = some (d, n)) :
    classOf n = some d := by
  cases op with
  | domainAlloc c =>
      simp only [HeapOp.small, Option.some.injEq, Prod.mk.injEq] at h
      obtain ⟨rfl, rfl⟩ := h
      cases c <;> decide
  | kmalloc size =>
      simp only [HeapOp.small, Option.map_eq_some_iff, Prod.mk.injEq] at h
      obtain ⟨c, hc, rfl, rfl⟩ := h
      exact hc
  | domainFree | kmallocLarge | kfreeLarge | kfree | write => cases h

/-- The block goes back to the domain of its size. -/
def Routed (L : Layout) (p n : ℕ) : Prop :=
  ∃ d : SizeClass, classOf n = some d ∧ d.virtBase ≤ p ∧ p < d.virtBase + 0x10000000 ∧
    L.kfreeHeap p = L.heapDomainFree d p

section Runs

variable {L : Layout}

theorem InsideRegions.routed {use' : ℕ → Use} {live ranges' : ℕ → Option ℕ} {use : ℕ → Use}
    {s s' : State} {op : HeapOp} {a : ℕ} (hlarge : op.large = none)
    (he : Effect L use live noLive s op a use' ranges' s')
    (hd : ∀ d, DomainInv L use' (liveAfter live op a) d s')
    (h : ∀ p n, live p = some n → Routed L p n) :
    ∀ p n, liveAfter live op a p = some n → Routed L p n := by
  intro p n hp
  cases he with
  | @popped _ d k _ _ _ hop ha hpop =>
      rw [liveAfter_small hop ha] at hp
      by_cases hpa : p = a
      · rw [hpa, Function.update_self] at hp
        cases hp
        obtain ⟨h1, h2⟩ := hpop.region (hd d)
        rw [hpa]
        exact ⟨d, HeapOp.classOf_small hop, h1, h2, L.kfreeHeap_small h1 h2⟩
      · rw [Function.update_of_ne hpa] at hp
        exact h p n hp
  | pushed hop =>
      rw [liveAfter_freed hop] at hp
      exact h p n (Extents.update_none hp).2
  | carved hop => rw [hlarge] at hop; cases hop
  | returned _ _ hret => have := hret.range; cases this
  | wrote _ _ _ _ hst => exact h p n hp
  | refused hop => rw [hlarge] at hop; cases hop

theorem HeapRun.insideRegions {live : ℕ → Option ℕ} {s : State}
    (h : HeapRun L InsideRegions live s) :
    (∃ use m, SmallHeap L use live m s) ∧ ∀ p n, live p = some n → Routed L p n := by
  apply h.invariant (I := fun live s => (∃ use m, SmallHeap L use live m s) ∧
    ∀ p n, live p = some n → Routed L p n)
  · intro use m t hb
    exact ⟨⟨use, m, hb.smallHeap⟩, fun p n hp => by cases hp⟩
  · rintro ⟨live, s, op, a, s'⟩ ⟨⟨use, m, hs⟩, hrouted⟩ hlegal hr hG
    obtain ⟨use', ranges', m', h', he⟩ := hs.call hlegal hr hG
    exact ⟨⟨use', m', h'⟩, InsideRegions.routed hG.1 he h'.heap.dom hrouted⟩

theorem Effect.page_kept {use use' : ℕ → Use} {live ranges' : ℕ → Option ℕ} {s s' : State}
    {op : HeapOp} {a f p : ℕ} (hlarge : op.large = none)
    (he : Effect L use live noLive s op a use' ranges' s') (hf : use f = .page p) :
    use' f = .page p := by
  cases he with
  | popped _ _ hpop => rw [hpop.kept f (by rw [hf]; simp), hf]
  | pushed => exact hf
  | carved hop => rw [hlarge] at hop; cases hop
  | returned _ _ hret => have := hret.range; cases this
  | wrote => exact hf
  | refused => exact hf

/-- While the slow path is only entered below the end of a region: the cursors stay in their
regions, every live block lies in the region of its size, so that `kfree_heap` finds its
domain, and a call hands out blocks of its own region only and keeps the kernel's entries
for the pages of all domains. -/
theorem regions_apart {live : ℕ → Option ℕ} {s : State} (run : HeapRun L InsideRegions live s) :
    (∀ d : SizeClass, d.virtBase ≤ (s.domains d).nextVirtAddr ∧
      (s.domains d).nextVirtAddr ≤ d.virtBase + 0x10000000) ∧
    (∀ p n, live p = some n → Routed L p n) ∧
    ∀ op a s', Legal live op → L.heapCall op s = .ok a s' →
      InsideRegions ⟨live, s, op, a, s'⟩ →
      (∀ d n, op.small = some (d, n) → d.virtBase ≤ a ∧ a < d.virtBase + 0x10000000) ∧
      ∀ (c : SizeClass) p, c.virtBase ≤ p * 4096 → p * 4096 < (s.domains c).nextVirtAddr →
        ∃ e, s.walk L.dirFrame (p * 4096) = some e ∧ s'.walk L.dirFrame (p * 4096) = some e := by
  obtain ⟨⟨use, m, hs⟩, hrouted⟩ := run.insideRegions
  refine ⟨fun d => ⟨(hs.heap.dom d).cursor_ge, (hs.heap.dom d).cursor_le⟩, hrouted, ?_⟩
  intro op a s' hlegal hr hG
  obtain ⟨use', ranges', m', h', he⟩ := hs.call hlegal hr hG
  refine ⟨?_, ?_⟩
  · intro d n hop
    obtain ⟨-, hpop⟩ := he.of_small hop
    exact hpop.region (h'.heap.dom d)
  · intro c p h1 h2
    have hle := (hs.heap.dom c).cursor_le
    obtain ⟨f, hf⟩ := ((hs.heap.dom c).backed p h1 (by omega)).mpr h2
    have hm := hs.heap.pages.kernelMap f p hf
    have hm' := h'.heap.pages.kernelMap f p (Effect.page_kept hG.1 he hf)
    exact ⟨f * 4096 + 3, hs.heap.pages.inv.walk_page hm, h'.heap.pages.inv.walk_page hm'⟩

end Runs

/-- The first call of a run: a block of 4096 bytes. -/
theorem regions_apart_kmalloc :
    ∃ s a s', Layout.lowest.boot (State.powerOn fun _ _ => 0) = .ok () s ∧
      Layout.lowest.kmalloc 4096 s = .ok a s' ∧ Routed Layout.lowest a 4096 := by
  obtain ⟨use, m, s, hboot, hb⟩ := Layout.lowest.boot_spec fun _ _ => 0
  obtain ⟨a, s', hr, ha, _, _⟩ := hb.alloc_ok .heap4k
  have hop : (HeapOp.kmalloc 4096).small = some (.heap4k, 4096) := by decide
  have hr' : Layout.lowest.heapCall (.kmalloc 4096) s = .ok a s' := by
    rw [Layout.heapCall, Layout.kmalloc_small _ (d := .heap4k) (by decide)]
    exact hr
  have run : HeapRun Layout.lowest InsideRegions (liveAfter noLive (.kmalloc 4096) a) s' := by
    refine (HeapRun.boot hboot).call (show Legal noLive (.kmalloc 4096) from trivial) hr' ⟨?_, ?_⟩
    · show (HeapOp.kmalloc 4096).large = none
      decide
    intro d n hd _
    rw [hop] at hd
    cases hd
    show (s.domains _).nextVirtAddr < _
    rw [hb.cursor]
    omega
  refine ⟨s, a, s', hboot, hr', (regions_apart run).2.1 a 4096 ?_⟩
  rw [liveAfter_small hop ha, Function.update_self]

/-! ### Past the end of the last region -/

/-- `n` calls of `kmalloc(4096)`; the result is the last pointer. -/
def Layout.kmallocs (L : Layout) (n : ℕ) : Kernel ℕ := iterate n 0 fun _ _ => L.kmalloc 4096

/-- Block `j` of `heap_4k`. -/
def block4k (j : ℕ) : ℕ := SizeClass.heap4k.virtBase + j * 4096

theorem block4k_injective : Function.Injective block4k := by
  intro i j hij
  unfold block4k at hij
  omega

/-- The heap after `k` of these calls: `S` holds the blocks handed out. -/
structure Filling (L : Layout) (k : ℕ) (use : ℕ → Use) (live : ℕ → Option ℕ) (S : Finset ℕ)
    (m : ℕ) (s : State) : Prop where
  heap : HeapInv L use live noLive s
  used : s.UsedBelow m
  few : m ≤ 7000 + 3 * k
  card : S.card = k
  mem : ∀ p, p ∈ S ↔ live p ≠ none
  blocks : ∀ p ∈ S, SizeClass.heap4k.IsBlock (s.domains .heap4k).nextVirtAddr p

namespace Filling

variable {L : Layout} {k : ℕ} {use : ℕ → Use} {live : ℕ → Option ℕ} {S : Finset ℕ} {m : ℕ}
  {s : State}

theorem cursor (h : Filling L k use live S m s) :
    ∃ c ≤ 65536, (s.domains .heap4k).nextVirtAddr = block4k c := by
  have hdom := h.heap.dom .heap4k
  have h1 := hdom.aligned
  have h2 := hdom.cursor_ge
  have h3 := hdom.cursor_le
  simp only [SizeClass.virtBase] at h2 h3
  refine ⟨((s.domains .heap4k).nextVirtAddr - 0x70000000) / 4096, by omega, ?_⟩
  unfold block4k
  simp only [SizeClass.virtBase]
  omega

theorem isBlock_iff {c p : ℕ} : SizeClass.heap4k.IsBlock (block4k c) p ↔ ∃ j < c, p = block4k j := by
  unfold SizeClass.IsBlock block4k
  simp only [SizeClass.blockSize, SizeClass.virtBase]
  constructor
  · intro h
    exact ⟨(p - 0x70000000) / 4096, by omega, by omega⟩
  · intro h
    obtain ⟨j, hj, hp⟩ := h
    omega

theorem pages_le (h : Filling L k use live S m s) {c : ℕ}
    (hc : (s.domains .heap4k).nextVirtAddr = block4k c)
    (hnil : (s.domains .heap4k).nextFreeBlock = 0) : c ≤ k := by
  have hle := (h.heap.dom .heap4k).blocks_le hnil (fun p _ hp => (h.mem p).mpr hp) (n := c) ?_
  · rwa [h.card] at hle
  · rw [hc]
    exact le_rfl

/-- The next call, while a page is left. -/
theorem step (h : Filling L k use live S m s) (hk : k < 65536) :
    ∃ a s' use' live' S' m', L.kmalloc 4096 s = .ok a s' ∧ Filling L (k + 1) use' live' S' m' s' := by
  have hfew := h.few
  have hroom : Room s.allocated 3 0x40000 := h.used.room (by norm_num) (by omega)
  have hslow : (s.domains .heap4k).nextFreeBlock = 0 →
      (s.domains .heap4k).nextVirtAddr < SizeClass.heap4k.virtBase + 0x10000000 ∧
        Room s.allocated 3 0x40000 := by
    intro hnil
    obtain ⟨c, _, hc⟩ := h.cursor
    have hck := h.pages_le hc hnil
    refine ⟨?_, hroom⟩
    rw [hc]
    unfold block4k
    omega
  obtain ⟨a, s', hr, use', h', hpop⟩ := ((h.heap.domainAlloc .heap4k (n := 4096)
    (by simp only [SizeClass.blockSize]; omega) (by norm_num) hslow).mono (fun _ _ hq => hq)
    (fun _ hE => absurd hE.1 (lt_irrefl _))).exists_ok
  have hnotin : a ∉ S := by
    rw [h.mem, hpop.fresh]
    simp
  have hmono : (s.domains .heap4k).nextVirtAddr ≤ (s'.domains .heap4k).nextVirtAddr ∧
      ∃ m' ≤ m + 3, s'.UsedBelow m' := by
    cases hpop.growth with
    | inl hfast =>
        obtain ⟨_, _, halloc, _, _, hcur⟩ := hfast
        exact ⟨by rw [hcur], m, by omega, h.used.congr halloc⟩
    | inr hslow =>
        obtain ⟨_, s₁, hx, halloc, _, _, hcur⟩ := hslow
        obtain ⟨m', hm', _, hused⟩ := h.used.expanded (by omega) hx
        exact ⟨by rw [hcur, hx.cursor]; omega, m', hm', hused.congr halloc⟩
  obtain ⟨hle, m', hm', hused⟩ := hmono
  refine ⟨a, s', use', _, insert a S, m', ?_, h', hused, by omega, ?_, ?_, ?_⟩
  · rw [L.kmalloc_small (d := .heap4k) (by decide)]
    exact hr
  · rw [Finset.card_insert_of_notMem hnotin, h.card]
  · intro p
    rw [Finset.mem_insert, h.mem]
    by_cases hpa : p = a
    · rw [hpa, Function.update_self]
      simp
    · rw [Function.update_of_ne hpa]
      simp [hpa]
  · intro p hp
    cases Finset.mem_insert.mp hp with
    | inl hpa => rw [hpa]; exact hpop.block
    | inr hp =>
        obtain ⟨h1, h2, h3⟩ := h.blocks p hp
        exact ⟨h1, by omega, h3⟩

/-- After 65536 calls the region is used up. -/
theorem full (h : Filling L 65536 use live S m s) :
    (s.domains .heap4k).nextVirtAddr = block4k 65536 ∧
      (s.domains .heap4k).nextFreeBlock = 0 := by
  obtain ⟨c, hc65536, hc⟩ := h.cursor
  have hsub : S ⊆ (Finset.range c).image block4k := by
    intro p hp
    have hb := h.blocks p hp
    rw [hc] at hb
    obtain ⟨j, hj, hpj⟩ := isBlock_iff.mp hb
    exact Finset.mem_image.mpr ⟨j, Finset.mem_range.mpr hj, hpj.symm⟩
  have himage : ((Finset.range c).image block4k).card = c := by
    rw [Finset.card_image_of_injective _ block4k_injective, Finset.card_range]
  have hcard := Finset.card_le_card hsub
  rw [h.card, himage] at hcard
  have hceq : c = 65536 := by omega
  subst hceq
  refine ⟨hc, ?_⟩
  have hall := Finset.eq_of_subset_of_card_le hsub (by rw [himage, h.card])
  obtain ⟨l, hl, hmem⟩ := (h.heap.dom .heap4k).chain
  cases l with
  | nil => exact hl.of_nil
  | cons b t =>
      -- a block on the list would not be live
      obtain ⟨hb, hnone⟩ := (hmem b).mp List.mem_cons_self
      rw [hc] at hb
      obtain ⟨j, hj, rfl⟩ := isBlock_iff.mp hb
      have hin : block4k j ∈ S := by
        rw [hall]
        exact Finset.mem_image.mpr ⟨j, Finset.mem_range.mpr hj, rfl⟩
      exact absurd hnone ((h.mem _).mp hin)

end Filling

/-- With the region of `heap_4k` used up, the slow path maps the page beyond its end. -/
theorem HeapInv.alloc_past_end {L : Layout} {use : ℕ → Use} {live ranges : ℕ → Option ℕ}
    {s : State} (h : HeapInv L use live ranges s) {p : ℕ} (hp : p = 0x80000)
    (hcur : (s.domains .heap4k).nextVirtAddr = p * 4096)
    (hnil : (s.domains .heap4k).nextFreeBlock = 0) (hroom : Room s.allocated 3 0x40000) :
    ∃ s', L.heapDomainAlloc .heap4k s = .ok (p * 4096) s' ∧
      (s'.domains .heap4k).nextVirtAddr = p * 4096 + 4096 := by
  have hdom := h.dom .heap4k
  obtain ⟨D, hD⟩ := hdom.home
  have hdir : (s.domains .heap4k).pageDirectory = KERNEL_BASE + D * 4096 :=
    h.pages.dirs (.cls .heap4k) D hD (by simp)
  obtain ⟨f, hflt, hfirst, hfree, hf0, hframe⟩ := h.pages.inv.processFrame hroom (by norm_num)
  have hends : Ends (L.heapDomainAlloc .heap4k) s
      (fun a s' => a = p * 4096 ∧ (s'.domains .heap4k).nextVirtAddr = p * 4096 + 4096)
      (fun _ => False) := by
    unfold Layout.heapDomainAlloc
    refine Ends.bind_ok
      (show getDomain .heap4k s = .ok (s.domains .heap4k) s from rfl) ?_
    rw [if_neg (not_not.mpr hnil)]
    refine Ends.bind_ok hframe ?_
    rw [if_neg hf0, hdom.blockSize, hdom.perPage, hdir, hcur]
    refine h.pages.inv.mapBoth hD hfree (by omega) (by omega) (by omega)
      (State.room_newTables hroom) (by norm_num)
      (fun use' s₁ hg => ?_) (fun _ hc => absurd hc (lt_irrefl _))
    have hm : s₁.maps L.dirFrame p = some (f * 4096 + 3) := by
      rw [hg.maps, if_pos ⟨Or.inr rfl, rfl⟩]
    have hf : use' f = .page p := by
      rw [hg.labels.kept f (by rw [Function.update_self]; simp), Function.update_self]
    have hdiv : (f * 4096 + 3) / 4096 = f := by omega
    -- the page has a single block, which ends the list
    have hlink : L.linkBlocks (p * 4096) SizeClass.heap4k.blockSize
        (4096 / SizeClass.heap4k.blockSize) 0 s₁ = .ok () (s₁.write f 0 0) := by
      have hone : u32Sub (4096 / SizeClass.heap4k.blockSize) 1 = 0 := by decide
      have haddr : u32 (p * 4096 + u32 (0 * SizeClass.heap4k.blockSize)) = p * 4096 := by
        rw [Nat.zero_mul, u32_of_lt (n := 0) (by norm_num), Nat.add_zero, u32_of_lt (by omega)]
      unfold Layout.linkBlocks
      simp only [hone, haddr]
      have hstore := L.store_of_walk 0 (hg.inv.walk_page hm)
      rw [hdiv, Nat.mul_mod_left] at hstore
      exact hstore
    have hw : PageInv L use' (s₁.write f 0 0) := hg.inv.writeData (by rw [hf]; exact id) 0 0
    refine Ends.bind_ok hlink ?_
    refine Ends.bind_ok (modifyDomain_run ..) ?_
    refine Ends.bind_ok (modifyDomain_run ..) ?_
    have hpeek := hw.peek_of_maps hm (show 0 < 4096 by norm_num)
    rw [Nat.add_zero] at hpeek
    refine Ends.bind_ok (L.load_of_peek hpeek) ?_
    refine Ends.bind_ok (modifyDomain_run ..) (Ends.of_ok rfl ⟨rfl, ?_⟩)
    have hdom₁ : (s₁.write f 0 0).domains .heap4k = s.domains .heap4k :=
      congrFun hg.vars.domains _
    rw [State.setDomain_self, State.setDomain_self, State.setDomain_self, hdom₁, hcur]
    exact u32_of_lt (by omega)
  obtain ⟨a, s', hr, rfl, hnext⟩ := hends.exists_ok
  exact ⟨s', hr, hnext⟩

/-- The 65537th block of 4096 bytes lies beyond the region of its domain, at an address that
`kfree_heap` gives to the large domain. -/
theorem kmalloc_leaves_its_region :
    ∃ s, (do Layout.lowest.boot; Layout.lowest.kmallocs 65537 : Kernel ℕ)
        (State.powerOn fun _ _ => 0) = .ok 0x80000000 s ∧
      (s.domains .heap4k).nextVirtAddr = 0x80001000 ∧
      ¬ (s.domains .heap4k).nextVirtAddr ≤ SizeClass.heap4k.virtBase + 0x10000000 ∧
      Layout.lowest.kfreeHeap 0x80000000 = Layout.lowest.kfreeLarge 0x80000000 := by
  obtain ⟨use, m, s₀, hboot, hb⟩ := Layout.lowest.boot_spec fun _ _ => 0
  obtain ⟨b, s₁, hrun, use', live', S, m', h⟩ := iterate_rule
    (fun _ _ => Layout.lowest.kmalloc 4096)
    (fun k _ t => ∃ use live S m, Filling Layout.lowest k use live S m t)
    (n := 65536) (a := 0) (s := s₀)
    ⟨use, noLive, ∅, m, hb.heap, hb.used, hb.few, rfl,
      fun p => by simp [noLive], fun p hp => absurd hp (Finset.notMem_empty p)⟩
    (fun k _ t hk ⟨u, lv, S, m, ht⟩ => by
      obtain ⟨a, t', u', lv', S', m', hr, ht'⟩ := ht.step hk
      exact ⟨a, t', hr, u', lv', S', m', ht'⟩)
  obtain ⟨hcur, hnil⟩ := h.full
  have hfew := h.few
  have hend : block4k 65536 = 0x80000 * 4096 := by norm_num [block4k, SizeClass.virtBase]
  obtain ⟨s₂, hr, hnext⟩ := h.heap.alloc_past_end rfl (hcur.trans hend) hnil
    (h.used.room (by norm_num) (by omega))
  have hnext' : (s₂.domains .heap4k).nextVirtAddr = 0x80001000 := by rw [hnext]
  refine ⟨s₂, ?_, hnext', ?_, Layout.lowest.kfreeHeap_large le_rfl⟩
  · rw [run_bind_ok hboot, Layout.kmallocs, iterate, run_bind_ok hrun,
      Layout.kmalloc_small _ (d := .heap4k) (by decide), hr]
  · rw [hnext']
    simp only [SizeClass.virtBase]
    omega

end RaxzusHeap
