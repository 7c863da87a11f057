import RaxzusHeap.Runs

/-! # Runs within the limits of memory

Two ways to know that every call finds the frames it needs: the frames in use stay below
1 GB (`FramesLow`), or, when only the large domain is at work, its window cannot hold more
pages than fit below 1.25 GB (`HeapPages.room`).  `WithinLimits` is the guard of the runs of
the first kind, and `HeapRun.withinLimits` their invariant; `CallFits` asks for what a call
needs, three clear frames below 1.25 GB, and no more. -/

namespace RaxzusHeap

open Imperative FirstFit

/-! ### Frames below 1 GB -/

/-- No frame from 1 GB on is in use. -/
def State.FramesLow (s : State) : Prop :=
  ∀ f, 0x40000 ≤ f → f < 0x100000 → s.allocated f = false

theorem State.FramesLow.room {s : State} (h : s.FramesLow) : Room s.allocated 3 0x50000 := by
  refine (Room.of_interval fun f h1 h2 => h f h1 (by omega)).mono ?_ le_rfl
  norm_num

theorem State.UsedBelow.framesLow {s : State} {m : ℕ} (h : s.UsedBelow m) (hm : m ≤ 0x40000) :
    s.FramesLow := by
  intro f h1 h2
  rw [h f h2]
  simp only [decide_eq_false_iff_not]
  omega

/-! ### The window of the large domain -/

/-- The domains that have a directory once the heap is up. -/
def heapOwners : List Owner := .large :: SizeClass.all.map .cls

theorem mem_heapOwners {o : Owner} (h : o ≠ .proc) : o ∈ heapOwners := by
  cases o with
  | cls d => cases d <;> decide
  | large => decide
  | proc => exact absurd rfl h

/-- The pages that `init_all_heaps` maps. -/
def premapped : Finset ℕ :=
  SizeClass.all.toFinset.biUnion fun d => Finset.Ico (d.virtBase / 4096) (d.virtBase / 4096 + 256)

theorem mem_premapped {d : SizeClass} {p : ℕ} (h1 : d.virtBase ≤ p * 4096)
    (h2 : p * 4096 < d.virtBase + 256 * 4096) : p ∈ premapped := by
  refine Finset.mem_biUnion.mpr ⟨d, ?_, ?_⟩
  · cases d <;> decide
  · have hmod := d.virtBase_mod
    exact Finset.mem_Ico.mpr ⟨by omega, by omega⟩

theorem card_premapped : premapped.card ≤ 1792 := by
  apply le_trans (Finset.card_biUnion_le_card_mul _ _ 256 fun d _ => ?_)
  · decide
  · rw [Nat.card_Ico]
    omega

section Room

variable {L : Layout} {use : ℕ → Use} {s : State}

theorem HeapPages.card_dirs (h : HeapPages L use s) (hproc : ∀ D, use D ≠ .dir .proc)
    {A : Finset ℕ} (hA : ∀ f ∈ A, ∃ o, use f = .dir o) : A.card ≤ 8 := by
  have hmaps : ∀ f ∈ A, use f ∈ heapOwners.toFinset.image Use.dir := by
    intro f hf
    obtain ⟨o, ho⟩ := hA f hf
    have hne : o ≠ .proc := by rintro rfl; exact hproc f ho
    rw [ho]
    exact Finset.mem_image.mpr ⟨o, List.mem_toFinset.mpr (mem_heapOwners hne), rfl⟩
  apply le_trans (Finset.card_le_card_of_injOn use hmaps ?_)
  · exact le_trans Finset.card_image_le (by decide)
  · intro f hf g _ hfg
    obtain ⟨o, ho⟩ := hA f (Finset.mem_coe.mp hf)
    have hne : o ≠ .proc := by rintro rfl; exact hproc f ho
    exact h.dir_unique ho (by rw [← hfg]; exact ho) hne

theorem HeapPages.card_tables (h : HeapPages L use s) {A D : Finset ℕ}
    (hA : ∀ t ∈ A, ∃ d i, use t = .table d i) (hD : ∀ d, L.IsDir use d → d ∈ D) :
    A.card ≤ D.card * 768 := by
  have hmaps : ∀ t ∈ A, use t ∈ (D ×ˢ Finset.range 768).image fun x => Use.table x.1 x.2 := by
    intro t ht
    obtain ⟨d, i, hi⟩ := hA t ht
    obtain ⟨hd, hlt⟩ := h.inv.tableDir t d i hi
    rw [hi]
    exact Finset.mem_image.mpr
      ⟨(d, i), Finset.mem_product.mpr ⟨hD d hd, Finset.mem_range.mpr hlt⟩, rfl⟩
  apply le_trans (Finset.card_le_card_of_injOn use hmaps ?_)
  · apply le_trans Finset.card_image_le
    rw [Finset.card_product, Finset.card_range]
  · intro t ht u _ htu
    obtain ⟨d, i, hi⟩ := hA t (Finset.mem_coe.mp ht)
    obtain ⟨hd, hlt⟩ := h.inv.tableDir t d i hi
    have h1 := (h.inv.pde d i hd hlt t).mpr hi
    have h2 := (h.inv.pde d i hd hlt u).mpr (by rw [← htu]; exact hi)
    rw [h1] at h2
    exact Option.some.inj h2

theorem HeapPages.card_pages (h : HeapPages L use s) {A P : Finset ℕ}
    (hA : ∀ f ∈ A, ∃ p, use f = .page p) (hP : ∀ p, Backed use p → p ∈ P) : A.card ≤ P.card := by
  have hmaps : ∀ f ∈ A, use f ∈ P.image Use.page := by
    intro f hf
    obtain ⟨p, hp⟩ := hA f hf
    rw [hp]
    exact Finset.mem_image.mpr ⟨p, hP p ⟨f, hp⟩, rfl⟩
  apply le_trans (Finset.card_le_card_of_injOn use hmaps ?_) Finset.card_image_le
  intro f hf g _ hfg
  obtain ⟨p, hp⟩ := hA f (Finset.mem_coe.mp hf)
  exact h.frame_unique hp (by rw [← hfg]; exact hp)

open Classical in
/-- While the size classes have no more than their premapped pages, the window of the large
domain cannot exhaust the frames below 1.25 GB. -/
theorem HeapPages.room (h : HeapPages L use s)
    (hsmall : ∀ p, Backed use p → p < 0x80000 →
      ∃ d : SizeClass, d.virtBase ≤ p * 4096 ∧ p * 4096 < d.virtBase + 256 * 4096)
    (hproc : ∀ D, use D ≠ .dir .proc) : Room s.allocated 3 0x50000 := by
  obtain ⟨dirs, hdirs⟩ : ∃ A : Finset ℕ, ∀ f, f ∈ A ↔ f < 0x50000 ∧ ∃ o, use f = .dir o :=
    ⟨(Finset.range 0x50000).filter fun f => ∃ o, use f = .dir o, fun f => by
      rw [Finset.mem_filter, Finset.mem_range]⟩
  obtain ⟨tables, htables⟩ :
      ∃ A : Finset ℕ, ∀ f, f ∈ A ↔ f < 0x50000 ∧ ∃ d i, use f = .table d i :=
    ⟨(Finset.range 0x50000).filter fun f => ∃ d i, use f = .table d i, fun f => by
      rw [Finset.mem_filter, Finset.mem_range]⟩
  obtain ⟨pages, hpages⟩ : ∃ A : Finset ℕ, ∀ f, f ∈ A ↔ f < 0x50000 ∧ ∃ p, use f = .page p :=
    ⟨(Finset.range 0x50000).filter fun f => ∃ p, use f = .page p, fun f => by
      rw [Finset.mem_filter, Finset.mem_range]⟩
  obtain ⟨window, hwindow, hcwindow⟩ : ∃ P : Finset ℕ,
      (∀ p, 0x80000 ≤ p → p < 0xC0000 → p ∈ P) ∧ P.card = 0x40000 :=
    ⟨Finset.Ico 0x80000 0xC0000, fun p h1 h2 => Finset.mem_Ico.mpr ⟨h1, h2⟩, by
      rw [Nat.card_Ico]⟩
  have hcdirs := h.card_dirs hproc fun f hf => ((hdirs f).mp hf).2
  have hctables := h.card_tables (D := insert L.dirFrame dirs)
    (fun t ht => ((htables t).mp ht).2) (fun d hd => by
      cases hd with
      | inl hK => exact Finset.mem_insert.mpr (Or.inl hK)
      | inr ho =>
          have hlow := h.inv.dirLow d _ ho.choose_spec
          exact Finset.mem_insert_of_mem ((hdirs d).mpr ⟨by omega, ho⟩))
  have hcpages := h.card_pages (P := window ∪ premapped)
    (fun f hf => ((hpages f).mp hf).2) (fun p hp => by
      apply Finset.mem_union.mpr
      by_cases hlow : p < 0x80000
      · obtain ⟨d, h1, h2⟩ := hsmall p hp hlow
        exact Or.inr (mem_premapped h1 h2)
      · obtain ⟨f, hf⟩ := hp
        exact Or.inl (hwindow p (by omega) (h.region f p hf).2))
  have hK : L.kernelFrames ≤ 1024 := L.high
  have hcdirs' := Finset.card_insert_le L.dirFrame dirs
  have hcpages' := Finset.card_union_le window premapped
  have hpre := card_premapped
  apply Room.of_subset (((Finset.range 1024 ∪ dirs) ∪ tables) ∪ pages)
  · intro f hf halloc
    have hne := (h.inv.alloc f (by omega)).mp halloc
    simp only [Finset.mem_union, Finset.mem_range, hdirs, htables, hpages]
    cases hu : use f with
    | free => exact absurd hu hne
    | kernel =>
        have hlt := (h.inv.kernel f).mp hu
        exact Or.inl (Or.inl (Or.inl (by omega)))
    | dir o => exact Or.inl (Or.inl (Or.inr ⟨hf, o, rfl⟩))
    | table d i => exact Or.inl (Or.inr ⟨hf, d, i, rfl⟩)
    | page p => exact Or.inr ⟨hf, p, rfl⟩
    | priv d p => exact absurd (h.priv f d p hu) (hproc d)
  · have h1 := Finset.card_union_le (Finset.range 1024 ∪ dirs ∪ tables) pages
    have h2 := Finset.card_union_le (Finset.range 1024 ∪ dirs) tables
    have h3 := Finset.card_union_le (Finset.range 1024) dirs
    rw [Finset.card_range] at h3
    omega

end Room

/-! ### Runs within the limits -/

/-- The call asks for a size whose page count does not wrap, leaves all frames from 1 GB on
alone, and exhausts neither a region nor the window. -/
structure WithinLimits (L : Layout) (c : HeapCall) : Prop where
  size : ∀ n, c.op.large = some n → n + 4099 < 2 ^ 32
  frames : c.after.FramesLow
  region : ∀ d n, c.op.small = some (d, n) → (c.before.domains d).nextFreeBlock = 0 →
    (c.before.domains d).nextVirtAddr < d.virtBase + 0x10000000
  window : ∀ n, c.op.large = some n → ¬ L.Reuses c.before (largePages n) →
    c.before.large.nextVirtAddr + largePages n * 4096 ≤ 0xC0000000

/-- The call asks for a size that does not wrap, stays in its region or window, and leaves
three frames below 1.25 GB clear. -/
structure CallFits (L : Layout) (c : HeapCall) : Prop where
  size : ∀ n, c.op.large = some n → n + 4099 < 2 ^ 32
  window : ∀ n, c.op.large = some n → ¬ L.Reuses c.before (largePages n) →
    c.before.large.nextVirtAddr + largePages n * 4096 ≤ 0xC0000000
  region : ∀ d n, c.op.small = some (d, n) → (c.before.domains d).nextFreeBlock = 0 →
    (c.before.domains d).nextVirtAddr < d.virtBase + 0x10000000
  room : Room c.after.allocated 3 0x50000

theorem WithinLimits.callFits {L : Layout} {c : HeapCall} (h : WithinLimits L c) : CallFits L c :=
  ⟨h.size, h.window, h.region, h.frames.room⟩

theorem WithinLimits.of_small {L : Layout} {c : HeapCall} {d : SizeClass} {n : ℕ}
    (hop : c.op.small = some (d, n)) (hframes : c.after.FramesLow)
    (hregion : (c.before.domains d).nextVirtAddr < d.virtBase + 0x10000000) : WithinLimits L c where
  size := fun m hm => by rw [HeapOp.large_of_small hop] at hm; cases hm
  frames := hframes
  region := fun e m he _ => by
    rw [hop] at he
    cases he
    exact hregion
  window := fun m hm => by rw [HeapOp.large_of_small hop] at hm; cases hm

/-- Every live block has a size that `kmalloc` can serve. -/
def SizesFit (live : ℕ → Option ℕ) : Prop := ∀ p n, live p = some n → n + 4099 < 2 ^ 32

theorem SizesFit.update {live : ℕ → Option ℕ} (h : SizesFit live) (a : ℕ) {n : ℕ}
    (hn : n + 4099 < 2 ^ 32) : SizesFit (Function.update live a (some n)) := by
  intro p k hp
  cases Extents.update_some hp with
  | inl hpa => rw [hpa.2]; exact hn
  | inr hpa => exact h p k hpa.2

theorem SizesFit.remove {live : ℕ → Option ℕ} (h : SizesFit live) (a : ℕ) :
    SizesFit (Function.update live a none) :=
  fun p k hp => h p k (Extents.update_none hp).2

theorem Effect.sizesFit {L : Layout} {use use' : ℕ → Use} {live ranges ranges' : ℕ → Option ℕ}
    {s s' : State} {op : HeapOp} {a : ℕ} (he : Effect L use live ranges s op a use' ranges' s')
    (hlarge : ∀ n, op.large = some n → n + 4099 < 2 ^ 32) (hsmall : ∀ d n, op.small = some (d, n) →
      n ≤ d.blockSize) (hrefused : op.large = some 0 → a = 0 → liveAfter live op a = live)
    (h : SizesFit live) : SizesFit (liveAfter live op a) := by
  cases he with
  | @popped _ d n _ _ _ hop ha hpop =>
      rw [liveAfter_small hop ha]
      have h1 := hsmall d n hop
      have h2 := d.blockSize_le
      exact h.update a (by omega)
  | pushed hop => rw [liveAfter_freed hop]; exact h.remove _
  | carved hop => rw [liveAfter_large hop (by omega)]; exact h.update _ (hlarge _ hop)
  | returned hop => rw [liveAfter_freed hop]; exact h.remove _
  | wrote => exact h
  | refused hop => rw [hrefused hop rfl]; exact h

theorem HeapOp.small_le {op : HeapOp} {d : SizeClass} {n : ℕ} (h : op.small = some (d, n)) :
    n ≤ d.blockSize := by
  cases op with
  | domainAlloc c =>
      simp only [HeapOp.small, Option.some.injEq, Prod.mk.injEq] at h
      obtain ⟨rfl, rfl⟩ := h
      exact le_rfl
  | kmalloc size =>
      simp only [HeapOp.small, Option.map_eq_some_iff, Prod.mk.injEq] at h
      obtain ⟨c, hc, rfl, rfl⟩ := h
      exact classOf_le hc
  | domainFree | kmallocLarge | kfreeLarge | kfree | write => cases h

theorem liveAfter_zero {live : ℕ → Option ℕ} {op : HeapOp} {n : ℕ} (h : op.large = some n) :
    liveAfter live op 0 = live := by
  cases op with
  | kmallocLarge | kmalloc => rfl
  | domainAlloc | domainFree | kfreeLarge | kfree | write => cases h

section Bounded

variable {L : Layout} {use : ℕ → Use} {ranges : ℕ → Option ℕ} {c : HeapCall}

theorem HeapInv.callFits (h : HeapInv L use c.live ranges c.before)
    (hroom : Room c.before.allocated 3 0x50000) (hfit : SizesFit c.live) (hlegal : Legal c.live c.op)
    (hr : L.heapCall c.op c.before = .ok c.result c.after) (hG : CallFits L c) :
    ∃ use' ranges', HeapInv L use' (liveAfter c.live c.op c.result) ranges' c.after ∧
      Effect L use c.live ranges c.before c.op c.result use' ranges' c.after ∧
      SizesFit (liveAfter c.live c.op c.result) := by
  obtain ⟨use', ranges', h', he⟩ := h.call hlegal hr
    (fun d n hop hnil => ⟨hG.region d n hop hnil, hroom⟩)
    (fun n hop _ => ⟨largePages_pos (hG.size n hop), hG.window n hop,
      fun t => Room t.allocated 3 0x50000, fun _ _ hsub ht => Room.of_less ht hsub,
      fun _ _ _ _ ht => ht, hG.room⟩)
    (fun p n hp _ => hfit p n hp)
  refine ⟨use', ranges', h', he, he.sizesFit hG.size (fun d n hop => HeapOp.small_le hop) ?_ hfit⟩
  intro hop ha
  rw [ha]
  exact liveAfter_zero hop

theorem HeapInv.callWithin (h : HeapInv L use c.live ranges c.before)
    (hlow : c.before.FramesLow) (hfit : SizesFit c.live) (hlegal : Legal c.live c.op)
    (hr : L.heapCall c.op c.before = .ok c.result c.after) (hG : WithinLimits L c) :
    ∃ use' ranges', HeapInv L use' (liveAfter c.live c.op c.result) ranges' c.after ∧
      Effect L use c.live ranges c.before c.op c.result use' ranges' c.after ∧
      SizesFit (liveAfter c.live c.op c.result) := by
  exact h.callFits hlow.room hfit hlegal hr hG.callFits

/-- What holds in a run within the limits. -/
structure BoundedHeap (L : Layout) (live : ℕ → Option ℕ) (s : State) : Prop where
  heap : ∃ use ranges, HeapInv L use live ranges s
  low : s.FramesLow
  fit : SizesFit live

theorem BoundedHeap.call (h : BoundedHeap L c.live c.before) (hlegal : Legal c.live c.op)
    (hr : L.heapCall c.op c.before = .ok c.result c.after) (hG : WithinLimits L c) :
    BoundedHeap L (liveAfter c.live c.op c.result) c.after := by
  obtain ⟨use, ranges, hh⟩ := h.heap
  obtain ⟨use', ranges', h', _, hfit⟩ := hh.callWithin h.low h.fit hlegal hr hG
  exact ⟨⟨use', ranges', h'⟩, hG.frames, hfit⟩

theorem BoundedHeap.block_new (h : BoundedHeap L c.live c.before) (hlegal : Legal c.live c.op)
    (hr : L.heapCall c.op c.before = .ok c.result c.after) (hG : WithinLimits L c) {d : SizeClass}
    {n : ℕ} (hop : c.op.small = some (d, n)) :
    c.live c.result = none ∧ d.virtBase ≤ c.result ∧ c.result < d.virtBase + 0x10000000 := by
  obtain ⟨use, ranges, hh⟩ := h.heap
  obtain ⟨use', ranges', h', he, -⟩ := hh.callWithin h.low h.fit hlegal hr hG
  obtain ⟨-, hpop⟩ := he.of_small hop
  exact ⟨hpop.fresh, hpop.region (h'.dom d)⟩

theorem Booted.bounded {m : ℕ} {s : State} (h : Booted L use m s) : BoundedHeap L noLive s := by
  have := h.few
  exact ⟨⟨use, noLive, h.heap⟩, h.used.framesLow (by omega), fun p n hp => by cases hp⟩

theorem HeapRun.withinLimits {live : ℕ → Option ℕ} {s : State}
    (h : HeapRun L (WithinLimits L) live s) : BoundedHeap L live s := by
  apply h.invariant (I := fun live s => BoundedHeap L live s)
  · intro use m t hb
    exact hb.bounded
  · intro c hs hlegal hr hG
    exact hs.call hlegal hr hG

theorem Booted.kmalloc_run {m : ℕ} {s : State} {mem : ℕ → ℕ → Word} (h : Booted L use m s)
    (hboot : L.boot (State.powerOn mem) = .ok () s) :
    ∃ p s₁, L.kmalloc 64 s = .ok p s₁ ∧
      HeapRun L (WithinLimits L) (Function.update noLive p (some 64)) s₁ ∧
      (s₁.domains .heap64).nextVirtAddr = SizeClass.heap64.virtBase + 256 * 4096 := by
  obtain ⟨p, s₁, hr, hp, hcursor, halloc⟩ := h.alloc_ok .heap64
  have hr' : L.heapCall (.kmalloc 64) s = .ok p s₁ := by
    rw [Layout.heapCall, L.kmalloc_small (d := .heap64) (by decide)]
    exact hr
  have hop : (HeapOp.kmalloc 64).small = some (.heap64, 64) := by decide
  refine ⟨p, s₁, hr', ?_, hcursor⟩
  rw [← liveAfter_small hop hp]
  refine (HeapRun.boot hboot).call (show Legal noLive (.kmalloc 64) from trivial) hr'
    (.of_small (d := .heap64) (n := 64) hop (fun f h1 h2 => ?_) ?_)
  · rw [halloc]
    exact h.bounded.low f h1 h2
  · rw [h.cursor]
    omega

end Bounded

end RaxzusHeap
