import RaxzusHeap.BootPaging
import RaxzusHeap.HeapInv

/-! # Booting establishes the heap invariant

`boot` succeeds from every power-on memory and ends in a state of `Booted`: `HeapInv` with
nothing allocated, every size-class domain grown by its 256 premapped pages, and the frames
in use being an initial segment that is far from reaching 1 GB.

`Booting` is the invariant along `init_all_heaps`; `pages` says how many pages each domain
that is already open has.  `openDomain` and `premapPage` are the two steps. -/

namespace RaxzusHeap

open Imperative FirstFit Linked

/-! ### Frames taken in order -/

/-- The frames in use are those below `m`. -/
def State.UsedBelow (s : State) (m : ℕ) : Prop :=
  ∀ f < 0x100000, s.allocated f = decide (f < m)

namespace State.UsedBelow

variable {s s' : State} {m : ℕ}

theorem first (h : s.UsedBelow m) (hm : m < 0x100000) : s.FirstFree m := by
  refine ⟨by rw [h m hm]; simp, fun g hg => ?_⟩
  rw [h g (by omega)]
  simpa using hg

theorem eq_of_first (h : s.UsedBelow m) (hm : m < 0x100000) {f : ℕ} (hf : s.FirstFree f) :
    f = m := hf.unique (h.first hm)

theorem congr (h : s.UsedBelow m) (ha : ∀ g, s'.allocated g = s.allocated g) :
    s'.UsedBelow m := fun f hf => by rw [ha, h f hf]

theorem take (h : s.UsedBelow m) : (s.take m).UsedBelow (m + 1) := by
  intro f hf
  rw [State.allocated_take, h f hf, Bool.eq_iff_iff]
  simp only [Bool.or_eq_true, decide_eq_true_eq]
  omega

theorem image {L : Layout} (h : s.UsedBelow m) (hk : L.kernelFrames ≤ m) : L.ImageMarked s := by
  intro f hf
  have hK : L.kernelFrames ≤ 1024 := L.high
  rw [h f (by omega), decide_eq_true_iff]
  omega

theorem room (h : s.UsedBelow m) {n b : ℕ} (hb : b ≤ 0x100000) (hn : m + n ≤ b) :
    Room s.allocated n b := by
  refine (Room.of_interval (a := m) fun f h1 h2 => ?_).mono (by omega) le_rfl
  rw [h f (by omega)]
  simpa using h1

theorem table (h : s.UsedBelow m) (hm : m < 0x100000) {use use' : ℕ → Use} {d i : ℕ}
    (ht : Table use s d i use' s') : ∃ m' ≤ m + 1, m ≤ m' ∧ s'.UsedBelow m' := by
  cases ht with
  | found ht hu ha => exact ⟨m, by omega, le_rfl, h.congr ha⟩
  | taken hnone hfirst hlt hu ha =>
      rw [h.eq_of_first hm hfirst] at ha
      exact ⟨m + 1, le_rfl, by omega, h.take.congr ha⟩

theorem added (h : s.UsedBelow m) (hm : m + 3 ≤ 0x100000) {L : Layout} {use use' : ℕ → Use}
    {D p f : ℕ} (hf : s.FirstFree f) (ha : Added L D p f use s use' s') :
    ∃ m' ≤ m + 3, m < m' ∧ s'.UsedBelow m' := by
  obtain ⟨u₁, s₁, ht₁, ht₂⟩ := ha.grown.tables
  rw [h.eq_of_first (by omega) hf] at ht₁
  obtain ⟨m₁, h1, h1', hu₁⟩ := h.take.table (by omega) ht₁
  obtain ⟨m₂, h2, h2', hu₂⟩ := hu₁.table (by omega) ht₂
  exact ⟨m₂, by omega, by omega, hu₂⟩

theorem expanded (h : s.UsedBelow m) (hm : m + 3 ≤ 0x100000) {L : Layout} {d : SizeClass}
    {use use' : ℕ → Use} {live : ℕ → Option ℕ} (hx : Expanded L d use live s use' s') :
    ∃ m' ≤ m + 3, m < m' ∧ s'.UsedBelow m' := by
  obtain ⟨D, f, s₁, _, hfirst, hadd, halloc, _⟩ := hx.added
  obtain ⟨m', h1, h2, hu⟩ := h.added hm hfirst hadd
  exact ⟨m', h1, h2, hu.congr halloc⟩

end State.UsedBelow

/-! ### The page tables of the kernel directory -/

/-- Every table below the kernel half of the kernel directory serves a page that is there. -/
def TablesUsed (L : Layout) (use : ℕ → Use) : Prop :=
  ∀ t i, use t = .table L.dirFrame i → ∃ p, Backed use p ∧ p / 1024 = i

theorem TablesUsed.added {L : Layout} {use use' : ℕ → Use} {D p f : ℕ} {s s' : State}
    (h : TablesUsed L use) (ha : Added L D p f use s use' s') : TablesUsed L use' := by
  intro t i ht
  obtain ⟨u₁, s₁, ht₁, ht₂⟩ := ha.grown.tables
  rcases ht₂.label ht with ht | ⟨_, rfl⟩
  · rcases ht₁.label ht with ht | ⟨_, rfl⟩
    · have htf : t ≠ f := by rintro rfl; rw [Function.update_self] at ht; cases ht
      rw [Function.update_of_ne htf] at ht
      obtain ⟨q, hq, hi⟩ := h t i ht
      exact ⟨q, (ha.backed q).mpr (Or.inl hq), hi⟩
    · exact ⟨p, (ha.backed p).mpr (Or.inr rfl), rfl⟩
  · exact ⟨p, (ha.backed p).mpr (Or.inr rfl), rfl⟩

theorem TablesUsed.dir {L : Layout} {use : ℕ → Use} {m : ℕ} {o : Owner} (h : TablesUsed L use)
    (hfree : use m = .free) : TablesUsed L (Function.update use m (.dir o)) := by
  intro t i ht
  have htm : t ≠ m := by rintro rfl; rw [Function.update_self] at ht; cases ht
  rw [Function.update_of_ne htm] at ht
  obtain ⟨q, ⟨f, hf⟩, hi⟩ := h t i ht
  refine ⟨q, ⟨f, ?_⟩, hi⟩
  rw [Function.update_of_ne (by rintro rfl; rw [hfree] at hf; cases hf)]
  exact hf

/-! ### The invariant of `init_all_heaps` -/

/-- No pointer is in the client's hands. -/
def noLive : ℕ → Option ℕ := fun _ => none

/-- The free list of a domain with `k` pages and nothing allocated: the pages in the order
of their addresses downwards, the blocks of a page upwards. -/
def premappedBlocks (d : SizeClass) : ℕ → List ℕ
  | 0 => []
  | k + 1 => pageBlocks (d.virtBase / 4096 + k) d.blockSize ++ premappedBlocks d k

/-- The heap while `init_all_heaps` is at work: `pages d = some k` when domain `d` is open
and has `k` pages, and the frames below `m` are in use. -/
structure Booting (L : Layout) (pages : SizeClass → Option ℕ) (use : ℕ → Use) (m : ℕ)
    (s : State) : Prop where
  heap : HeapPages L use s
  used : s.UsedBelow m
  dom : ∀ d k, pages d = some k →
    DomainInv L use noLive d s ∧ (s.domains d).nextVirtAddr = d.virtBase + k * 4096
  list : ∀ d k, pages d = some k → FreeList L s d (premappedBlocks d k)
  dirs : ∀ D o, use D = .dir o → ∃ d, pages d ≠ none ∧ o = .cls d
  region : ∀ p, Backed use p →
    ∃ d k, pages d = some k ∧ d.virtBase ≤ p * 4096 ∧ p * 4096 < d.virtBase + 0x10000000
  tables : TablesUsed L use
  noList : s.currentIndex = 0 ∧ s.processLists = 0

namespace Booting

variable {L : Layout} {pages : SizeClass → Option ℕ} {use : ℕ → Use} {m : ℕ} {s : State}

/-- One turn of the premap loop. -/
theorem premapPage (h : Booting L pages use m s) {d : SizeClass} {k : ℕ} (hd : pages d = some k)
    (hk : k < 0x10000) (hm : m + 3 ≤ 0x40000) :
    ∃ use' m' s', L.premapPage d s = .ok () s' ∧ m' ≤ m + 3 ∧
      Booting L (Function.update pages d (some (k + 1))) use' m' s' ∧ Spares use s use' s' := by
  obtain ⟨hdom, hcursor⟩ := h.dom d k hd
  have hroom : Room s.allocated 3 0x40000 := h.used.room (by norm_num) hm
  obtain ⟨f, hflt, hfirst, hfree, hf0, hframe⟩ :=
    h.heap.inv.processFrame hroom (by norm_num)
  have hends : Ends (L.premapPage d) s (fun _ s' => ∃ use' m', m' ≤ m + 3 ∧
      Booting L (Function.update pages d (some (k + 1))) use' m' s' ∧ Spares use s use' s')
      (fun _ => False) := by
    unfold Layout.premapPage
    refine Ends.bind_ok hframe ?_
    rw [if_neg hf0]
    refine Ends.bind_ok (show getDomain d (s.take f) = .ok (s.domains d) (s.take f) from rfl) ?_
    rw [← bind_pure_unit (x := modifyDomain d fun r =>
      { r with nextVirtAddr := u32 (r.nextVirtAddr + 4096) })]
    refine hdom.grow h.heap hfirst hfree (by omega) (by omega) (State.room_newTables hroom)
      (by norm_num)
      (fun use' s' hx => Ends.of_ok rfl ?_) (fun _ hc => absurd hc (lt_irrefl _))
    obtain ⟨m', hm', _, hused⟩ := h.used.expanded (by omega) hx
    obtain ⟨D, g, s₁, hg, _, hadd, _⟩ := hx.added
    have hcursor' : (s'.domains d).nextVirtAddr = d.virtBase + (k + 1) * 4096 := by
      rw [hx.cursor, hcursor]; ring
    have hpage : (s.domains d).nextVirtAddr / 4096 * 4096 = d.virtBase + k * 4096 := by
      have := hdom.aligned; omega
    have hpages : ∀ c, Function.update pages d (some (k + 1)) c ≠ none ↔ pages c ≠ none := fun c => by
      by_cases hc : c = d
      · subst hc; simp [hd]
      · rw [Function.update_of_ne hc]
    refine ⟨use', m', hm', ⟨hx.pages, hused, fun c j hc => ?_, fun c j hc => ?_,
      fun D' o hD' => ?_, fun p hp => ?_, h.tables.added hadd,
      ⟨hx.others.currentIndex.trans h.noList.1, hx.others.processLists.trans h.noList.2⟩⟩, hx.spares⟩
    · by_cases hcd : c = d
      · subst hcd
        rw [Function.update_self] at hc
        obtain rfl := Option.some.inj hc
        exact ⟨hx.dom, hcursor'⟩
      · rw [Function.update_of_ne hcd] at hc
        obtain ⟨hcdom, hccursor⟩ := h.dom c j hc
        have hdisj := SizeClass.region_disjoint hcd
        refine ⟨hcdom.congr (fun D' hD' => HeapPages.kept_of_grown hg hadd.grown D' (by rw [hD']; simp))
          (hx.others.domains c hcd) (fun p h1 h2 => ?_)
          (fun b hb _ => hx.same b (hcdom.backed_block hb).1) (fun _ _ _ => rfl),
          by rw [hx.others.domains c hcd]; exact hccursor⟩
        rw [hadd.backed]
        exact ⟨fun hb => hb.resolve_right (by rintro rfl; omega), Or.inl⟩
    · by_cases hcd : c = d
      · subst hcd
        rw [Function.update_self] at hc
        obtain rfl := Option.some.inj hc
        have hnew := hx.list _ (h.list c k hd)
        rw [hcursor, show (c.virtBase + k * 4096) / 4096 = c.virtBase / 4096 + k by omega] at hnew
        exact hnew
      · rw [Function.update_of_ne hcd] at hc
        exact (h.list c j hc).same (h.dom c j hc).1 (hx.others.domains c hcd) hx.same
    · rw [HeapPages.label_of_grown hg hadd.grown (by simp) (by simp)] at hD'
      obtain ⟨c, hc, rfl⟩ := h.dirs D' o (hD'.resolve_right (by simp))
      exact ⟨c, (hpages c).mpr hc, rfl⟩
    · rcases (hadd.backed p).mp hp with hp | rfl
      · obtain ⟨c, j, hc, h1, h2⟩ := h.region p hp
        obtain ⟨j', hj'⟩ := Option.ne_none_iff_exists'.mp ((hpages c).mpr (by rw [hc]; simp))
        exact ⟨c, j', hj', h1, h2⟩
      · exact ⟨d, k + 1, Function.update_self .., by omega, by omega⟩
  obtain ⟨_, s', hrun, use', m', hm', hb⟩ := hends.exists_ok
  exact ⟨use', m', s', hrun, hm', hb⟩

theorem kernelFrame (h : Booting L pages use m s) (hm : m < 0x40000) :
    use m = .free ∧ L.kernelFrames ≤ m ∧
      L.getNextFreeKernelFrame s = .ok (m * 4096) (s.take m) := by
  have hfirst := h.used.first (by omega)
  have hfree := h.heap.inv.use_of_clear (by omega) hfirst.1
  refine ⟨hfree, ?_, ?_⟩
  · by_contra hlt
    rw [h.heap.inv.kernel_of_lt (by omega)] at hfree
    cases hfree
  · rw [L.kernelFrame_eq h.heap.inv.image hfirst (by omega), takeFrame_low (by omega)]

theorem not_backed (h : Booting L pages use m s) {d : SizeClass} (hd : pages d = none) {p : ℕ}
    (h1 : d.virtBase ≤ p * 4096) (h2 : p * 4096 < d.virtBase + 0x10000000) : ¬ Backed use p := by
  intro hb
  obtain ⟨c, k, hc, h3, h4⟩ := h.region p hb
  obtain rfl := region_unique h1 h2 h3 h4
  rw [hd] at hc
  cases hc

/-- The directory and the empty record of the next domain. -/
theorem openDomain (h : Booting L pages use m s) {d : SizeClass} (hd : pages d = none)
    {s' : State} (hlt : m < 0x40000) (hfree : use m = .free)
    (hmem : ∀ g, g ≠ m → s'.mem g = s.mem g) (hzero : ∀ i < 768, (s'.mem m i).toNat = 0)
    (hhalf : ∀ i < 256, s'.mem m (768 + i) = s.mem L.dirFrame (768 + i))
    (halloc : ∀ f, s'.allocated f = (s.take m).allocated f) (hmaps : s'.maps = s.maps)
    (hstale : s'.stale = s.stale) (hlarge : s'.large = s.large)
    (hother : ∀ c, c ≠ d → s'.domains c = s.domains c)
    (hindex : s'.currentIndex = s.currentIndex) (hlists : s'.processLists = s.processLists)
    (hrec : s'.domains d =
      ⟨KERNEL_BASE + m * 4096, d.blockSize, 4096 / d.blockSize, 0, d.virtBase⟩) :
    Booting L (Function.update pages d (some 0)) (Function.update use m (.dir (.cls d))) (m + 1)
      s' := by
  have hheap : HeapPages L (Function.update use m (.dir (.cls d))) s' :=
    h.heap.addDir hfree hlt halloc hmem hzero hhalf hmaps hstale
      (fun _ c hc => by
        obtain ⟨e, he, heq⟩ := h.dirs c _ hc
        cases heq
        exact he hd)
      (fun _ => by rw [State.dirAddr, hrec])
      (fun r hr => by
        cases r with
        | cls c => rw [State.dirAddr, hother c (fun e => hr (by rw [e])), State.dirAddr]
        | large => rw [State.dirAddr, hlarge, State.dirAddr]
        | proc => rfl)
  have hkeep : ∀ f, use f ≠ .free → Function.update use m (.dir (.cls d)) f = use f := fun f hf =>
    Function.update_of_ne (by rintro rfl; exact hf hfree) ..
  have hback : ∀ p, Backed (Function.update use m (.dir (.cls d))) p ↔ Backed use p := by
    intro p
    constructor
    · rintro ⟨f, hf⟩
      refine ⟨f, ?_⟩
      by_cases hfm : f = m
      · rw [hfm, Function.update_self] at hf; cases hf
      · rwa [Function.update_of_ne hfm] at hf
    · rintro ⟨f, hf⟩
      exact ⟨f, by rw [hkeep f (by rw [hf]; simp)]; exact hf⟩
  have hsame : SameHeap L use s s' :=
    h.heap.sameHeap_of_frames hheap (fun f p hf => by rw [hkeep f (by rw [hf]; simp)]; exact hf)
      (fun f p hf => hmem f (by rintro rfl; rw [hfree] at hf; cases hf))
  refine ⟨hheap, h.used.take.congr halloc, fun c k hc => ?_, fun c k hc => ?_, fun D o hD => ?_,
    fun p hp => ?_, h.tables.dir hfree, ⟨hindex.trans h.noList.1, hlists.trans h.noList.2⟩⟩
  · by_cases hcd : c = d
    · subst hcd
      rw [Function.update_self] at hc
      obtain rfl := Option.some.inj hc
      refine ⟨?_, by rw [hrec]; simp⟩
      exact
        { home := ⟨m, Function.update_self ..⟩
          blockSize := by rw [hrec]
          perPage := by rw [hrec]
          aligned := by
            rw [hrec]
            show c.virtBase % 4096 = 0
            have := c.virtBase_mod
            omega
          cursor_ge := by rw [hrec]
          cursor_le := by rw [hrec]; exact Nat.le_add_right _ _
          backed := fun p h1 h2 => by
            rw [hrec, hback]
            exact ⟨fun hb => absurd hb (h.not_backed hd h1 h2),
              fun hlt => absurd h1 (Nat.not_le.mpr hlt)⟩
          chain := by
            rw [hrec]
            refine ⟨[], Chain.nil, fun b => ⟨fun hb => absurd hb List.not_mem_nil, ?_⟩⟩
            rintro ⟨⟨h1, h2, _⟩, _⟩
            exact absurd h1 (Nat.not_le.mpr h2)
          live := fun b n hb => by cases hb }
    · rw [Function.update_of_ne hcd] at hc
      obtain ⟨hcdom, hccursor⟩ := h.dom c k hc
      exact ⟨hcdom.congr (fun D hD => hkeep D (by rw [hD]; simp)) (hother c hcd)
        (fun p _ _ => hback p) (fun b hb _ => hsame b (hcdom.backed_block hb).1)
        (fun _ _ _ => rfl), by rw [hother c hcd]; exact hccursor⟩
  · by_cases hcd : c = d
    · subst hcd
      rw [Function.update_self] at hc
      obtain rfl := Option.some.inj hc
      rw [FreeList, hrec]
      exact Chain.nil
    · rw [Function.update_of_ne hcd] at hc
      exact (h.list c k hc).same (h.dom c k hc).1 (hother c hcd) hsame
  · by_cases hDm : D = m
    · rw [hDm, Function.update_self] at hD
      cases hD
      exact ⟨d, by simp, rfl⟩
    · rw [Function.update_of_ne hDm] at hD
      obtain ⟨c, hc, rfl⟩ := h.dirs D o hD
      refine ⟨c, ?_, rfl⟩
      rw [Function.update_of_ne (by rintro rfl; exact hc hd)]
      exact hc
  · obtain ⟨c, k, hc, h1, h2⟩ := h.region p ((hback p).mp hp)
    refine ⟨c, k, ?_, h1, h2⟩
    rw [Function.update_of_ne (by rintro rfl; rw [hd] at hc; cases hc)]
    exact hc

/-- `init_heap_domain` for one of the seven classes. -/
theorem initHeapDomain (h : Booting L pages use m s) {d : SizeClass} (hd : pages d = none)
    (hm : m + 769 ≤ 0x40000) :
    ∃ use' m' s', L.initHeapDomain d d.blockSize d.virtBase s = .ok () s' ∧ m' ≤ m + 769 ∧
      Booting L (Function.update pages d (some 256)) use' m' s' ∧ Spares use s use' s' := by
  obtain ⟨hfree, hge, hframe⟩ := h.kernelFrame (by omega)
  have hne : m * 4096 ≠ 0 := by unfold Layout.kernelFrames at hge; omega
  set s₁ := (s.take m).setDomain d fun r => { r with pageDirectory := KERNEL_BASE + m * 4096 }
    with hs₁
  obtain ⟨s₂, hrun₂, h₂⟩ := Layout.clearDirectory_spec (L := L) (s := s₁) (D := m)
    ⟨h.heap.inv.direct.dir, h.heap.inv.direct.table⟩ (by omega) hge
  set s₃ := s₂.setDomain d fun r =>
    { r with
      blockSize := d.blockSize
      blocksPerPage := 4096 / d.blockSize
      nextVirtAddr := d.virtBase
      nextFreeBlock := 0 } with hs₃
  have h₃ : Booting L (Function.update pages d (some 0)) (Function.update use m (.dir (.cls d)))
      (m + 1) s₃ := by
    refine h.openDomain hd (by omega) hfree h₂.others h₂.zero h₂.copied h₂.only.allocated
      h₂.only.maps h₂.only.stale h₂.only.large (fun c hc => ?_) h₂.only.currentIndex
      h₂.only.processLists ?_
    · rw [hs₃, State.setDomain_other _ _ hc, h₂.only.domains, hs₁, State.setDomain_other _ _ hc]
      rfl
    · rw [hs₃, State.setDomain_self, h₂.only.domains, hs₁, State.setDomain_self]
  have hdir : Spares use s (Function.update use m (.dir (.cls d))) s₃ :=
    Spares.take (u := .dir (.cls d)) hfree (by simp) (by simp) h₂.only.maps h₂.only.stale h₂.others
  obtain ⟨s', hrun', use', m', hm', h', hspare⟩ := times_rule (fun _ => L.premapPage d)
    (fun i t => ∃ use' m', m' ≤ m + 1 + 3 * i ∧
      Booting L (Function.update pages d (some i)) use' m' t ∧ Spares use s use' t)
    (n := PREMAP_PAGES) ⟨_, m + 1, le_rfl, h₃, hdir⟩
    (fun i t hi ⟨u, n, hn, ht, hspare⟩ => by
      unfold PREMAP_PAGES at hi
      obtain ⟨u', n', t', hrun, hn', ht', hspare'⟩ :=
        ht.premapPage (Function.update_self ..) (by omega) (by omega)
      rw [Function.update_idem] at ht'
      exact ⟨t', hrun, u', n', by omega, ht', hspare.trans hspare'⟩)
  unfold PREMAP_PAGES at hm' h'
  refine ⟨use', m', s', ?_, by omega, h', hspare⟩
  unfold Layout.initHeapDomain
  rw [run_bind_ok hframe, if_neg hne]
  show (modifyDomain d _ >>= fun _ => _) (s.take m) = _
  rw [direct_address (by omega)]
  rw [run_bind_ok (modifyDomain_run ..), run_bind_ok hrun₂, run_bind_ok (modifyDomain_run ..)]
  exact hrun'

/-- `init_large_domain`, the last step: all domains are open. -/
theorem initLargeDomain (h : Booting L (fun _ => some 256) use m s) (hm : m < 0x40000) :
    ∃ use' s', L.initLargeDomain s = .ok () s' ∧ HeapInv L use' noLive noLive s' ∧
      s'.UsedBelow (m + 1) ∧ TablesUsed L use' ∧ (∀ D, use' D ≠ .dir .proc) ∧
      (∀ d : SizeClass, (s'.domains d).nextVirtAddr = d.virtBase + 256 * 4096) ∧
      s'.large.nextVirtAddr = LARGE_VIRT_BASE ∧ s'.large.nextFreeVirt = 0 ∧
      (∀ d, FreeList L s' d (premappedBlocks d 256)) ∧
      (s'.currentIndex = 0 ∧ s'.processLists = 0) ∧ Spares use s use' s' := by
  obtain ⟨hfree, hge, hframe⟩ := h.kernelFrame hm
  have hne : m * 4096 ≠ 0 := by unfold Layout.kernelFrames at hge; omega
  set s₁ := (s.take m).setLarge fun r => { r with pageDirectory := KERNEL_BASE + m * 4096 }
    with hs₁
  obtain ⟨s₂, hrun₂, h₂⟩ := Layout.clearDirectory_spec (L := L) (s := s₁) (D := m)
    ⟨h.heap.inv.direct.dir, h.heap.inv.direct.table⟩ hm hge
  have hdomains : s₂.domains = s.domains := h₂.only.domains
  have hlarge : s₂.large.pageDirectory = KERNEL_BASE + m * 4096 := by rw [h₂.only.large]; rfl
  set s₄ := (s₂.setLarge fun r => { r with nextVirtAddr := LARGE_VIRT_BASE }).setLarge
    fun r => { r with nextFreeVirt := 0 } with hs₄
  have hheap : HeapPages L (Function.update use m (.dir .large)) s₄ :=
    h.heap.addDir hfree hm h₂.only.allocated h₂.others h₂.zero h₂.copied h₂.only.maps h₂.only.stale
      (fun _ c hc => by
        obtain ⟨e, _, heq⟩ := h.dirs c _ hc
        cases heq)
      (fun _ => hlarge)
      (fun r hr => by
        cases r with
        | cls c => exact congrArg (fun g => (g c).pageDirectory) hdomains
        | large => exact absurd rfl hr
        | proc => rfl)
  have hkeep : ∀ f, use f ≠ .free → Function.update use m (.dir .large) f = use f := fun f hf =>
    Function.update_of_ne (by rintro rfl; exact hf hfree) ..
  have hback : ∀ p, Backed (Function.update use m (.dir .large)) p ↔ Backed use p := by
    intro p
    constructor
    · rintro ⟨f, hf⟩
      refine ⟨f, ?_⟩
      by_cases hfm : f = m
      · rw [hfm, Function.update_self] at hf; cases hf
      · rwa [Function.update_of_ne hfm] at hf
    · rintro ⟨f, hf⟩
      exact ⟨f, by rw [hkeep f (by rw [hf]; simp)]; exact hf⟩
  have hsame : SameHeap L use s s₄ :=
    h.heap.sameHeap_of_frames hheap (fun f p hf => by rw [hkeep f (by rw [hf]; simp)]; exact hf)
      (fun f p hf => h₂.others f (by rintro rfl; rw [hfree] at hf; cases hf))
  have hnone : ∀ p, 0x80000 ≤ p → ¬ Backed use p := fun p hp hb => by
    obtain ⟨d, _, _, h1, h2⟩ := h.region p hb
    have := d.virtBase_bounds
    omega
  refine ⟨_, s₄, ?_, ⟨hheap, fun d => ?_, ?_, fun p n hp => by cases hp⟩,
    h.used.take.congr h₂.only.allocated, h.tables.dir hfree, fun D hD => ?_, fun d => ?_, rfl, rfl,
    fun d => (h.list d 256 rfl).same (h.dom d 256 rfl).1 (congrFun hdomains d) hsame,
    ⟨h₂.only.currentIndex.trans h.noList.1, h₂.only.processLists.trans h.noList.2⟩,
    Spares.take (u := .dir .large) hfree (by simp) (by simp) h₂.only.maps h₂.only.stale h₂.others⟩
  · unfold Layout.initLargeDomain
    rw [run_bind_ok hframe, if_neg hne]
    show (modifyLarge _ >>= fun _ => _) (s.take m) = _
    rw [direct_address hm]
    rw [run_bind_ok (modifyLarge_run ..), run_bind_ok hrun₂, run_bind_ok (modifyLarge_run ..)]
    rfl
  · obtain ⟨hdom, _⟩ := h.dom d 256 rfl
    exact hdom.congr (fun D hD => hkeep D (by rw [hD]; simp)) (congrFun hdomains d)
      (fun p _ _ => hback p) (fun b hb _ => hsame b (hdom.backed_block hb).1) (fun _ _ _ => rfl)
  · exact
      { home := ⟨m, Function.update_self ..⟩
        aligned := by show LARGE_VIRT_BASE % 4096 = 0; norm_num [LARGE_VIRT_BASE]
        cursor_ge := le_rfl
        cursor_le := by show LARGE_VIRT_BASE ≤ _; norm_num [LARGE_VIRT_BASE]
        within := fun q N hq => by cases hq
        disjoint := fun q N _ _ hq => by cases hq
        header := fun p n hp => by cases hp
        slot := fun q N hq => by cases hq
        chain := ⟨[], Chain.nil, fun b => ⟨fun hb => absurd hb List.not_mem_nil,
          fun ⟨_, ⟨_, hN⟩, _⟩ => by cases hN⟩⟩
        backed := fun p hp => ⟨fun hb => absurd ((hback p).mp hb) (hnone p hp),
          fun ⟨_, _, hq, _⟩ => by cases hq⟩ }
  · by_cases hDm : D = m
    · rw [hDm, Function.update_self] at hD; cases hD
    · rw [Function.update_of_ne hDm] at hD
      obtain ⟨c, _, hc⟩ := h.dirs D _ hD
      cases hc
  · obtain ⟨_, hcursor⟩ := h.dom d 256 rfl
    rw [← hcursor]
    exact congrArg (fun g => (g d).nextVirtAddr) hdomains

end Booting

/-! ### `boot` -/

/-- The heap as `boot` leaves it: the domains have their premapped pages, and no more than
`m` frames are in use. -/
structure Booted (L : Layout) (use : ℕ → Use) (m : ℕ) (s : State) : Prop where
  heap : HeapInv L use noLive noLive s
  used : s.UsedBelow m
  few : m ≤ 7000
  tables : TablesUsed L use
  noProc : ∀ D, use D ≠ .dir .proc
  cursor : ∀ d : SizeClass, (s.domains d).nextVirtAddr = d.virtBase + 256 * 4096
  largeCursor : s.large.nextVirtAddr = LARGE_VIRT_BASE
  largeHead : s.large.nextFreeVirt = 0
  list : ∀ d, FreeList L s d (premappedBlocks d 256)
  noList : s.currentIndex = 0 ∧ s.processLists = 0

/-- `init_paging` and `init_pmm` prepare for the first directory. -/
theorem Booting.start (L : Layout) (mem : ℕ → ℕ → Word) :
    ∃ s₁ s₂, L.initPaging (State.powerOn mem) = .ok () s₁ ∧ L.initPmm s₁ = .ok () s₂ ∧
      Booting L (fun _ => none) L.imageUse L.kernelFrames s₂ ∧
      (∀ g, 1024 ≤ g → s₂.mem g = mem g) ∧ s₂.stale = false := by
  obtain ⟨s₁, hrun₁, honly, hdirect, hlow⟩ := L.initPaging_spec (State.powerOn mem)
  obtain ⟨s₂, hrun₂, hpmm, halloc⟩ := L.initPmm_spec s₁
  have hmem : ∀ g, s₂.mem g = s₁.mem g := fun g => congrFun hpmm.mem g
  have hno : ∀ f v, L.imageUse f = v → v ≠ .kernel → v ≠ .free → False := fun f v hf hk hv => by
    rcases L.imageUse_cases f with ⟨h, _⟩ | ⟨h, _⟩ <;> rw [h] at hf
    · exact hk hf.symm
    · exact hv hf.symm
  refine ⟨s₁, s₂, hrun₁, hrun₂, ⟨HeapPages.initial (hdirect.congr (fun i _ => by rw [hmem])
    (fun i _ => hmem _)) halloc (fun j hj => by rw [hmem]; exact hlow j hj) (fun d p => ?_), halloc,
    fun d k hd => (by cases hd), fun d k hd => (by cases hd),
    fun D o hD => (hno D _ hD (by simp) (by simp)).elim,
    fun p ⟨f, hf⟩ => (hno f _ hf (by simp) (by simp)).elim,
    fun t i ht => (hno t _ ht (by simp) (by simp)).elim, ?_⟩, fun g hg => ?_, ?_⟩
  · rw [hpmm.maps, honly.maps]
    rfl
  · rw [hpmm.currentIndex, honly.currentIndex, hpmm.processLists, honly.processLists]
    exact ⟨rfl, rfl⟩
  · rw [hmem g]
    exact (L.keeps_initPaging mem).ok hrun₁ (fun _ _ => rfl) g hg
  · rw [hpmm.stale, honly.stale]
    rfl

/-- The heap comes up from any contents of memory; what paging has not written of the memory
behind the first 4 MB is still there, and if nothing there looked like a present entry and the
image fills these 4 MB, no table was drawn from a frame with old entries. -/
theorem Layout.boot_words (L : Layout) (mem : ℕ → ℕ → Word) :
    ∃ use m s, L.boot (State.powerOn mem) = .ok () s ∧ Booted L use m s ∧
      (∀ g j, 1024 ≤ g → j < 1024 → Unwritten use s g j → s.mem g j = mem g j) ∧
      (L.kernelFrames = 1024 → (∀ g j, (mem g j).toNat % 2 = 0) → s.stale = false) := by
  have hK : L.kernelFrames ≤ 1024 := L.high
  obtain ⟨t, s₀, hr, hr₀, h₀, hmem, hstale⟩ := Booting.start L mem
  obtain ⟨_, m₁, s₁, hr₁, hm₁, h₁, hw₁⟩ := h₀.initHeapDomain (d := .heap64) rfl (by omega)
  obtain ⟨_, m₂, s₂, hr₂, hm₂, h₂, hw₂⟩ := h₁.initHeapDomain (d := .heap128) rfl (by omega)
  obtain ⟨_, m₃, s₃, hr₃, hm₃, h₃, hw₃⟩ := h₂.initHeapDomain (d := .heap256) rfl (by omega)
  obtain ⟨_, m₄, s₄, hr₄, hm₄, h₄, hw₄⟩ := h₃.initHeapDomain (d := .heap512) rfl (by omega)
  obtain ⟨_, m₅, s₅, hr₅, hm₅, h₅, hw₅⟩ := h₄.initHeapDomain (d := .heap1k) rfl (by omega)
  obtain ⟨_, m₆, s₆, hr₆, hm₆, h₆, hw₆⟩ := h₅.initHeapDomain (d := .heap2k) rfl (by omega)
  obtain ⟨_, m₇, s₇, hr₇, hm₇, h₇, hw₇⟩ := h₆.initHeapDomain (d := .heap4k) rfl (by omega)
  -- every domain is open now
  rw [show Function.update (Function.update (Function.update (Function.update (Function.update
    (Function.update (Function.update (fun _ : SizeClass => (none : Option ℕ)) .heap64 (some 256))
    .heap128 (some 256)) .heap256 (some 256)) .heap512 (some 256)) .heap1k (some 256)) .heap2k
    (some 256)) .heap4k (some 256) = fun _ => some 256 from funext fun d => by cases d <;> rfl] at h₇
  obtain ⟨use, s₈, hr₈, h₈, hused, htables, hproc, hcursor, hlarge, hhead, hlist, hempty, hw₈⟩ :=
    h₇.initLargeDomain (by omega)
  have hw := ((((((hw₁.trans hw₂).trans hw₃).trans hw₄).trans hw₅).trans hw₆).trans hw₇).trans hw₈
  have hclean : L.kernelFrames = 1024 → (∀ g j, (mem g j).toNat % 2 = 0) →
      CleanMemory L.imageUse s₀ := by
    rintro hfill heven g j - hu
    rcases L.imageUse_cases g with ⟨hk, -⟩ | ⟨-, hge⟩
    · rcases hu with hfree | ⟨d, i, ht, -⟩
      · rw [hk] at hfree
        cases hfree
      · rw [hk] at ht
        cases ht
    · rw [hmem g (by omega)]
      exact heven g j
  refine ⟨use, m₇ + 1, s₈, ?_, ⟨h₈, hused, by omega, htables, hproc, hcursor, hlarge, hhead, hlist,
    hempty⟩, fun g j hg hj hu => by rw [hw.words g j hj hu, hmem g hg],
    fun hfill heven => (hw.clean (hclean hfill heven)).trans hstale⟩
  unfold Layout.boot
  rw [run_bind_ok hr, run_bind_ok hr₀]
  unfold Layout.initAllHeaps
  exact (run_bind_ok hr₁).trans <| (run_bind_ok hr₂).trans <| (run_bind_ok hr₃).trans <|
    (run_bind_ok hr₄).trans <| (run_bind_ok hr₅).trans <| (run_bind_ok hr₆).trans <|
    (run_bind_ok hr₇).trans hr₈

/-- With zero memory at power-on and the image in all of the first 4 MB, no frame that is free or
a table holds an entry of its own. -/
theorem Layout.boot_clean : ∃ use m s, highest.boot (State.powerOn fun _ _ => 0) = .ok () s ∧
    Booted highest use m s ∧ CleanMemory use s ∧ s.stale = false := by
  obtain ⟨use, m, s, hboot, hb, hwords, hstale⟩ := highest.boot_words fun _ _ => 0
  refine ⟨use, m, s, hboot, hb, ?_, hstale rfl fun _ _ => rfl⟩
  intro g j hj hu
  by_cases hg : 1024 ≤ g
  · rw [hwords g j hg hj hu]
    rfl
  · have hkernel := hb.heap.pages.inv.kernel_of_lt (show g < 1024 by omega)
    rcases hu with hfree | ⟨d, i, ht, -⟩
    · rw [hkernel] at hfree
      cases hfree
    · rw [hkernel] at ht
      cases ht

theorem Layout.boot_spec (L : Layout) (mem : ℕ → ℕ → Word) :
    ∃ use m s, L.boot (State.powerOn mem) = .ok () s ∧ Booted L use m s := by
  obtain ⟨use, m, s, hr, hb, -⟩ := L.boot_words mem
  exact ⟨use, m, s, hr, hb⟩

theorem HeapInv.alloc_ok {L : Layout} {use : ℕ → Use} {live ranges : ℕ → Option ℕ} {s : State}
    (h : HeapInv L use live ranges s) {d : SizeClass} (hne : (s.domains d).nextFreeBlock ≠ 0) :
    ∃ a s' use', L.heapDomainAlloc d s = .ok a s' ∧ a ≠ 0 ∧ Popped L d use live s a use' s' := by
  obtain ⟨a, s', hr, use', h', hpop⟩ := ((h.domainAlloc d (n := 0) (Nat.zero_le _)
    (m := 0x40000) (by norm_num) (fun hnil => absurd hnil hne)).mono (fun _ _ hq => hq)
    (fun _ hE => absurd hE.1 (lt_irrefl _))).exists_ok
  have h1 := hpop.block.1
  have h2 := d.virtBase_bounds
  exact ⟨a, s', use', hr, by omega, hpop⟩

theorem Booted.head_ne_zero {L : Layout} {use : ℕ → Use} {m : ℕ} {s : State}
    (h : Booted L use m s) (d : SizeClass) : (s.domains d).nextFreeBlock ≠ 0 := by
  obtain ⟨l, hl, hmem⟩ := (h.heap.dom d).chain
  intro hnil
  rw [hnil] at hl
  have hb : d.virtBase ∈ l := (hmem d.virtBase).mpr
    ⟨⟨le_rfl, by rw [h.cursor d]; omega, by simp⟩, rfl⟩
  rw [hl.eq_nil] at hb
  cases hb

theorem Booted.alloc_ok {L : Layout} {use : ℕ → Use} {m : ℕ} {s : State} (h : Booted L use m s)
    (d : SizeClass) :
    ∃ a s', L.heapDomainAlloc d s = .ok a s' ∧ a ≠ 0 ∧
      (s'.domains d).nextVirtAddr = d.virtBase + 256 * 4096 ∧
      ∀ g, s'.allocated g = s.allocated g := by
  have hne := h.head_ne_zero d
  obtain ⟨a, s', use', hr, ha, hpop⟩ := h.heap.alloc_ok hne
  refine ⟨a, s', hr, ha, ?_⟩
  cases hpop.growth with
  | inl hfast =>
      obtain ⟨_, _, halloc, _, _, hcur⟩ := hfast
      exact ⟨by rw [hcur, h.cursor d], halloc⟩
  | inr hslow => exact absurd hslow.1 hne

end RaxzusHeap
