import RaxzusHeap.Runs

/-! # Runs of the size-class domains

Runs without large allocations take frames in increasing order and never release one.  Each
page of a region takes one frame, and every 1024th page two more for its page tables; a
table beyond 1 GB would stop the machine.  So once the frames in use pass 1 GB, a domain can
only fill up the 4 MB it is in, and `SmallHeap` can bound the frames of every such run by
1 GB and what is left of those seven windows (`slack`). -/

namespace RaxzusHeap

open Imperative FirstFit Linked

/-! ### The cursor of the slow path -/

/-- Whatever the state, the slow path hands out the address at the cursor and moves the
cursor by a page, unless there was no frame for it. -/
theorem Layout.heapDomainAlloc_slow (L : Layout) {d : SizeClass} {s s₁ s' : State} {a phys : ℕ}
    (hr : L.heapDomainAlloc d s = .ok a s') (hnil : (s.domains d).nextFreeBlock = 0)
    (h₁ : getNextFreeProcessFrame s = .ok phys s₁) (hphys : phys ≠ 0) :
    a = (s.domains d).nextVirtAddr ∧
      (s'.domains d).nextVirtAddr = u32 ((s.domains d).nextVirtAddr + 4096) := by
  have hst := stable_domain d (s.domains d)
  have hd₁ := (hst.processWordLoop _ _).ok h₁ rfl
  unfold Layout.heapDomainAlloc at hr
  rw [run_bind_ok (show getDomain d s = .ok (s.domains d) s from rfl),
    if_neg (not_not.mpr hnil), run_bind_ok h₁, if_neg hphys] at hr
  obtain ⟨_, s₂, h₂, hr⟩ := run_bind_eq_ok.mp hr
  obtain ⟨_, s₃, h₃, hr⟩ := run_bind_eq_ok.mp hr
  obtain ⟨_, s₄, h₄, hr⟩ := run_bind_eq_ok.mp hr
  have hd₂ := (hst.mapPage L _ _ _ _).ok h₂ hd₁
  have hd₃ := (hst.mapPage L _ _ _ _).ok h₃ hd₂
  have hd₄ := (hst.linkBlocks L _ _ _ _).ok h₄ hd₃
  rw [run_bind_ok (modifyDomain_run ..), run_bind_ok (modifyDomain_run ..)] at hr
  obtain ⟨next, s₅, h₅, hr⟩ := run_bind_eq_ok.mp hr
  have hd₅ := ((stable_domain d _).load L _).ok h₅ rfl
  rw [run_bind_ok (modifyDomain_run ..)] at hr
  cases hr
  refine ⟨rfl, ?_⟩
  rw [State.setDomain_self, hd₅, State.setDomain_self, State.setDomain_self, hd₄]

/-! ### The pages left in the current page table -/

/-- The pages a domain can still add before it needs another page table. -/
def pagesLeft (s : State) (d : SizeClass) : ℕ :=
  (1024 - (s.domains d).nextVirtAddr / 4096 % 1024) % 1024

/-- The pages all domains together can add without another page table. -/
def slack (s : State) : ℕ := (SizeClass.all.map (pagesLeft s)).sum

theorem pagesLeft_le (s : State) (d : SizeClass) : pagesLeft s d ≤ 1023 := by
  unfold pagesLeft
  omega

theorem slack_le (s : State) : slack s ≤ 7 * 1023 := by
  have h := pagesLeft_le s
  simp only [slack, SizeClass.all, List.map_cons, List.map_nil, List.sum_cons, List.sum_nil]
  have h1 := h .heap64
  have h2 := h .heap128
  have h3 := h .heap256
  have h4 := h .heap512
  have h5 := h .heap1k
  have h6 := h .heap2k
  have h7 := h .heap4k
  omega

/-- Only the record of one domain changed. -/
theorem slack_other {s s' : State} {d : SizeClass} (h : ∀ c, c ≠ d → s'.domains c = s.domains c) :
    slack s' + pagesLeft s d = slack s + pagesLeft s' d := by
  have hc : ∀ c, c ≠ d → pagesLeft s' c = pagesLeft s c := by
    intro c hcd
    unfold pagesLeft
    rw [h c hcd]
  simp only [slack, SizeClass.all, List.map_cons, List.map_nil, List.sum_cons, List.sum_nil]
  cases d with
  | heap64 =>
      rw [hc .heap128 (by decide), hc .heap256 (by decide), hc .heap512 (by decide),
        hc .heap1k (by decide), hc .heap2k (by decide), hc .heap4k (by decide)]
      omega
  | heap128 =>
      rw [hc .heap64 (by decide), hc .heap256 (by decide), hc .heap512 (by decide),
        hc .heap1k (by decide), hc .heap2k (by decide), hc .heap4k (by decide)]
      omega
  | heap256 =>
      rw [hc .heap64 (by decide), hc .heap128 (by decide), hc .heap512 (by decide),
        hc .heap1k (by decide), hc .heap2k (by decide), hc .heap4k (by decide)]
      omega
  | heap512 =>
      rw [hc .heap64 (by decide), hc .heap128 (by decide), hc .heap256 (by decide),
        hc .heap1k (by decide), hc .heap2k (by decide), hc .heap4k (by decide)]
      omega
  | heap1k =>
      rw [hc .heap64 (by decide), hc .heap128 (by decide), hc .heap256 (by decide),
        hc .heap512 (by decide), hc .heap2k (by decide), hc .heap4k (by decide)]
      omega
  | heap2k =>
      rw [hc .heap64 (by decide), hc .heap128 (by decide), hc .heap256 (by decide),
        hc .heap512 (by decide), hc .heap1k (by decide), hc .heap4k (by decide)]
      omega
  | heap4k =>
      rw [hc .heap64 (by decide), hc .heap128 (by decide), hc .heap256 (by decide),
        hc .heap512 (by decide), hc .heap1k (by decide), hc .heap2k (by decide)]
      omega

theorem slack_congr {s s' : State}
    (h : ∀ d, (s'.domains d).nextVirtAddr = (s.domains d).nextVirtAddr) : slack s' = slack s := by
  have hd : pagesLeft s' = pagesLeft s := by
    funext d
    unfold pagesLeft
    rw [h d]
  unfold slack
  rw [hd]

/-! ### The tables behind a page -/

theorem HeapPages.table_of_backed {L : Layout} {use : ℕ → Use} {s : State} (h : HeapPages L use s)
    {q D : ℕ} (hq : Backed use q) (hD : use D = .dir (homeOf q)) :
    (∃ t, use t = .table L.dirFrame (q / 1024)) ∧ ∃ t, use t = .table D (q / 1024) := by
  obtain ⟨f, hf⟩ := hq
  obtain ⟨_, _, t, ht, _⟩ := h.inv.pte _ _ _ (h.kernelMap f q hf)
  obtain ⟨D', hD', hm⟩ := h.homeMap f q hf
  obtain ⟨_, _, t', ht', _⟩ := h.inv.pte _ _ _ hm
  rw [h.dir_unique hD' hD (homeOf_ne_proc q)] at ht'
  exact ⟨⟨t, ht⟩, ⟨t', ht'⟩⟩

theorem Table.of_found {use use' : ℕ → Use} {s s' : State} {d i t : ℕ}
    (h : Table use s d i use' s') (ht : use t = .table d i) :
    use' = use ∧ ∀ g, s'.allocated g = s.allocated g := by
  cases h with
  | found _ hu ha => exact ⟨hu, ha⟩
  | taken hnone => exact absurd ht (hnone t)

/-! ### The invariant -/

/-- The heap in a run without large allocations. -/
structure SmallHeap (L : Layout) (use : ℕ → Use) (live : ℕ → Option ℕ) (m : ℕ) (s : State) :
    Prop where
  heap : HeapInv L use live noLive s
  used : s.UsedBelow m
  tables : TablesUsed L use
  few : m + slack s ≤ 0x40000 + 7 * 1023

namespace SmallHeap

variable {L : Layout} {use : ℕ → Use} {live : ℕ → Option ℕ} {m : ℕ} {s : State}

theorem room (h : SmallHeap L use live m s) : Room s.allocated 3 0x50000 := by
  have := h.few
  exact h.used.room (by norm_num) (by omega)

theorem live_small (h : SmallHeap L use live m s) {p n : ℕ} (hp : live p = some n) :
    ∃ d : SizeClass, d.virtBase ≤ p ∧ p < d.virtBase + 0x10000000 ∧ n ≤ d.blockSize := by
  cases window_cases (h.heap.heap p n hp) with
  | inl hge =>
      obtain ⟨_, N, hN, _⟩ := h.heap.large.header p n hp hge
      cases hN
  | inr hd =>
      obtain ⟨d, h1, h2⟩ := hd
      exact ⟨d, h1, h2, ((h.heap.dom d).live p n hp h1 h2).2⟩

/-- In the middle of a page table, a page costs one frame. -/
theorem expanded_inside (h : SmallHeap L use live m s) {d : SizeClass} {use' : ℕ → Use}
    {s' : State} (hx : Expanded L d use live s use' s')
    (hin : (s.domains d).nextVirtAddr / 4096 % 1024 ≠ 0) :
    s'.UsedBelow (m + 1) ∧ m + 1 + slack s' ≤ 0x40000 + 7 * 1023 := by
  obtain ⟨D, f, s₁, hf, hfirst, hadd, halloc, _, _, hD⟩ := hx.added
  have hdom := h.heap.dom d
  have hbase := d.virtBase_mod
  have hal := hdom.aligned
  have hge := hdom.cursor_ge
  have hcle := hdom.cursor_le
  obtain ⟨p, hp⟩ : ∃ p, (s.domains d).nextVirtAddr = p * 4096 + 4096 :=
    ⟨(s.domains d).nextVirtAddr / 4096 - 1, by omega⟩
  have hdiv : (s.domains d).nextVirtAddr / 4096 = p + 1 := by omega
  rw [hdiv] at hin
  rw [hdiv] at hadd
  -- the page below the cursor is mapped and shares its tables with the new one
  have hback : Backed use p := (hdom.backed p (by omega) (by omega)).mpr (by omega)
  have hhome : homeOf p = .cls d := d.homeOf_page (by omega) (by omega)
  obtain ⟨⟨t, ht⟩, ⟨u, hu⟩⟩ := h.heap.pages.table_of_backed hback (by rw [hhome]; exact hD)
  have hsame : p / 1024 = (p + 1) / 1024 := by omega
  rw [hsame] at ht hu
  have hkeep : ∀ g c i, use g = .table c i → Function.update use f (.page (p + 1)) g = .table c i := by
    intro g c i hg
    rw [Function.update_of_ne (by rintro rfl; rw [hf] at hg; cases hg)]
    exact hg
  obtain ⟨u₁, t₁, ht₁, ht₂⟩ := hadd.grown.tables
  obtain ⟨rfl, ha₁⟩ := ht₁.of_found (hkeep u _ _ hu)
  obtain ⟨_, ha₂⟩ := ht₂.of_found (hkeep t _ _ ht)
  have hm := h.few
  have hfm := h.used.eq_of_first (by omega) hfirst
  rw [hfm] at ha₁
  have hused : s'.UsedBelow (m + 1) :=
    h.used.take.congr fun g => by rw [halloc, ha₂, ha₁]
  refine ⟨hused, ?_⟩
  have hslack := slack_other hx.others.domains
  have hcur := hx.cursor
  unfold pagesLeft at hslack
  rw [hcur, Nat.add_div_right _ (by norm_num), hdiv] at hslack
  omega

/-- On the boundary of a page table, the table of the kernel directory is new, and it was
within reach. -/
theorem expanded_boundary (h : SmallHeap L use live m s) {d : SizeClass} {use' : ℕ → Use}
    {s' : State} (hx : Expanded L d use live s use' s')
    (hin : (s.domains d).nextVirtAddr / 4096 % 1024 = 0) :
    ∃ m', s'.UsedBelow m' ∧ m' + slack s' ≤ 0x40000 + 7 * 1023 := by
  obtain ⟨D, f, s₁, hf, hfirst, hadd, halloc, _, _, hD⟩ := hx.added
  have hdom := h.heap.dom d
  have hbase := d.virtBase_mod
  have hal := hdom.aligned
  have hge := hdom.cursor_ge
  have hcur := hx.cursor
  have hcle := hx.dom.cursor_le
  obtain ⟨p, hp⟩ : ∃ p, (s.domains d).nextVirtAddr = p * 4096 :=
    ⟨(s.domains d).nextVirtAddr / 4096, by omega⟩
  have hdiv : (s.domains d).nextVirtAddr / 4096 = p := by omega
  rw [hdiv] at hin
  rw [hdiv] at hadd
  have hDK : L.dirFrame ≠ D := by
    rintro rfl
    rw [h.heap.pages.inv.use_dirFrame] at hD
    cases hD
  have hm := h.few
  have hfm := h.used.eq_of_first (by omega) hfirst
  subst hfm
  obtain ⟨u₁, t₁, ht₁, ht₂⟩ := hadd.grown.tables
  obtain ⟨m₁, hm₁, _, hu₁⟩ := h.used.take.table (by omega) ht₁
  have hnone : ∀ t, u₁ t ≠ .table L.dirFrame (p / 1024) := by
    intro t ht
    cases ht₁.label ht with
    | inr hc => exact hDK hc.1
    | inl ht =>
        have htf : t ≠ f := by rintro rfl; rw [Function.update_self] at ht; cases ht
        rw [Function.update_of_ne htf] at ht
        -- its page would lie between the boundary and the cursor
        obtain ⟨q, hq, hi⟩ := h.tables t _ ht
        have := (hdom.backed q (by omega) (by omega)).mp hq
        omega
  cases ht₂ with
  | found ht => exact absurd ht (hnone _)
  | @taken t _ hfirst₂ hlt _ ha₂ =>
      have htm := hu₁.eq_of_first (by omega) hfirst₂
      subst htm
      have hslack := slack_le s'
      exact ⟨t + 1, hu₁.take.congr fun g => by rw [halloc, ha₂], by omega⟩

theorem expanded (h : SmallHeap L use live m s) {d : SizeClass} {use' : ℕ → Use} {s' : State}
    (hx : Expanded L d use live s use' s') :
    TablesUsed L use' ∧ ∃ m', s'.UsedBelow m' ∧ m' + slack s' ≤ 0x40000 + 7 * 1023 := by
  refine ⟨?_, ?_⟩
  · obtain ⟨_, _, _, _, _, hadd, _⟩ := hx.added
    exact h.tables.added hadd
  · by_cases hin : (s.domains d).nextVirtAddr / 4096 % 1024 = 0
    · exact h.expanded_boundary hx hin
    · exact ⟨m + 1, h.expanded_inside hx hin⟩

/-- What the effect of a call does to the frames. -/
theorem of_effect (h : SmallHeap L use live m s) {op : HeapOp} {a : ℕ} {use' : ℕ → Use}
    {live' ranges' : ℕ → Option ℕ} {s' : State} (hlarge : op.large = none)
    (he : Effect L use live noLive s op a use' ranges' s')
    (h' : HeapInv L use' live' ranges' s') : ∃ m', SmallHeap L use' live' m' s' := by
  have hsame : use' = use → ranges' = noLive → (∀ g, s'.allocated g = s.allocated g) →
      (∀ d, (s'.domains d).nextVirtAddr = (s.domains d).nextVirtAddr) →
      ∃ m', SmallHeap L use' live' m' s' := by
    intro hu hranges ha hcur
    subst hu hranges
    exact ⟨m, h', h.used.congr ha, h.tables, by rw [slack_congr hcur]; exact h.few⟩
  cases he with
  | @popped _ d n _ _ _ hop ha hpop =>
      cases hpop.growth with
      | inl hfast =>
          obtain ⟨_, hu, halloc, _, _, hcur⟩ := hfast
          apply hsame hu rfl halloc
          intro c
          by_cases hc : c = d
          · rw [hc, hcur]
          · rw [hpop.others.domains c hc]
      | inr hslow =>
          obtain ⟨_, s₁, hx, halloc, _, _, hcur⟩ := hslow
          obtain ⟨htables, m', hused, hfew⟩ := h.expanded hx
          refine ⟨m', h', hused.congr halloc, htables, ?_⟩
          rw [slack_congr fun c => ?_]
          · exact hfew
          · by_cases hc : c = d
            · rw [hc, hcur]
            · rw [hpop.others.domains c hc, hx.others.domains c hc]
  | @pushed _ _ _ d _ _ _ _ hothers hcur _ halloc _ _ =>
      apply hsame rfl rfl halloc
      intro c
      by_cases hc : c = d
      · rw [hc, hcur]
      · rw [hothers.domains c hc]
  | carved hop => rw [hlarge] at hop; cases hop
  | returned _ _ hret => have := hret.range; cases this
  | wrote _ _ _ _ hst => exact hsame rfl rfl hst.alloc fun d => by rw [hst.vars.domains]
  | refused => exact hsame rfl rfl (fun _ => rfl) fun _ => rfl

end SmallHeap

theorem Booted.smallHeap {L : Layout} {use : ℕ → Use} {m : ℕ} {s : State} (h : Booted L use m s) :
    SmallHeap L use noLive m s := by
  have h1 := h.few
  have h2 := slack_le s
  exact ⟨h.heap, h.used, h.tables, by omega⟩

/-- The call allocates from the size-class domains only, and takes the slow path only below
the end of the region. -/
def InsideRegions (c : HeapCall) : Prop :=
  c.op.large = none ∧ ∀ d n, c.op.small = some (d, n) → (c.before.domains d).nextFreeBlock = 0 →
    (c.before.domains d).nextVirtAddr < d.virtBase + 0x10000000

theorem SmallHeap.call {L : Layout} {use : ℕ → Use} {m : ℕ} {c : HeapCall}
    (h : SmallHeap L use c.live m c.before) (hlegal : Legal c.live c.op)
    (hr : L.heapCall c.op c.before = .ok c.result c.after) (hG : InsideRegions c) :
    ∃ use' ranges' m', SmallHeap L use' (liveAfter c.live c.op c.result) m' c.after ∧
      Effect L use c.live noLive c.before c.op c.result use' ranges' c.after := by
  obtain ⟨hlarge, hinside⟩ := hG
  obtain ⟨use', ranges', h', he⟩ := h.heap.call hlegal hr
    (fun d n hop hnil => ⟨hinside d n hop hnil, h.room⟩)
    (fun n hop => by rw [hlarge] at hop; cases hop)
    (fun p n hp _ => by
      obtain ⟨d, _, _, hn⟩ := h.live_small hp
      have := d.blockSize_le
      omega)
  obtain ⟨m', hm'⟩ := h.of_effect hlarge he h'
  exact ⟨use', ranges', m', hm', he⟩

end RaxzusHeap
