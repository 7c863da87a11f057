import RaxzusHeap.ProcessList
import RaxzusHeap.Runs

/-! # What `create_process` achieves

While there is room for the frames it takes, `create_process` either succeeds, with every
resource newly obtained and the process at the end of the list (`Created`), or stops because
a frame lay beyond 1 GB or the function could not be read (`HeapInv.createProcess`).

`Making` is the invariant along the way: the heap is intact, frames in use keep their use and
live blocks keep their words.  Each step of the function is one lemma about it. -/

namespace RaxzusHeap

open Imperative FirstFit Linked

/-- The page of the stack and the page of the code in a process directory. -/
def STACK_PAGE : ℕ := 0xBFFFF
def CODE_PAGE : ℕ := 0x10000

/-- The frames for the private pages of a process: the stack, the code of a user process, and a
table for each. -/
def privateFrames : Bool → ℕ
  | true => 4
  | false => 2

/-- The machine in the middle of a `create_process` that started in state `s` and got the
block `p`. -/
structure Making (L : Layout) (ranges live : ℕ → Option ℕ) (use : ℕ → Use) (s : State) (p : ℕ)
    (use' : ℕ → Use) (live' : ℕ → Option ℕ) (s' : State) : Prop where
  heap : HeapInv L use' live' ranges s'
  fresh : live p = none
  mine : live' p = some PCB_SIZE
  lives : ∀ q n, live q = some n → live' q = some n
  kept : ∀ g, use g ≠ .free → use' g = use g
  words : ∀ b, LiveWord live b → s'.peek L.dirFrame b = s.peek L.dirFrame b
  tables : ∀ d, use d = .dir .proc → ∀ t i, use' t = .table d i → use t = .table d i
  index : s'.currentIndex = s.currentIndex
  lists : s'.processLists = s.processLists
  spares : Spares use s use' s'

/-- The page directory in frame `D` is new, and has tables for a stack and a code page only. -/
structure OwnDir (use : ℕ → Use) (D : ℕ) (use' : ℕ → Use) : Prop where
  free : use D = .free
  dir : use' D = .dir .proc
  tables : ∀ t i, use' t = .table D i → i = STACK_PAGE / 1024 ∨ i = CODE_PAGE / 1024

/-- Domain `d` got no page, or one in a new frame. -/
def PagesGrown (d : SizeClass) (use : ℕ → Use) (s : State) (use' : ℕ → Use) (s' : State) : Prop :=
  (s'.domains d).nextVirtAddr = (s.domains d).nextVirtAddr ∨
    ((s'.domains d).nextVirtAddr = (s.domains d).nextVirtAddr + 4096 ∧
      ∃ g q, use g = .free ∧ use' g = .page q)

theorem PagesGrown.cursor_le {d : SizeClass} {use use' : ℕ → Use} {s s' : State}
    (h : PagesGrown d use s use' s') :
    (s'.domains d).nextVirtAddr ≤ (s.domains d).nextVirtAddr + 4096 := by
  cases h with
  | inl hsame => omega
  | inr hmore => exact hmore.1.le

/-- The code page of a user process, in a new frame. -/
def OwnCode (use : ℕ → Use) (D : ℕ) (isUser : Bool) (code : Option ℕ) (use' : ℕ → Use) : Prop :=
  match isUser with
  | true => ∃ g, code = some (g * 4096) ∧ g < 0x40000 ∧ use g = .free ∧ use' g = .priv D CODE_PAGE
  | false => code = none

theorem OwnCode.kept {use use₁ use₂ : ℕ → Use} {D : ℕ} {isUser : Bool} {code : Option ℕ}
    (h : OwnCode use D isUser code use₁) (hkept : ∀ g, use₁ g ≠ .free → use₂ g = use₁ g) :
    OwnCode use D isUser code use₂ := by
  cases isUser with
  | true =>
      obtain ⟨g, hcode, hlow, hfree, hlabel⟩ := h
      exact ⟨g, hcode, hlow, hfree, by rw [hkept g (by rw [hlabel]; simp), hlabel]⟩
  | false => exact h

section Steps

variable {L : Layout} {use use₁ : ℕ → Use} {live live₁ ranges : ℕ → Option ℕ} {s s₁ : State}
  {p n m : ℕ}

/-- New tables of a size-class allocation hang off its own directory and the kernel's. -/
theorem Popped.tables {d : SizeClass} {a : ℕ} (h : Popped L d use live s a use₁ s₁)
    (hp : HeapPages L use s) {c : ℕ} (hc : use c = .dir .proc) {t i : ℕ}
    (ht : use₁ t = .table c i) : use t = .table c i := by
  cases h.growth with
  | inl hfast =>
      obtain ⟨-, hu, -⟩ := hfast
      rwa [hu] at ht
  | inr hslow =>
      obtain ⟨-, s₂, hx, -⟩ := hslow
      obtain ⟨D, f, s₃, hf, -, hadd, -, -, -, hD⟩ := hx.added
      have hcK : c ≠ L.dirFrame := by
        rintro rfl
        rw [hp.inv.use_dirFrame] at hc
        cases hc
      have hcD : c ≠ D := by
        rintro rfl
        rw [hc] at hD
        cases hD
      exact HeapPages.table_of_grown hadd.grown hcK hcD ht

theorem Popped.table_of_index {d : SizeClass} {a : ℕ} (h : Popped L d use live s a use₁ s₁)
    {t c i : ℕ} (hi : (s₁.domains d).nextVirtAddr ≤ i * 1024 * 4096)
    (ht : use₁ t = .table c i) : use t = .table c i := by
  cases h.growth with
  | inl hfast =>
      obtain ⟨-, hu, -⟩ := hfast
      rwa [hu] at ht
  | inr hslow =>
      obtain ⟨-, s₂, hx, -, -, -, hcursor⟩ := hslow
      obtain ⟨D, f, s₃, hf, -, hadd, -⟩ := hx.added
      have hmoved := hx.cursor
      have hne : i ≠ (s.domains d).nextVirtAddr / 4096 / 1024 := by omega
      obtain ⟨u₁, t₁, ht₁, ht₂⟩ := hadd.grown.tables
      have h1 := (ht₂.label ht).resolve_right fun he => hne he.2
      have h2 := (ht₁.label h1).resolve_right fun he => hne he.2
      have htf : t ≠ f := by rintro rfl; rw [Function.update_self] at h2; cases h2
      rwa [Function.update_of_ne htf] at h2

theorem Popped.inRegion {d : SizeClass} {a : ℕ} (h : Popped L d use live s a use₁ s₁)
    (hd : DomainInv L use₁ live₁ d s₁) : d.IsBlock (d.virtBase + 0x10000000) a := by
  obtain ⟨h1, h2⟩ := h.region hd
  exact ⟨h1, h2, h.block.2.2⟩

theorem Popped.pagesGrown {d : SizeClass} {a : ℕ} (h : Popped L d use live s a use₁ s₁) :
    PagesGrown d use s use₁ s₁ := by
  cases h.growth with
  | inl hfast => exact Or.inl hfast.2.2.2.2.2
  | inr hslow =>
      obtain ⟨-, s₂, hx, -, -, -, hcursor⟩ := hslow
      obtain ⟨D, f, s₃, hf, -, hadd, -⟩ := hx.added
      refine Or.inr ⟨by rw [hcursor, hx.cursor], f, (s.domains d).nextVirtAddr / 4096, hf, ?_⟩
      rw [hadd.grown.labels.kept f (by rw [Function.update_self]; simp), Function.update_self]

/-- The block of the new process. -/
theorem HeapInv.startProcess (h : HeapInv L use live ranges s) (hm : m ≤ 0x50000)
    (hslow : (s.domains .heap128).nextFreeBlock = 0 →
      (s.domains .heap128).nextVirtAddr < SizeClass.heap128.virtBase + 0x10000000 ∧
        s.PageRoom L .heap128 m) :
    Ends (L.kmalloc PCB_SIZE) s
      (fun p s₁ => ∃ use₁,
        Making L ranges live use s p use₁ (Function.update live p (some PCB_SIZE)) s₁ ∧
        p ≠ 0 ∧ SizeClass.heap128.IsBlock (SizeClass.heap128.virtBase + 0x10000000) p ∧
        (∀ d, d ≠ .heap128 → s₁.domains d = s.domains d) ∧ PagesGrown .heap128 use s use₁ s₁ ∧
        Spends (s.popCost L .heap128) s s₁ ∧
        ((∃ g < 0x40000, s₁.allocated g = false) → Takes 0x40000 (s.popCost L .heap128) s s₁) ∧
        ∀ t c i, 0x30000 / 1024 ≤ i → use₁ t = .table c i → use t = .table c i)
      (fun _ => 0x40000 < m) := by
  rw [L.kmalloc_small (d := .heap128) (by decide)]
  apply (h.domainAllocTight .heap128 (n := PCB_SIZE) (by decide) hm hslow).mono
  · rintro p s₁ ⟨use₁, h₁, hpop⟩
    have hblock := hpop.inRegion (h₁.dom .heap128)
    refine ⟨use₁, ?_, ?_, hblock, hpop.others.domains, hpop.pagesGrown, hpop.spends h.pages,
      fun hlow => hpop.takes h.pages (Or.inr hlow), fun t c i hi ht => ?_⟩
    · exact
        { heap := h₁
          fresh := hpop.fresh
          mine := Function.update_self ..
          lives := fun q k hq => by
            rw [Function.update_of_ne]
            · exact hq
            · rintro rfl
              rw [hpop.fresh] at hq
              cases hq
          kept := hpop.kept
          words := h.same_words hpop.same
          tables := fun c hc t i ht => hpop.tables h.pages hc ht
          index := hpop.others.currentIndex
          lists := hpop.others.processLists
          spares := hpop.spares }
    · have := hblock.1
      have := SizeClass.heap128.virtBase_bounds
      omega
    · have hcursor := (h₁.dom .heap128).cursor_le
      refine hpop.table_of_index ?_ ht
      simp only [SizeClass.virtBase] at hcursor
      omega
  · rintro s₁ ⟨hlt, -⟩
    exact hlt

namespace Making

theorem ne_new (h : Making L ranges live use s p use₁ live₁ s₁) {q k : ℕ} (hq : live q = some k) :
    q ≠ p := by
  rintro rfl
  rw [h.fresh] at hq
  cases hq

theorem liveWord (h : Making L ranges live use s p use₁ live₁ s₁) {b : ℕ} (hb : LiveWord live b) :
    LiveWord live₁ b := by
  obtain ⟨q, k, hq, hrest⟩ := hb
  exact ⟨q, k, h.lives q k hq, hrest⟩

theorem step (h : Making L ranges live use s p use₁ live₁ s₁) {use₂ : ℕ → Use} {s₂ : State}
    (hheap : HeapInv L use₂ live₁ ranges s₂) (hkept : ∀ g, use₁ g ≠ .free → use₂ g = use₁ g)
    (hsame : SameHeap L use₁ s₁ s₂) (hvars : SameVars s₁ s₂)
    (htables : ∀ d, use d = .dir .proc → ∀ t i, use₂ t = .table d i → use₁ t = .table d i)
    (hspares : Spares use₁ s₁ use₂ s₂) : Making L ranges live use s p use₂ live₁ s₂ where
  heap := hheap
  fresh := h.fresh
  mine := h.mine
  lives := h.lives
  kept g hg := by
    rw [hkept g (by rw [h.kept g hg]; exact hg), h.kept g hg]
  words b hb := by
    rw [h.heap.same_words hsame b (h.liveWord hb), h.words b hb]
  tables d hd t i ht := h.tables d hd t i (htables d hd t i ht)
  index := hvars.currentIndex.trans h.index
  lists := hvars.processLists.trans h.lists
  spares := h.spares.trans hspares

/-- `p->field = v` for the new block. -/
theorem storeField (h : Making L ranges live use s p use₁ live₁ s₁) (field : PcbField) {v : ℕ}
    (hv : v < 2 ^ 32) :
    ∃ s₂, L.storeField p field v s₁ = .ok () s₂ ∧ Making L ranges live use s p use₁ live₁ s₂ ∧
      L.fields s₂ p = Function.update (L.fields s₁ p) field (some v) ∧
      s₂.domains = s₁.domains ∧ ∀ g, s₂.allocated g = s₁.allocated g := by
  obtain ⟨s₂, hrun, h₂, hw, hf⟩ := h.heap.storeField_ok h.mine field hv
  refine ⟨s₂, hrun, ?_, hf, hw.vars.domains, hw.alloc⟩
  exact
    { heap := h₂
      fresh := h.fresh
      mine := h.mine
      lives := h.lives
      kept := h.kept
      words := fun b hb => by
        obtain ⟨q, k, hq, hk, h1, h2⟩ := hb
        rw [hw.words b q k (h.lives q k hq) hk h1 h2 (h.ne_new hq)]
        exact h.words b ⟨q, k, hq, hk, h1, h2⟩
      tables := h.tables
      index := hw.vars.currentIndex.trans h.index
      lists := hw.vars.processLists.trans h.lists
      spares := h.spares.trans hw.spares }

theorem onlyFrame (h : Making L ranges live use s p use₁ live₁ s₁) {f d q : ℕ} {s₂ : State}
    (hf : use₁ f = .priv d q) (ho : OnlyFrame f s₁ s₂) :
    Making L ranges live use s p use₁ live₁ s₂ ∧ L.fields s₂ p = L.fields s₁ p := by
  obtain ⟨h₂, hsame⟩ := h.heap.onlyFrame hf ho
  refine ⟨h.step h₂ (fun _ _ => rfl) hsame
    ⟨ho.only.domains, ho.only.large, ho.only.currentIndex, ho.only.processLists⟩
    (fun _ _ _ _ ht => ht) (.of_mem ho.only.maps ho.only.stale fun g hg => ho.mem g ?_), ?_⟩
  · rintro rfl
    rw [hf] at hg
    rcases hg with hg | ⟨_, _, hg⟩ <;> cases hg
  · exact fields_congr h.mine (h.heap.same_words hsame)

/-- A size-class allocation on the way. -/
theorem alloc (h : Making L ranges live use s p use₁ live₁ s₁) {d : SizeClass} {k : ℕ}
    (hk : k ≤ d.blockSize) (hm : m ≤ 0x50000)
    (hslow : (s₁.domains d).nextFreeBlock = 0 →
      (s₁.domains d).nextVirtAddr < d.virtBase + 0x10000000 ∧ s₁.PageRoom L d m) :
    Ends (L.heapDomainAlloc d) s₁
      (fun a s₂ => ∃ use₂, Making L ranges live use s p use₂ (Function.update live₁ a (some k)) s₂ ∧
        live₁ a = none ∧ d.IsBlock (d.virtBase + 0x10000000) a ∧
        (∀ g, use₁ g ≠ .free → use₂ g = use₁ g) ∧
        (∀ c, use₁ c = .dir .proc → ∀ t i, use₂ t = .table c i → use₁ t = .table c i) ∧
        PagesGrown d use₁ s₁ use₂ s₂ ∧ (∀ e, e ≠ d → s₂.domains e = s₁.domains e) ∧
        L.fields s₂ p = L.fields s₁ p ∧ Spends (s₁.popCost L d) s₁ s₂ ∧
        (s₁.classTables L d ≠ 0 → Takes 0x40000 (s₁.popCost L d) s₁ s₂))
      (fun _ => 0x40000 < m) := by
  apply (h.heap.domainAllocTight d hk hm hslow).mono
  · rintro a s₂ ⟨use₂, h₂, hpop⟩
    have htables : ∀ c, use₁ c = .dir .proc → ∀ t i, use₂ t = .table c i → use₁ t = .table c i :=
      fun c hc t i ht => hpop.tables h.heap.pages hc ht
    have hne : ∀ q j, live₁ q = some j → q ≠ a := by
      rintro q j hq rfl
      rw [hpop.fresh] at hq
      cases hq
    refine ⟨use₂, ?_, hpop.fresh, hpop.inRegion (h₂.dom d), hpop.kept, htables,
      hpop.pagesGrown, hpop.others.domains, fields_congr h.mine (h.heap.same_words hpop.same),
      hpop.spends h.heap.pages, fun hne => hpop.takes h.heap.pages (Or.inl hne)⟩
    exact
      { heap := h₂
        fresh := h.fresh
        mine := by rw [Function.update_of_ne (hne p _ h.mine)]; exact h.mine
        lives := fun q j hq => by
          have hq' := h.lives q j hq
          rw [Function.update_of_ne (hne q j hq')]
          exact hq'
        kept := fun g hg => by
          rw [hpop.kept g (by rw [h.kept g hg]; exact hg), h.kept g hg]
        words := fun b hb => by
          rw [h.heap.same_words hpop.same b (h.liveWord hb), h.words b hb]
        tables := fun c hc t i ht => by
          refine h.tables c hc t i (htables c ?_ t i ht)
          rw [h.kept c (by rw [hc]; simp), hc]
        index := hpop.others.currentIndex.trans h.index
        lists := hpop.others.processLists.trans h.lists
        spares := h.spares.trans hpop.spares }
  · rintro s₂ ⟨hlt, -⟩
    exact hlt

theorem free (h : Making L ranges live use s p use₁ live₁ s₁) {g : ℕ} (hg : use₁ g = .free) :
    use g = .free := by
  by_contra hne
  rw [h.kept g hne] at hg
  exact hne hg

/-- The directory of the process. -/
theorem makeDirectory (h : Making L ranges live use s p use₁ live₁ s₁) (hm : m ≤ 0x50000)
    (hroom : RoomBelow m 1 s₁) :
    Ends L.createProcessPageDirectory s₁
      (fun a s₂ => ∃ D use₂, a = KERNEL_BASE + D * 4096 ∧ D < 0x40000 ∧
        Making L ranges live use s p use₂ live₁ s₂ ∧ OwnDir use D use₂ ∧
        L.fields s₂ p = L.fields s₁ p ∧ s₂.domains = s₁.domains ∧ Spends 1 s₁ s₂ ∧
        Takes 0x40000 1 s₁ s₂ ∧ s₁.allocated D = false ∧ (∀ t i, use₂ t ≠ .table D i) ∧
        ∀ t c i, use₂ t = .table c i → use₁ t = .table c i)
      (fun _ => 0x40000 < m) := by
  apply (h.heap.makeDirectory hm hroom).mono
  · rintro a s₂ ⟨D, rfl, hnew, hspent, htaken, h₂⟩
    have hkeep : ∀ g, use₁ g ≠ .free → Function.update use₁ D (.dir .proc) g = use₁ g :=
      fun g hg => Function.update_of_ne (by rintro rfl; exact hg hnew.free) ..
    have htable : ∀ t c i, Function.update use₁ D (.dir .proc) t = .table c i →
        use₁ t = .table c i := by
      intro t c i ht
      have htD : t ≠ D := by rintro rfl; rw [Function.update_self] at ht; cases ht
      rwa [Function.update_of_ne htD] at ht
    -- a frame that was free is the directory of no table
    have hnone : ∀ t i, Function.update use₁ D (.dir .proc) t ≠ .table D i := by
      intro t i ht
      cases (h.heap.pages.inv.tableDir t D i (htable t D i ht)).1 with
      | inl hK =>
          have hfree := hnew.free
          rw [hK, h.heap.pages.inv.use_dirFrame] at hfree
          cases hfree
      | inr ho =>
          obtain ⟨o, ho⟩ := ho
          rw [hnew.free] at ho
          cases ho
    exact ⟨D, _, rfl, hnew.low, h.step h₂ hkeep hnew.same hnew.vars
      (fun c _ t i ht => htable t c i ht) hnew.spares,
      ⟨h.free hnew.free, Function.update_self .., fun t i ht => absurd ht (hnone t i)⟩,
      fields_congr h.mine (h.heap.same_words hnew.same), hnew.vars.domains, hspent, htaken,
      hnew.clear, hnone, htable⟩
  · exact fun _ hE => hE

/-- A private page of the process. -/
theorem mapPrivate (h : Making L ranges live use s p use₁ live₁ s₁) {D q f fl : ℕ}
    (hD : OwnDir use D use₁) (hf : use₁ f = .free) (hfirst : s₁.FirstFree f) (hflt : f < 0x80000)
    (hq : q = STACK_PAGE ∨ q = CODE_PAGE) (hfl : fl < 4096) (hodd : fl % 2 = 1)
    (hm : m ≤ 0x50000) (hroom : RoomBelow m 2 s₁) :
    Ends (L.mapPage (KERNEL_BASE + D * 4096) (q * 4096) (f * 4096) fl) (s₁.take f)
      (fun _ s₂ => ∃ use₂, Making L ranges live use s p use₂ live₁ s₂ ∧ OwnDir use D use₂ ∧
        use₂ f = .priv D q ∧ (∃ t, use₂ t = .table D (q / 1024)) ∧
        (∀ g, use₁ g ≠ .free → use₂ g = use₁ g) ∧
        L.fields s₂ p = L.fields s₁ p ∧ s₂.domains = s₁.domains ∧ Spends 2 s₁ s₂ ∧
        ((∀ t, use₁ t ≠ .table D (q / 1024)) → f < 0x40000 → Takes 0x40000 2 s₁ s₂) ∧
        ∀ t c i, use₂ t = .table c i → use₁ t = .table c i ∨ (c = D ∧ i = q / 1024))
      (fun _ => 0x40000 < m) := by
  have hqlt : q < 0xC0000 := by
    unfold STACK_PAGE CODE_PAGE at hq
    omega
  apply (h.heap.mapPrivate hD.dir hf hfirst hflt hqlt hfl hodd hroom hm).mono
  · rintro _ s₂ ⟨use₂, h₂, hnew, hspent, htaken⟩
    refine ⟨use₂, h.step h₂ hnew.kept hnew.same hnew.vars (fun c hc t i ht => ?_) hnew.spares,
      ⟨hD.free, (hnew.dirs D _).mpr hD.dir, fun t i ht => ?_⟩, hnew.label, ?_, hnew.kept,
      fields_congr h.mine (h.heap.same_words hnew.same), hnew.vars.domains, hspent, htaken,
      hnew.tables⟩
    · cases hnew.tables t c i ht with
      | inl hold => exact hold
      | inr hc' =>
          rw [hc'.1, hD.free] at hc
          cases hc
    · cases hnew.tables t D i ht with
      | inl hold => exact hD.tables t i hold
      | inr hi =>
          rw [hi.2]
          cases hq with
          | inl hq => exact Or.inl (by rw [hq])
          | inr hq => exact Or.inr (by rw [hq])
    · obtain ⟨-, -, t, ht, -⟩ := h₂.pages.inv.pte D q (f * 4096 + fl)
        (by rw [hnew.maps, if_pos ⟨rfl, rfl⟩])
      exact ⟨t, ht⟩
  · exact fun _ hE => hE

/-- The pages of the process: its stack page is mapped in state `s₁.take f`, and a user
process gets its code page and the code. -/
theorem mapProcess (h : Making L ranges live use s p use₁ live₁ s₁) {D f : ℕ}
    (hD : OwnDir use D use₁) (hf : use₁ f = .free) (hfirst : s₁.FirstFree f) (hflt : f < 0x80000)
    (hm : m ≤ 0x50000) (func : ℕ) (isUser : Bool) (hroom : RoomBelow m (privateFrames isUser) s₁) :
    Ends (L.mapProcess (KERNEL_BASE + D * 4096) (f * 4096) func isUser) (s₁.take f)
      (fun code s₂ => ∃ use₂, Making L ranges live use s p use₂ live₁ s₂ ∧ OwnDir use D use₂ ∧
        use₂ f = .priv D STACK_PAGE ∧ (∃ t, use₂ t = .table D (STACK_PAGE / 1024)) ∧
        OwnCode use D isUser code use₂ ∧
        (∀ g, use₁ g ≠ .free → use₂ g = use₁ g) ∧
        L.fields s₂ p = L.fields s₁ p ∧ s₂.domains = s₁.domains ∧
        Spends (privateFrames isUser) s₁ s₂ ∧
        ((∀ t i, use₁ t ≠ .table D i) → f < 0x40000 →
          Takes 0x40000 (privateFrames isUser) s₁ s₂) ∧
        ∀ t c i, c ≠ D → use₂ t = .table c i → use₁ t = .table c i)
      (fun _ => 0x40000 < m ∨ (isUser = true ∧ ¬ KernelCode func)) := by
  have hstack : PROC_STACK_VIRT = STACK_PAGE * 4096 := rfl
  have hcode : PROC_CODE_VIRT = CODE_PAGE * 4096 := rfl
  cases isUser with
  | false =>
      unfold Layout.mapProcess
      rw [hstack]
      apply ((h.mapPrivate hD hf hfirst hflt (Or.inl rfl) (by decide) (by decide)
        hm hroom).mono (fun _ _ hq => hq) (fun _ hE => Or.inl hE)).bind
      rintro _ s₂ ⟨use₂, h₂, hD₂, hlabel, htable, hkept, hfields, hdomains, hspent, htaken, hback⟩
      exact Ends.of_ok rfl ⟨use₂, h₂, hD₂, hlabel, htable, rfl, hkept, hfields, hdomains, hspent,
        fun hnone => htaken fun t => hnone t _,
        fun t c i hc ht => (hback t c i ht).resolve_right fun he => hc he.1⟩
  | true =>
      unfold Layout.mapProcess
      rw [hstack, hcode]
      apply ((h.mapPrivate hD hf hfirst hflt (Or.inl rfl) (by decide) (by decide)
        hm (hroom.anti 4 2 s₁ (by norm_num))).mono (fun _ _ hq => hq)
        (fun _ hE => Or.inl hE)).bind
      rintro _ s₂ ⟨use₂, h₂, hD₂, hlabel, ⟨t, ht⟩, hkept, hfields, hdomains, hspent, htaken, hback⟩
      have hleft : RoomBelow m 2 s₂ := hspent m 2 hroom
      obtain ⟨g, hgm, hgfirst, hgfree, hg0, hframe⟩ :=
        h₂.heap.pages.inv.processFrame (n := 1) hleft (by omega)
      apply Ends.bind_ok hframe
      apply ((h₂.mapPrivate hD₂ hgfree hgfirst (by omega) (Or.inr rfl) (by decide)
        (by decide) hm hleft).mono (fun _ _ hq => hq) (fun _ hE => Or.inl hE)).bind
      rintro _ s₃ ⟨use₃, h₃, hD₃, hlabel₃, -, hkept₃, hfields₃, hdomains₃, hspent₃, htaken₃,
        hback₃⟩
      have hfg : use₃ f = .priv D STACK_PAGE := by
        rw [hkept₃ f (by rw [hlabel]; simp), hlabel]
      apply ((Layout.copyFunction_ends h₃.heap hlabel₃ (by omega) func).mono (fun _ _ hq => hq)
        (fun _ hE => ?_)).bind
      · rintro _ s₄ ⟨hglow, ho⟩
        obtain ⟨h₄, hfields₄⟩ := h₃.onlyFrame hlabel₃ ho
        refine Ends.of_ok rfl ⟨use₃, h₄, hD₃, hfg,
          ⟨t, by rw [hkept₃ t (by rw [ht]; simp), ht]⟩, ⟨g, rfl, hglow, h₂.free hgfree, hlabel₃⟩,
          fun x hx => ?_, ?_, ?_, ?_, fun hnone hflow => ?_, fun u c i hc hu => ?_⟩
        · rw [hkept₃ x (by rw [hkept x hx]; exact hx), hkept x hx]
        · rw [hfields₄, hfields₃, hfields]
        · rw [ho.only.domains, hdomains₃, hdomains]
        · exact (hspent.trans hspent₃).same ho.only.allocated
        · -- the code needs a table of its own
          have hnone₃ : ∀ u, use₂ u ≠ .table D (CODE_PAGE / 1024) := fun u hu => by
            cases hback u D _ hu with
            | inl hold => exact hnone u _ hold
            | inr he => exact absurd he.2 (by decide)
          exact ((htaken (fun u => hnone u _) hflow).trans
            (htaken₃ hnone₃ hglow)).same ho.only.allocated
        · have hu₂ := (hback₃ u c i hu).resolve_right fun he => hc he.1
          exact (hback u c i hu₂).resolve_right fun he => hc he.1
      · cases hE with
        | inl hhigh => exact Or.inl (by omega)
        | inr hbad => exact Or.inr ⟨rfl, hbad⟩

theorem pushWords (h : Making L ranges live use s p use₁ live₁ s₁) {D f : ℕ}
    (hf : use₁ f = .priv D STACK_PAGE) (hfm : f < m) (hm : m ≤ 0x50000)
    (func : ℕ) (isUser : Bool) :
    Ends (L.pushWords (initialFrame func isUser) (u32 (u32 (f * 4096 + 0xC0000000) +
        PROC_STACK_SIZE))) s₁
      (fun _ s₂ => f < 0x40000 ∧ Making L ranges live use s p use₁ live₁ s₂ ∧
        L.fields s₂ p = L.fields s₁ p ∧ s₂.domains = s₁.domains ∧
        ∀ g, s₂.allocated g = s₁.allocated g)
      (fun _ => 0x40000 < m) := by
  have hne : initialFrame func isUser ≠ [] := by cases isUser <;> simp [initialFrame]
  have hlen : (initialFrame func isUser).length ≤ 1024 := by cases isUser <;> simp [initialFrame]
  apply (Layout.pushWords_ends h.heap hf (by omega) hne hlen).mono
  · rintro sp s₂ ⟨hlow, ho, -⟩
    obtain ⟨h₂, hfields⟩ := h.onlyFrame hf ho
    exact ⟨hlow, h₂, hfields, ho.only.domains, ho.only.allocated⟩
  · intro _ hhigh
    omega

theorem initPcb (h : Making L ranges live use s p use₁ live₁ s₁) (hindex : s.currentIndex < 2 ^ 16) :
    ∃ s₂, L.initPcb p s₁ = .ok () s₂ ∧ Making L ranges live use s p use₁ live₁ s₂ ∧
      L.fields s₂ p .next = some 0 ∧ L.fields s₂ p .pid = some s.currentIndex ∧
      s₂.domains = s₁.domains ∧ ∀ g, s₂.allocated g = s₁.allocated g := by
  obtain ⟨s₂, hr₂, h₂, hf₂, hd₂, ha₂⟩ := h.storeField .pid (v := s.currentIndex) (by omega)
  obtain ⟨s₃, hr₃, h₃, hf₃, hd₃, ha₃⟩ := h₂.storeField .sleepTime (v := 0) (by norm_num)
  obtain ⟨s₄, hr₄, h₄, hf₄, hd₄, ha₄⟩ := h₃.storeField .next (v := 0) (by norm_num)
  obtain ⟨s₅, hr₅, h₅, hf₅, hd₅, ha₅⟩ := h₄.storeField .prev (v := 0) (by norm_num)
  refine ⟨s₅, ?_, h₅, ?_, ?_, ?_, fun g => ?_⟩
  · unfold Layout.initPcb
    rw [run_bind_ok (run_get s₁), h.index, run_bind_ok hr₂, run_bind_ok hr₃, run_bind_ok hr₄, hr₅]
  · rw [hf₅, Function.update_of_ne (by simp), hf₄, Function.update_self]
  · rw [hf₅, Function.update_of_ne (by simp), hf₄, Function.update_of_ne (by simp), hf₃,
      Function.update_of_ne (by simp), hf₂, Function.update_self]
  · rw [hd₅, hd₄, hd₃, hd₂]
  · rw [ha₅, ha₄, ha₃, ha₂]

theorem chain (h : Making L ranges live use s p use₁ live₁ s₁) {l : List ℕ}
    (hl : ProcChain L s s.processLists l) (hlive : ∀ q ∈ l, live q = some PCB_SIZE) :
    ProcChain L s₁ s₁.processLists l ∧ (∀ q ∈ l, live₁ q = some PCB_SIZE) ∧ p ∉ l := by
  refine ⟨?_, fun q hq => h.lives q _ (hlive q hq), fun hp => h.ne_new (hlive p hp) rfl⟩
  rw [h.lists]
  exact hl.congr fun q hq => by rw [fields_congr (hlive q hq) h.words]

end Making

end Steps

/-! ### The whole call -/

/-- The directory and the private pages of a process, all in new frames. -/
structure OwnMemory (use : ℕ → Use) (isUser : Bool) (x : Process) (D : ℕ) (use' : ℕ → Use) :
    Prop where
  pageDir : x.pageDir = KERNEL_BASE + D * 4096
  low : D < 0x40000
  dir : OwnDir use D use'
  stack : ∃ f, x.stack = f * 4096 ∧ f < 0x40000 ∧ use f = .free ∧ use' f = .priv D STACK_PAGE
  code : OwnCode use D isUser x.code use'
  table : ∃ t, use' t = .table D (STACK_PAGE / 1024)

/-- `create_process` added the process `x` to the list `l`. -/
structure Created (L : Layout) (use : ℕ → Use) (live : ℕ → Option ℕ) (l : List ℕ) (s : State)
    (isUser : Bool) (x : Process) (use' : ℕ → Use) (live' : ℕ → Option ℕ) (s' : State) : Prop where
  pcb : live x.pcb = none
  pcbBlock : SizeClass.heap128.IsBlock (SizeClass.heap128.virtBase + 0x10000000) x.pcb
  kstack : live x.kstack = none
  kstackBlock : SizeClass.heap4k.IsBlock (SizeClass.heap4k.virtBase + 0x10000000) x.kstack
  apart : x.kstack ≠ x.pcb
  blocks : live' = Function.update (Function.update live x.pcb (some PCB_SIZE)) x.kstack (some 4096)
  memory : ∃ D, OwnMemory use isUser x D use'
  pageDir : L.fields s' x.pcb .pageDir = some x.pageDir
  kernelStackTop : L.fields s' x.pcb .kernelStackTop = some (x.kstack + 4096)
  pid : L.fields s' x.pcb .pid = some s.currentIndex
  kept : ∀ g, use g ≠ .free → use' g = use g
  tables : ∀ c, use c = .dir .proc → ∀ t i, use' t = .table c i → use t = .table c i
  grown : PagesGrown .heap4k use s use' s'
  words : ∀ b q n, live q = some n → n + 4099 < 2 ^ 32 → q ≤ b → b < q + n → q ∉ l →
    s'.peek L.dirFrame b = s.peek L.dirFrame b
  fields : ∀ q, live q = some PCB_SIZE → ∀ field, field ≠ .next → field ≠ .prev →
    L.fields s' q field = L.fields s q field
  list : ProcChain L s' s'.processLists (if s.currentIndex = 0 then [x.pcb] else l ++ [x.pcb])
  index : s'.currentIndex = (s.currentIndex + 1) % 2 ^ 16
  cursor : ∀ d, (s'.domains d).nextVirtAddr ≤ (s.domains d).nextVirtAddr + 4096
  spares : Spares use s use' s'

/-- The frames that `create_process` takes before it asks for the kernel stack. -/
def State.ownFrames (s : State) (L : Layout) (isUser : Bool) : ℕ :=
  s.popCost L .heap128 + 1 + privateFrames isUser

/-- All the frames that `create_process` takes. -/
def State.createFrames (s : State) (L : Layout) (isUser : Bool) : ℕ :=
  s.ownFrames L isUser + s.popCost L .heap4k

/-- There is room for a process: below frame `m` for everything but the page of the kernel
stack, which may lie anywhere. -/
structure State.CreateRoom (s : State) (L : Layout) (isUser : Bool) (m : ℕ) : Prop where
  region : ∀ d, d = .heap128 ∨ d = .heap4k → (s.domains d).nextFreeBlock = 0 →
    (s.domains d).nextVirtAddr < d.virtBase + 0x10000000
  own : RoomBelow m (s.ownFrames L isUser) s
  page : (s.domains .heap4k).nextFreeBlock = 0 → RoomBelow 0x80000 (1 + s.ownFrames L isUser) s
  tables : (s.domains .heap4k).nextFreeBlock = 0 → s.classTables L .heap4k ≠ 0 →
    RoomBelow m (1 + s.classTables L .heap4k + s.ownFrames L isUser) s

theorem State.popCost_le (s : State) (L : Layout) (d : SizeClass) : s.popCost L d ≤ 3 := by
  have hle := s.classTables_le L d
  unfold State.popCost
  split_ifs <;> omega

theorem State.ownFrames_le (s : State) (L : Layout) (isUser : Bool) :
    s.ownFrames L isUser ≤ 8 := by
  have hle := s.popCost_le L .heap128
  unfold State.ownFrames privateFrames
  cases isUser <;> dsimp only <;> omega

theorem State.CreateRoom.of_room {s : State} {L : Layout} {isUser : Bool} {m : ℕ}
    (hregion : ∀ d, d = .heap128 ∨ d = .heap4k → (s.domains d).nextFreeBlock = 0 →
      (s.domains d).nextVirtAddr < d.virtBase + 0x10000000)
    (hroom : RoomBelow m 12 s) (hm : m ≤ 0x80000) : s.CreateRoom L isUser m := by
  have hown := s.ownFrames_le L isUser
  have htables := s.classTables_le L .heap4k
  exact
    { region := hregion
      own := hroom.mono (by omega) le_rfl
      page := fun _ => hroom.mono (by omega) hm
      tables := fun _ _ => hroom.mono (by omega) le_rfl }

section Whole

variable {L : Layout} {use use' : ℕ → Use} {live live' ranges : ℕ → Option ℕ} {s s' : State}
  {l : List ℕ} {n m : ℕ} {isUser : Bool}

theorem State.CreateRoom.block (h : s.CreateRoom L isUser m) (hm : m ≤ 0x80000)
    (hnil : (s.domains .heap128).nextFreeBlock = 0) :
    (s.domains .heap128).nextVirtAddr < SizeClass.heap128.virtBase + 0x10000000 ∧
      s.PageRoom L .heap128 m := by
  have hcost : s.popCost L .heap128 = 1 + s.classTables L .heap128 := if_pos hnil
  have hown : 1 + s.classTables L .heap128 ≤ s.ownFrames L isUser := by
    unfold State.ownFrames
    omega
  exact ⟨h.region _ (Or.inl rfl) hnil, h.own.mono (by omega) hm, fun _ => h.own.mono hown le_rfl⟩

/-- A domain needs as many tables as before if none of its tables came or went. -/
theorem HeapInv.classTables_congr (h : HeapInv L use live ranges s)
    (h' : HeapInv L use' live' ranges s') {d : SizeClass} {D : ℕ} (hD : use D = .dir (.cls d))
    (hD' : use' D = .dir (.cls d)) (hdom : s'.domains d = s.domains d)
    (hlt : (s.domains d).nextVirtAddr < d.virtBase + 0x10000000)
    (htables : ∀ c t, c = D ∨ c = L.dirFrame →
      (use' t = .table c ((s.domains d).nextVirtAddr / 4096 / 1024) ↔
        use t = .table c ((s.domains d).nextVirtAddr / 4096 / 1024))) :
    s'.classTables L d = s.classTables L d := by
  have hbase := d.virtBase_bounds
  have hi : (s.domains d).nextVirtAddr / 4096 / 1024 < 768 := by omega
  have hpde : ∀ c, c = D ∨ c = L.dirFrame → L.IsDir use c → L.IsDir use' c →
      (s'.pde c ((s.domains d).nextVirtAddr / 4096 / 1024) = none ↔
        s.pde c ((s.domains d).nextVirtAddr / 4096 / 1024) = none) := by
    intro c hcD hc hc'
    rw [h'.pages.inv.pde_none hc' hi, h.pages.inv.pde_none hc hi]
    exact forall_congr' fun t => not_congr (htables c t hcD)
  have hfirst := hpde D (Or.inl rfl) (Or.inr ⟨_, hD⟩) (Or.inr ⟨_, hD'⟩)
  have hsecond := hpde L.dirFrame (Or.inr rfl) (Or.inl rfl) (Or.inl rfl)
  rw [h.pages.classTables_eq hD, h'.pages.classTables_eq hD', hdom]
  unfold State.newTables
  simp only [hfirst, hsecond]

theorem State.CreateRoom.kernelStack (hroom : s.CreateRoom L isUser m)
    (hdom : s'.domains .heap4k = s.domains .heap4k)
    (htables : (s.domains .heap4k).nextFreeBlock = 0 →
      s'.classTables L .heap4k = s.classTables L .heap4k)
    (hspent : Spends (s.ownFrames L isUser) s s') :
    ((s'.domains .heap4k).nextFreeBlock = 0 →
      (s'.domains .heap4k).nextVirtAddr < SizeClass.heap4k.virtBase + 0x10000000 ∧
        s'.PageRoom L .heap4k m) := by
  rw [hdom]
  intro hnil
  refine ⟨hroom.region _ (Or.inr rfl) hnil, hspent _ _ (hroom.page hnil), fun hne => ?_⟩
  rw [htables hnil] at hne ⊢
  exact hspent _ _ (hroom.tables hnil hne)

theorem State.popCost_congr {d : SizeClass} (hdom : s'.domains d = s.domains d)
    (htables : (s.domains d).nextFreeBlock = 0 → s'.classTables L d = s.classTables L d) :
    s'.popCost L d = s.popCost L d := by
  unfold State.popCost
  rw [hdom]
  by_cases hnil : (s.domains d).nextFreeBlock = 0
  · rw [if_pos hnil, if_pos hnil, htables hnil]
  · rw [if_neg hnil, if_neg hnil]

/-- Building the process has brought no table for the next page of `heap_4k`. -/
theorem Making.classTables (h : HeapInv L use live ranges s) {p D : ℕ}
    (hmade : Making L ranges live use s p use' live' s') (hD : use D = .free)
    (hdom : s'.domains .heap4k = s.domains .heap4k)
    (hlt : (s.domains .heap4k).nextVirtAddr < SizeClass.heap4k.virtBase + 0x10000000)
    (hback : ∀ t c i, c ≠ D → 0x30000 / 1024 ≤ i → use' t = .table c i → use t = .table c i) :
    s'.classTables L .heap4k = s.classTables L .heap4k := by
  obtain ⟨C, hC⟩ := (h.dom .heap4k).home
  refine h.classTables_congr hmade.heap hC (by rw [hmade.kept C (by rw [hC]; simp), hC]) hdom hlt
    fun c t hc => ⟨fun ht => ?_, fun ht => ?_⟩
  · -- the new directory is none of the two
    have hcD : c ≠ D := by
      rintro rfl
      cases hc with
      | inl he =>
          rw [he, hC] at hD
          cases hD
      | inr he =>
          rw [he, h.pages.inv.use_dirFrame] at hD
          cases hD
    have hge := (h.dom .heap4k).cursor_ge
    simp only [SizeClass.virtBase] at hge
    exact hback t c _ hcD (by omega) ht
  · rw [hmade.kept t (by rw [ht]; simp), ht]

theorem State.CreateRoom.needed {s₁ t : State} (hroom : s.CreateRoom L isUser m)
    (hown : Takes 0x40000 (s.ownFrames L isUser) s s₁)
    (hpage : (s.domains .heap4k).nextFreeBlock = 0 → s.classTables L .heap4k ≠ 0 →
      Takes 0x40000 (1 + s.classTables L .heap4k) s₁ t) : s.CreateRoom L isUser 0x40000 where
  region := hroom.region
  own := hown.room
  page := hroom.page
  tables hnil hne := by
    have hsum := (hown.trans (hpage hnil hne)).room
    rwa [Nat.add_comm] at hsum

/-- The kernel stack, the last of the frames. -/
theorem Making.kernelStack {p : ℕ} (h : Making L ranges live use s p use' live' s')
    (hroom : s.CreateRoom L isUser m) (hm : m ≤ 0x50000)
    (hdom : s'.domains .heap4k = s.domains .heap4k)
    (htables : (s.domains .heap4k).nextFreeBlock = 0 →
      s'.classTables L .heap4k = s.classTables L .heap4k)
    (hspent : Spends (s.ownFrames L isUser) s s')
    (htaken : Takes 0x40000 (s.ownFrames L isUser) s s') :
    Ends (L.kmalloc 4096) s'
      (fun a s₂ => ∃ use₂,
        Making L ranges live use s p use₂ (Function.update live' a (some 4096)) s₂ ∧
        live' a = none ∧ SizeClass.heap4k.IsBlock (SizeClass.heap4k.virtBase + 0x10000000) a ∧
        (∀ g, use' g ≠ .free → use₂ g = use' g) ∧
        (∀ c, use' c = .dir .proc → ∀ t i, use₂ t = .table c i → use' t = .table c i) ∧
        PagesGrown .heap4k use' s' use₂ s₂ ∧ (∀ e, e ≠ .heap4k → s₂.domains e = s'.domains e) ∧
        L.fields s₂ p = L.fields s' p ∧ Spends (s.createFrames L isUser) s s₂ ∧
        s.CreateRoom L isUser 0x40000)
      (fun _ => 0x40000 < m) := by
  have hcost := State.popCost_congr hdom htables
  rw [L.kmalloc_small (d := .heap4k) (by decide)]
  apply (h.alloc (d := .heap4k) (k := 4096) (by decide) hm
    (hroom.kernelStack hdom htables hspent)).mono
  · rintro a s₂ ⟨use₂, h₂, hfresh, hblock, hkept, hproc, hgrown, hothers, hfields, hspent₂, htaken₂⟩
    rw [hcost] at hspent₂ htaken₂
    refine ⟨use₂, h₂, hfresh, hblock, hkept, hproc, hgrown, hothers, hfields,
      hspent.trans hspent₂, hroom.needed (t := s₂) htaken fun hnil hne => ?_⟩
    have hpop : s.popCost L .heap4k = 1 + s.classTables L .heap4k := if_pos hnil
    rw [← hpop]
    exact htaken₂ (by rw [htables hnil]; exact hne)
  · exact fun _ hE => hE

/-- The finished process joins the list. -/
theorem Making.created {x : Process} {s₁ : State}
    (h : Making L ranges live use s x.pcb use' (Function.update
      (Function.update live x.pcb (some PCB_SIZE)) x.kstack (some 4096)) s₁)
    (hj : Joined L use' (Function.update
      (Function.update live x.pcb (some PCB_SIZE)) x.kstack (some 4096)) x.pcb l s₁ s')
    (hpblock : SizeClass.heap128.IsBlock (SizeClass.heap128.virtBase + 0x10000000) x.pcb)
    (hkstack : live x.kstack = none) (hapart : x.kstack ≠ x.pcb)
    (hkblock : SizeClass.heap4k.IsBlock (SizeClass.heap4k.virtBase + 0x10000000) x.kstack)
    (hmemory : ∃ D, OwnMemory use isUser x D use')
    (hdir : L.fields s₁ x.pcb .pageDir = some x.pageDir)
    (htop : L.fields s₁ x.pcb .kernelStackTop = some (x.kstack + 4096))
    (hpid : L.fields s₁ x.pcb .pid = some s.currentIndex)
    (hgrown : PagesGrown .heap4k use s use' s₁)
    (hcursor : ∀ d, (s₁.domains d).nextVirtAddr ≤ (s.domains d).nextVirtAddr + 4096) :
    Created L use live l s isUser x use' (Function.update
      (Function.update live x.pcb (some PCB_SIZE)) x.kstack (some 4096)) s' where
  pcb := h.fresh
  pcbBlock := hpblock
  kstack := hkstack
  kstackBlock := hkblock
  apart := hapart
  blocks := rfl
  memory := hmemory
  pageDir := by rw [hj.fields _ h.mine _ (by simp) (by simp), hdir]
  kernelStackTop := by rw [hj.fields _ h.mine _ (by simp) (by simp), htop]
  pid := by rw [hj.fields _ h.mine _ (by simp) (by simp), hpid]
  kept := h.kept
  tables := h.tables
  grown := by
    unfold PagesGrown
    rw [hj.domains]
    exact hgrown
  words b q k hq hk h1 h2 hql := by
    rw [hj.words b q k (h.lives q k hq) hk h1 h2 (h.ne_new hq) hql]
    exact h.words b ⟨q, k, hq, hk, h1, h2⟩
  fields q hq field hn hp := by
    rw [hj.fields q (h.lives q _ hq) field hn hp, fields_congr hq h.words]
  list := by
    rw [← h.index]
    exact hj.list
  index := by rw [hj.index, h.index]
  cursor d := by
    rw [hj.domains]
    exact hcursor d
  spares := h.spares.trans hj.spares

/-- While there are frames for it, `create_process` adds a process to the list, or stops on a
frame beyond 1 GB, on a function that cannot be read, or in an empty list that the counter
takes for a list.  It does not get by with less room below 1 GB than it asks for. -/
theorem HeapInv.createProcessTight (h : HeapInv L use live ranges s) (hm : m ≤ 0x50000)
    (hroom : s.CreateRoom L isUser m) (hl : ProcChain L s s.processLists l)
    (hlive : ∀ q ∈ l, live q = some PCB_SIZE) (hindex : s.currentIndex < 2 ^ 16) (func : ℕ) :
    Ends (L.createProcess func isUser) s
      (fun r s' => ∃ x use' live', r = some x ∧ HeapInv L use' live' ranges s' ∧
        Created L use live l s isUser x use' live' s' ∧ Spends (s.createFrames L isUser) s s' ∧
        s.CreateRoom L isUser 0x40000 ∧ (l = [] → s.currentIndex = 0))
      (fun _ => 0x40000 < m ∨ (isUser = true ∧ ¬ KernelCode func) ∨
        (s.currentIndex ≠ 0 ∧ l = [])) := by
  have hown : RoomBelow m (privateFrames isUser + 1 + s.popCost L .heap128) s := by
    have hsum : privateFrames isUser + 1 + s.popCost L .heap128 = s.ownFrames L isUser := by
      unfold State.ownFrames
      omega
    rw [hsum]
    exact hroom.own
  unfold Layout.createProcess
  -- the block
  apply ((h.startProcess hm (hroom.block (by omega))).mono (fun _ _ hq => hq)
    (fun _ hE => Or.inl hE)).bind
  rintro p s₁ ⟨use₁, h₁, hp0, hpblock, hdom₁, hgrown₁, hspent₁, htaken₁, hback₁⟩
  rw [if_neg hp0]
  obtain ⟨s₂, hr₂, h₂, hnext₂, hpid₂, hdom₂, halloc₂⟩ := h₁.initPcb hindex
  apply Ends.bind_ok hr₂
  have hspent₂ := hspent₁.same halloc₂
  have hleft₂ : RoomBelow m (privateFrames isUser + 1) s₂ := hspent₂ m _ hown
  -- the directory
  apply ((h₂.makeDirectory hm (hleft₂.anti _ 1 s₂ (Nat.le_add_left _ _))).mono (fun _ _ hq => hq)
    (fun _ hE => Or.inl hE)).bind
  rintro _ s₃ ⟨D, use₃, rfl, hDlow, h₃, hD₃, hf₃, hdom₃, hspent₃, htaken₃, hDclear, hnone₃, hback₃⟩
  have hD32 : KERNEL_BASE + D * 4096 < 2 ^ 32 := by unfold KERNEL_BASE; omega
  obtain ⟨s₄, hr₄, h₄, hf₄, hdom₄, halloc₄⟩ := h₃.storeField .pageDir hD32
  apply Ends.bind_ok hr₄
  have hspent₄ := hspent₃.same halloc₄
  have hleft₄ : RoomBelow m (privateFrames isUser) s₄ := hspent₄ m _ hleft₂
  -- the stack and the code
  have hone : 1 ≤ privateFrames isUser := by cases isUser <;> norm_num [privateFrames]
  obtain ⟨f, hfm, hffirst, hffree, hf0, hframe⟩ :=
    h₄.heap.pages.inv.processFrame (n := 0) (hleft₄.anti _ 1 s₄ hone) (by omega)
  apply Ends.bind_ok hframe
  apply ((h₄.mapProcess hD₃ hffree hffirst (by omega) hm func isUser hleft₄).mono
    (fun _ _ hq => hq) (fun _ hE => hE.imp_right Or.inl)).bind
  rintro code s₅ ⟨use₅, h₅, hD₅, hstack₅, ⟨t, ht₅⟩, hcode₅, hkept₅, hf₅, hdom₅, hspent₅, htaken₅,
    hback₅⟩
  apply ((h₅.pushWords hstack₅ hfm hm func isUser).mono (fun _ _ hq => hq)
    (fun _ hE => Or.inl hE)).bind
  rintro sp s₆ ⟨hflow, h₆, hf₆, hdom₆, halloc₆⟩
  obtain ⟨s₇, hr₇, h₇, hf₇, hdom₇, halloc₇⟩ := h₆.storeField .savedEsp
    (v := u32 (PROC_STACK_VIRT + u32Sub sp (u32 (f * 4096 + 0xC0000000))))
    (Nat.mod_lt _ (by norm_num))
  apply Ends.bind_ok hr₇
  obtain ⟨s₈, hr₈, h₈, hf₈, hdom₈, halloc₈⟩ := h₇.storeField .stackTop
    (v := PROC_STACK_VIRT + PROC_STACK_SIZE) (by decide)
  apply Ends.bind_ok hr₈
  have hspent₈ : Spends (s.ownFrames L isUser) s s₈ :=
    (hspent₂.trans hspent₄).trans (((hspent₅.same halloc₆).same halloc₇).same halloc₈)
  have hclear₁ : ∃ g < 0x40000, s₁.allocated g = false :=
    ⟨D, hDlow, by rw [← halloc₂]; exact hDclear⟩
  have htaken₈ : Takes 0x40000 (s.ownFrames L isUser) s s₈ :=
    (((htaken₁ hclear₁).same halloc₂).trans (htaken₃.same halloc₄)).trans
      ((((htaken₅ hnone₃ hflow).same halloc₆).same halloc₇).same halloc₈)
  have hdom : s₈.domains = s₁.domains := by
    rw [hdom₈, hdom₇, hdom₆, hdom₅, hdom₄, hdom₃, hdom₂]
  -- the kernel stack
  have hdom4k : s₈.domains .heap4k = s.domains .heap4k := by rw [hdom, hdom₁ _ (by simp)]
  have htables₈ : (s.domains .heap4k).nextFreeBlock = 0 →
      s₈.classTables L .heap4k = s.classTables L .heap4k := fun hnil =>
    Making.classTables h h₈ hD₅.free hdom4k (hroom.region _ (Or.inr rfl) hnil)
      fun u c i hc hi hu => hback₁ u c i hi (hback₃ u c i (hback₅ u c i hc hu))
  apply ((h₈.kernelStack hroom hm hdom4k htables₈ hspent₈ htaken₈).mono (fun _ _ hq => hq)
    (fun _ hE => Or.inl hE)).bind
  rintro a s₉ ⟨use₉, h₉, hafresh, hablock, hkept₉, htables₉, hgrown₉, hdom₉, hf₉, hspent₉, hneeded⟩
  have ha1 := hablock.1
  have ha2 := hablock.2.1
  simp only [SizeClass.virtBase] at ha1 ha2
  rw [if_neg (by omega), u32_of_lt (by omega)]
  obtain ⟨s₁₀, hr₁₀, h₁₀, hf₁₀, hdom₁₀, halloc₁₀⟩ := h₉.storeField .kernelStackTop
    (v := a + 4096) (by omega)
  apply Ends.bind_ok hr₁₀
  -- the list
  have hfields : L.fields s₁₀ p = Function.update (Function.update (Function.update
      (Function.update (L.fields s₂ p) .pageDir (some (KERNEL_BASE + D * 4096))) .savedEsp
        (some (u32 (PROC_STACK_VIRT + u32Sub sp (u32 (f * 4096 + 0xC0000000)))))) .stackTop
          (some (PROC_STACK_VIRT + PROC_STACK_SIZE))) .kernelStackTop (some (a + 4096)) := by
    rw [hf₁₀, hf₉, hf₈, hf₇, hf₆, hf₅, hf₄, hf₃]
  have hnext : L.fields s₁₀ p .next = some 0 := by simp [hfields, hnext₂]
  obtain ⟨hl₁₀, hlive₁₀, hpl⟩ := h₁₀.chain hl hlive
  apply ((h₁₀.heap.addProcess_ends h₁₀.mine hl₁₀ hlive₁₀ hpl hnext).mono (fun _ _ hq => hq)
    (fun _ hE => Or.inr (Or.inr ⟨by rw [← h₁₀.index]; exact hE.1, hE.2⟩))).bind
  rintro _ s' ⟨h', hj, hcounter⟩
  have hD₉ : OwnDir use D use₉ := ⟨hD₅.free, by rw [hkept₉ D (by rw [hD₅.dir]; simp), hD₅.dir],
    fun t i ht => hD₅.tables t i (htables₉ D hD₅.dir t i ht)⟩
  have hmemory : OwnMemory use isUser ⟨p, KERNEL_BASE + D * 4096, f * 4096, code, a⟩ D use₉ :=
    { pageDir := rfl
      low := hDlow
      dir := hD₉
      stack := ⟨f, rfl, hflow, h₄.free hffree, by rw [hkept₉ f (by rw [hstack₅]; simp), hstack₅]⟩
      code := hcode₅.kept hkept₉
      table := ⟨t, by rw [hkept₉ t (by rw [ht₅]; simp), ht₅]⟩ }
  have hkstack : live a = none := by
    cases hla : live a with
    | none => rfl
    | some k =>
        rw [h₈.lives a k hla] at hafresh
        cases hafresh
  have hpa : a ≠ p := by
    rintro rfl
    rw [h₈.mine] at hafresh
    cases hafresh
  have hgrown : PagesGrown .heap4k use s use₉ s₁₀ := by
    unfold PagesGrown at hgrown₉ ⊢
    rw [hdom₁₀, ← hdom4k]
    refine hgrown₉.imp_right fun hslow => ⟨hslow.1, ?_⟩
    obtain ⟨g, q, hg, hq⟩ := hslow.2
    exact ⟨g, q, h₈.free hg, hq⟩
  have hcursor : ∀ d, (s₁₀.domains d).nextVirtAddr ≤ (s.domains d).nextVirtAddr + 4096 := by
    intro d
    by_cases h4k : d = .heap4k
    · subst h4k
      exact hgrown.cursor_le
    · rw [hdom₁₀, hdom₉ d h4k, hdom]
      by_cases h128 : d = .heap128
      · subst h128
        exact hgrown₁.cursor_le
      · rw [hdom₁ d h128]
        exact Nat.le_add_right _ _
  have hcreated := h₁₀.created (x := ⟨p, KERNEL_BASE + D * 4096, f * 4096, code, a⟩) (l := l)
    hj hpblock hkstack hpa hablock ⟨D, hmemory⟩ (by simp [hfields])
    (by simp [hfields]) (by simp [hfields, hpid₂]) hgrown hcursor
  exact Ends.of_ok rfl ⟨_, use₉, _, rfl, h', hcreated, (hspent₉.same halloc₁₀).same hj.alloc,
    hneeded, fun hnil => by rw [← h₁₀.index]; exact hcounter hnil⟩

/-- Twelve frames are enough for a process. -/
theorem HeapInv.createProcess (h : HeapInv L use live ranges s) (hm : m ≤ 0x50000)
    (hroom : RoomBelow m (n + 12) s)
    (hregion : ∀ d, d = .heap128 ∨ d = .heap4k → (s.domains d).nextFreeBlock = 0 →
      (s.domains d).nextVirtAddr < d.virtBase + 0x10000000)
    (hl : ProcChain L s s.processLists l) (hlive : ∀ q ∈ l, live q = some PCB_SIZE)
    (hindex : s.currentIndex < 2 ^ 16) (func : ℕ) (isUser : Bool) :
    Ends (L.createProcess func isUser) s
      (fun r s' => ∃ x use' live', r = some x ∧ HeapInv L use' live' ranges s' ∧
        Created L use live l s isUser x use' live' s' ∧ RoomBelow m n s')
      (fun _ => 0x40000 < m ∨ (isUser = true ∧ ¬ KernelCode func) ∨
        (s.currentIndex ≠ 0 ∧ l = [])) := by
  have hcreate : s.CreateRoom L isUser m :=
    .of_room hregion (hroom.anti (n + 12) 12 s (by omega)) (by omega)
  apply (h.createProcessTight hm hcreate hl hlive hindex func).mono
  · rintro r s' ⟨x, use', live', hx, h', hc, hspent, -⟩
    refine ⟨x, use', live', hx, h', hc, hspent m n (hroom.anti (n + 12) _ s ?_)⟩
    have hown := s.ownFrames_le L isUser
    have hpop := s.popCost_le L .heap4k
    unfold State.createFrames
    omega
  · exact fun _ hE => hE

end Whole

end RaxzusHeap
