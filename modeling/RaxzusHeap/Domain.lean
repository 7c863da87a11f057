import RaxzusHeap.HeapPages

/-! # One size-class domain

`DomainInv` is the representation invariant of a size-class domain: the pages from the base
of its region to its cursor are mapped, its free list is a chain through the first words of
the free blocks, and a block below the cursor is on the list exactly when it is not live.

`live` is the client's view: the pointers handed out and not given back, each with the size
asked for.  `grow` is the expansion by one page that `init_heap_domain` and the slow path of
`heap_domain_alloc` share; `DomainInv.pop` and `DomainInv.free` are removal and insertion at
the front of the list. -/

namespace RaxzusHeap

open Imperative FirstFit Linked

/-! ### The seven classes -/

namespace SizeClass

theorem blockSize_dvd (d : SizeClass) : d.blockSize ∣ 4096 := by
  cases d <;> norm_num [blockSize]

theorem blockSize_ge (d : SizeClass) : 64 ≤ d.blockSize := by cases d <;> simp [blockSize]

theorem blockSize_le (d : SizeClass) : d.blockSize ≤ 4096 := by cases d <;> simp [blockSize]

theorem virtBase_bounds (d : SizeClass) :
    0x10000000 ≤ d.virtBase ∧ d.virtBase + 0x10000000 ≤ 0x80000000 := by
  cases d <;> simp [virtBase]

theorem virtBase_mod (d : SizeClass) : d.virtBase % 0x10000000 = 0 := by
  cases d <;> simp [virtBase]

theorem homeOf_page (d : SizeClass) {p : ℕ} (h1 : d.virtBase ≤ p * 4096)
    (h2 : p * 4096 < d.virtBase + 0x10000000) : homeOf p = .cls d := by
  unfold homeOf
  cases d <;> simp only [virtBase] at h1 h2 <;> split_ifs <;> first | rfl | omega

theorem region_disjoint {c d : SizeClass} (h : c ≠ d) :
    c.virtBase + 0x10000000 ≤ d.virtBase ∨ d.virtBase + 0x10000000 ≤ c.virtBase := by
  cases c <;> cases d <;> simp_all [virtBase]

/-- `b` is a block of the class below the cursor. -/
def IsBlock (d : SizeClass) (cursor b : ℕ) : Prop :=
  d.virtBase ≤ b ∧ b < cursor ∧ (b - d.virtBase) % d.blockSize = 0

end SizeClass

/-! ### Linking the blocks of a page -/

/-- The blocks of page `p`. -/
def pageBlocks (p blockSize : ℕ) : List ℕ :=
  (List.range' 0 (4096 / blockSize - 1 + 1)).map fun k => p * 4096 + k * blockSize

theorem div_blockSize_pos {bs : ℕ} (h0 : 0 < bs) (hbs : bs ∣ 4096) : 0 < 4096 / bs :=
  Nat.div_pos (Nat.le_of_dvd (by norm_num) hbs) h0

theorem block_in_page {bs k : ℕ} (hk : k < 4096 / bs) : k * bs + bs ≤ 4096 := by
  have h1 : (k + 1) * bs ≤ 4096 / bs * bs := Nat.mul_le_mul_right bs hk
  have h2 := Nat.div_mul_le_self 4096 bs
  rw [Nat.add_mul, Nat.one_mul] at h1
  omega

theorem mem_pageBlocks {p bs b : ℕ} (h0 : 0 < bs) (hbs : bs ∣ 4096) :
    b ∈ pageBlocks p bs ↔ p * 4096 ≤ b ∧ b < p * 4096 + 4096 ∧ (b - p * 4096) % bs = 0 := by
  have hpos := div_blockSize_pos h0 hbs
  unfold pageBlocks
  rw [List.mem_map]
  constructor
  · rintro ⟨k, hk, rfl⟩
    rw [List.mem_range'_1] at hk
    have := @block_in_page bs k (by omega)
    refine ⟨by omega, by omega, ?_⟩
    rw [Nat.add_sub_cancel_left, Nat.mul_mod_left]
  · rintro ⟨h1, h2, h3⟩
    refine ⟨(b - p * 4096) / bs, ?_, ?_⟩
    · rw [List.mem_range'_1]
      have : (b - p * 4096) / bs < 4096 / bs :=
        Nat.div_lt_div_of_lt_of_dvd hbs (by omega)
      exact ⟨Nat.zero_le _, by omega⟩
    · rw [Nat.div_mul_cancel (Nat.dvd_of_mod_eq_zero h3)]
      omega

/-- Only words of heap page `p` changed. -/
structure OnlyPage (L : Layout) (use : ℕ → Use) (p : ℕ) (s s' : State) : Prop where
  pages : HeapPages L use s'
  peek : ∀ b, Backed use (b / 4096) → b / 4096 ≠ p → s'.peek L.dirFrame b = s.peek L.dirFrame b
  vars : SameVars s s'
  alloc : ∀ g, s'.allocated g = s.allocated g
  maps : s'.maps = s.maps
  stale : s'.stale = s.stale
  mem : ∀ g, ¬ (use g).Data → s'.mem g = s.mem g

namespace OnlyPage

variable {L : Layout} {use : ℕ → Use} {p : ℕ} {s s₁ s₂ : State}

theorem refl (h : HeapPages L use s) : OnlyPage L use p s s :=
  ⟨h, fun _ _ _ => rfl, SameVars.refl s, fun _ => rfl, rfl, rfl, fun _ _ => rfl⟩

theorem store (h : OnlyPage L use p s s₁) {a v : ℕ} (ha : a / 4096 = p)
    (h₂ : HeapPages L use s₂) (hst : Stored L use a v s₁ s₂) : OnlyPage L use p s s₂ := by
  refine ⟨h₂, fun b hb hne => ?_, h.vars.trans hst.vars, fun g => ?_, ?_, ?_, fun g hg => ?_⟩
  · have hab : b / 4 ≠ a / 4 := fun e => hne (by omega)
    rw [hst.peek b hb, if_neg hab, h.peek b hb hne]
  · rw [hst.alloc, h.alloc]
  · rw [hst.maps, h.maps]
  · rw [hst.stale, h.stale]
  · rw [hst.mem g hg, h.mem g hg]

theorem spares (h : OnlyPage L use p s s₁) : Spares use s use s₁ := by
  apply Spares.of_mem h.maps h.stale
  rintro g (hg | ⟨d, i, hg⟩) <;> exact h.mem g (by rw [hg]; exact id)

end OnlyPage

section LinkBlocks

variable {L : Layout} {use : ℕ → Use} {s : State}

/-- `linkBlocks` puts the blocks of the page in front of the chain at `tail`. -/
theorem Layout.linkBlocks_spec (h : HeapPages L use s) {p bs tail : ℕ} {l : List ℕ}
    (hp : Backed use p) (h4 : 4 ≤ bs) (hbs : bs ∣ 4096)
    (htail : Chain (s.peek L.dirFrame) 0 tail l) (ht32 : tail < 2 ^ 32)
    (hl : ∀ b ∈ l, Backed use (b / 4096) ∧ b / 4096 ≠ p) :
    ∃ s', L.linkBlocks (p * 4096) bs (4096 / bs) tail s = .ok () s' ∧ OnlyPage L use p s s' ∧
      Chain (s'.peek L.dirFrame) 0 (p * 4096) (pageBlocks p bs ++ l) := by
  obtain ⟨f, hf⟩ := hp
  have hregion := h.region f p hf
  have hpos := div_blockSize_pos (by omega) hbs
  have hle : 4096 / bs ≤ 4096 := Nat.div_le_self _ _
  have hsub : u32Sub (4096 / bs) 1 = 4096 / bs - 1 := by unfold u32Sub; omega
  have haddr : ∀ k, k ≤ 4096 / bs → u32 (p * 4096 + u32 (k * bs)) = p * 4096 + k * bs := by
    intro k hk
    have h1 : k * bs ≤ 4096 / bs * bs := Nat.mul_le_mul_right bs hk
    have h2 := Nat.div_mul_le_self 4096 bs
    rw [u32_of_lt (n := k * bs) (by omega), u32_of_lt (by omega)]
  have hpage : ∀ k, k < 4096 / bs → (p * 4096 + k * bs) / 4096 = p := by
    intro k hk
    have := block_in_page hk
    omega
  -- distinct blocks lie in distinct words
  have hword : ∀ j k, j < k → (p * 4096 + j * bs) / 4 ≠ (p * 4096 + k * bs) / 4 := by
    intro j k hjk
    have : (j + 1) * bs ≤ k * bs := Nat.mul_le_mul_right bs hjk
    rw [Nat.add_mul, Nat.one_mul] at this
    omega
  obtain ⟨s₁, hr₁, h₁, hlinks⟩ := times_rule
    (fun i => (do
      let blockAddr := u32 (p * 4096 + u32 (i * bs))
      let nextBlock := u32 (p * 4096 + u32 ((i + 1) * bs))
      L.store blockAddr nextBlock : Kernel Unit))
    (fun i t => OnlyPage L use p s t ∧
      ∀ k < i, t.peek L.dirFrame (p * 4096 + k * bs) = some (p * 4096 + (k + 1) * bs))
    (n := 4096 / bs - 1) ⟨OnlyPage.refl h, fun k hk => absurd hk (Nat.not_lt_zero k)⟩
    (fun i t hi ⟨hot, hlinks⟩ => by
      have hnext := @block_in_page bs (i + 1) (by omega)
      obtain ⟨t', hrun, hpt, hst⟩ := hot.pages.store (a := p * 4096 + i * bs)
        (v := p * 4096 + (i + 1) * bs) ⟨f, by rw [hpage i (by omega)]; exact hf⟩ (by omega)
      refine ⟨t', ?_, hot.store (hpage i (by omega)) hpt hst, fun k hk => ?_⟩
      · simp only [haddr i (by omega), haddr (i + 1) (by omega)]
        exact hrun
      · have hbk : Backed use ((p * 4096 + k * bs) / 4096) :=
          ⟨f, by rw [hpage k (by omega)]; exact hf⟩
        rw [hst.peek _ hbk]
        rcases Nat.lt_succ_iff_lt_or_eq.mp hk with hlt | rfl
        · rw [if_neg (hword k i hlt), hlinks k hlt]
        · rw [if_pos rfl])
  have hlast := hpage (4096 / bs - 1) (by omega)
  obtain ⟨s₂, hr₂, hp₂, hst⟩ := h₁.pages.store (a := p * 4096 + (4096 / bs - 1) * bs) (v := tail)
    ⟨f, by rw [hlast]; exact hf⟩ ht32
  have hot := h₁.store hlast hp₂ hst
  refine ⟨s₂, ?_, hot, ?_⟩
  · unfold Layout.linkBlocks
    simp only [hsub]
    rw [run_bind_ok hr₁]
    simp only [haddr (4096 / bs - 1) (by omega)]
    exact hr₂
  · have hchain : Chain (s₂.peek L.dirFrame) 0 tail l :=
      htail.congr fun b hb => hot.peek b (hl b hb).1 (hl b hb).2
    have := hchain.prepend (fun k => p * 4096 + k * bs) (4096 / bs - 1) 0
      (fun k _ _ => by omega)
      (fun k _ hk => by
        have hbk : Backed use ((p * 4096 + k * bs) / 4096) :=
          ⟨f, by rw [hpage k (by omega)]; exact hf⟩
        rw [hst.peek _ hbk, if_neg (hword k _ (by omega)), hlinks k (by omega)])
      (by
        have hbk : Backed use ((p * 4096 + (0 + (4096 / bs - 1)) * bs) / 4096) :=
          ⟨f, by rw [hpage _ (by omega)]; exact hf⟩
        rw [hst.peek _ hbk, if_pos (by rw [Nat.zero_add])])
    simpa [pageBlocks] using this

end LinkBlocks

/-! ### The invariant -/

namespace SizeClass

theorem blockSize_mod (d : SizeClass) : d.blockSize % 4 = 0 := by cases d <;> rfl

theorem IsBlock.disjoint {d : SizeClass} {c c' a b : ℕ} (ha : d.IsBlock c a) (hb : d.IsBlock c' b)
    (hab : a ≠ b) : a + d.blockSize ≤ b ∨ b + d.blockSize ≤ a := by
  obtain ⟨ha1, _, ha3⟩ := ha
  obtain ⟨hb1, _, hb3⟩ := hb
  obtain ⟨i, hi⟩ := Nat.dvd_of_mod_eq_zero ha3
  obtain ⟨j, hj⟩ := Nat.dvd_of_mod_eq_zero hb3
  rcases Nat.lt_trichotomy i j with hij | rfl | hij
  · left
    have : d.blockSize * (i + 1) ≤ d.blockSize * j := Nat.mul_le_mul_left _ hij
    rw [Nat.mul_add, Nat.mul_one] at this
    omega
  · omega
  · right
    have : d.blockSize * (j + 1) ≤ d.blockSize * i := Nat.mul_le_mul_left _ hij
    rw [Nat.mul_add, Nat.mul_one] at this
    omega

theorem IsBlock.aligned {d : SizeClass} {c b : ℕ} (hb : d.IsBlock c b) : b % 4 = 0 := by
  obtain ⟨i, hi⟩ := Nat.dvd_of_mod_eq_zero hb.2.2
  have hbase := d.virtBase_mod
  have hge := hb.1
  obtain ⟨k, hk⟩ := Nat.dvd_of_mod_eq_zero d.blockSize_mod
  rw [hk, Nat.mul_assoc] at hi
  omega

/-- The blocks below the next page boundary are those below the cursor and those of the
page at the cursor. -/
theorem isBlock_succ {d : SizeClass} {c b : ℕ} (hc : c % 4096 = 0) (hB : d.virtBase ≤ c) :
    d.IsBlock (c + 4096) b ↔ d.IsBlock c b ∨ b ∈ pageBlocks (c / 4096) d.blockSize := by
  have hbase := d.virtBase_mod
  have hc' : c / 4096 * 4096 = c := by omega
  rw [mem_pageBlocks (by have := d.blockSize_ge; omega) d.blockSize_dvd, hc']
  unfold IsBlock
  -- the page starts at a multiple of the block size
  have hdvd : d.blockSize ∣ c - d.virtBase :=
    d.blockSize_dvd.trans (Nat.dvd_of_mod_eq_zero (by omega))
  obtain ⟨t, ht⟩ := hdvd
  have hmod : c ≤ b → (b - d.virtBase) % d.blockSize = (b - c) % d.blockSize := by
    intro hcb
    rw [show b - d.virtBase = b - c + d.blockSize * t by omega, Nat.add_mul_mod_self_left]
  constructor
  · rintro ⟨h1, h2, h3⟩
    by_cases hcb : c ≤ b
    · exact Or.inr ⟨hcb, h2, by rw [← hmod hcb]; exact h3⟩
    · exact Or.inl ⟨h1, by omega, h3⟩
  · rintro (⟨h1, h2, h3⟩ | ⟨h1, h2, h3⟩)
    · exact ⟨h1, by omega, h3⟩
    · exact ⟨by omega, h2, by rw [hmod h1]; exact h3⟩

end SizeClass

/-- The invariant of one size-class domain. -/
structure DomainInv (L : Layout) (use : ℕ → Use) (live : ℕ → Option ℕ) (d : SizeClass)
    (s : State) : Prop where
  home : ∃ D, use D = .dir (.cls d)
  blockSize : (s.domains d).blockSize = d.blockSize
  perPage : (s.domains d).blocksPerPage = 4096 / d.blockSize
  aligned : (s.domains d).nextVirtAddr % 4096 = 0
  cursor_ge : d.virtBase ≤ (s.domains d).nextVirtAddr
  cursor_le : (s.domains d).nextVirtAddr ≤ d.virtBase + 0x10000000
  backed : ∀ p, d.virtBase ≤ p * 4096 → p * 4096 < d.virtBase + 0x10000000 →
    (Backed use p ↔ p * 4096 < (s.domains d).nextVirtAddr)
  chain : ∃ l, Chain (s.peek L.dirFrame) 0 (s.domains d).nextFreeBlock l ∧
    ∀ b, b ∈ l ↔ d.IsBlock (s.domains d).nextVirtAddr b ∧ live b = none
  live : ∀ b n, live b = some n → d.virtBase ≤ b → b < d.virtBase + 0x10000000 →
    d.IsBlock (s.domains d).nextVirtAddr b ∧ n ≤ d.blockSize

/-- The variables other than the record of domain `d` agree. -/
structure OtherVars (d : SizeClass) (s s' : State) : Prop where
  domains : ∀ c, c ≠ d → s'.domains c = s.domains c
  pageDirectory : (s'.domains d).pageDirectory = (s.domains d).pageDirectory
  large : s'.large = s.large
  currentIndex : s'.currentIndex = s.currentIndex
  processLists : s'.processLists = s.processLists

theorem OtherVars.trans {d : SizeClass} {s₁ s₂ s₃ : State} (h₁ : OtherVars d s₁ s₂)
    (h₂ : OtherVars d s₂ s₃) : OtherVars d s₁ s₃ :=
  ⟨fun c hc => (h₂.domains c hc).trans (h₁.domains c hc),
    h₂.pageDirectory.trans h₁.pageDirectory, h₂.large.trans h₁.large,
    h₂.currentIndex.trans h₁.currentIndex, h₂.processLists.trans h₁.processLists⟩

theorem SameVars.other {s s' : State} (h : SameVars s s') (d : SizeClass) : OtherVars d s s' :=
  ⟨fun c _ => congrFun h.domains c, by rw [h.domains], h.large, h.currentIndex, h.processLists⟩

theorem OtherVars.dirAddr {d : SizeClass} {s s' : State} (h : OtherVars d s s') (o : Owner) :
    s'.dirAddr o = s.dirAddr o := by
  cases o with
  | cls c =>
      by_cases hc : c = d
      · subst hc; exact h.pageDirectory
      · simp only [State.dirAddr, h.domains c hc]
  | large => simp only [State.dirAddr, h.large]
  | proc => rfl

theorem State.setDomain_self (s : State) (d : SizeClass) (f : HeapDomain → HeapDomain) :
    (s.setDomain d f).domains d = f (s.domains d) := if_pos rfl

theorem State.setDomain_other (s : State) {d c : SizeClass} (f : HeapDomain → HeapDomain)
    (h : c ≠ d) : (s.setDomain d f).domains c = s.domains c := if_neg h

theorem modifyDomain_run (d : SizeClass) (f : HeapDomain → HeapDomain) (s : State) :
    modifyDomain d f s = .ok () (s.setDomain d f) := rfl

theorem OtherVars.setDomain (s : State) (d : SizeClass) (f : HeapDomain → HeapDomain)
    (hf : (f (s.domains d)).pageDirectory = (s.domains d).pageDirectory) :
    OtherVars d s (s.setDomain d f) :=
  ⟨fun _ hc => s.setDomain_other f hc, by rw [s.setDomain_self]; exact hf, rfl, rfl, rfl⟩

theorem HeapPages.setDomain {L : Layout} {use : ℕ → Use} {s : State} (h : HeapPages L use s)
    (d : SizeClass) (f : HeapDomain → HeapDomain)
    (hf : (f (s.domains d)).pageDirectory = (s.domains d).pageDirectory) :
    HeapPages L use (s.setDomain d f) :=
  h.congr rfl (fun _ => rfl) rfl rfl (OtherVars.setDomain s d f hf).dirAddr

theorem State.peek_setDomain (s : State) (d : SizeClass) (f : HeapDomain → HeapDomain) (D : ℕ) :
    (s.setDomain d f).peek D = s.peek D := rfl

namespace DomainInv

variable {L : Layout} {use use' : ℕ → Use} {live live' : ℕ → Option ℕ} {d : SizeClass}
  {s s' : State}

theorem backed_block (h : DomainInv L use live d s) {b : ℕ}
    (hb : d.IsBlock (s.domains d).nextVirtAddr b) :
    Backed use (b / 4096) ∧ b < d.virtBase + 0x10000000 := by
  have hbase := d.virtBase_mod
  have h1 := h.cursor_le
  obtain ⟨hb1, hb2, _⟩ := hb
  exact ⟨(h.backed _ (by omega) (by omega)).mpr (by omega), by omega⟩

theorem block_end (h : DomainInv L use live d s) {b : ℕ}
    (hb : d.IsBlock (s.domains d).nextVirtAddr b) :
    b + d.blockSize ≤ (s.domains d).nextVirtAddr := by
  obtain ⟨hb1, hb2, hb3⟩ := hb
  have hmod := d.virtBase_mod
  have hal := h.aligned
  obtain ⟨i, hi⟩ := Nat.dvd_of_mod_eq_zero hb3
  obtain ⟨k, hk⟩ : d.blockSize ∣ (s.domains d).nextVirtAddr - d.virtBase :=
    d.blockSize_dvd.trans (Nat.dvd_of_mod_eq_zero (by omega))
  have hik : i < k := by
    by_contra hc
    have : d.blockSize * k ≤ d.blockSize * i := Nat.mul_le_mul_left _ (by omega)
    omega
  have : d.blockSize * (i + 1) ≤ d.blockSize * k := Nat.mul_le_mul_left _ hik
  rw [Nat.mul_add, Nat.mul_one] at this
  omega

/-- The invariant of a domain rests on its own record and region. -/
theorem congr (h : DomainInv L use live d s) (hhome : ∀ D, use D = .dir (.cls d) → use' D = use D)
    (hdom : s'.domains d = s.domains d)
    (hback : ∀ p, d.virtBase ≤ p * 4096 → p * 4096 < d.virtBase + 0x10000000 →
      (Backed use' p ↔ Backed use p))
    (hpeek : ∀ b, d.IsBlock (s.domains d).nextVirtAddr b → live b = none →
      s'.peek L.dirFrame b = s.peek L.dirFrame b)
    (hlive : ∀ b, d.virtBase ≤ b → b < d.virtBase + 0x10000000 → live' b = live b) :
    DomainInv L use' live' d s' where
  home := by
    obtain ⟨D, hD⟩ := h.home
    exact ⟨D, by rw [hhome D hD, hD]⟩
  blockSize := by rw [hdom]; exact h.blockSize
  perPage := by rw [hdom]; exact h.perPage
  aligned := by rw [hdom]; exact h.aligned
  cursor_ge := by rw [hdom]; exact h.cursor_ge
  cursor_le := by rw [hdom]; exact h.cursor_le
  backed p h1 h2 := by rw [hdom, hback p h1 h2]; exact h.backed p h1 h2
  chain := by
    obtain ⟨l, hl, hmem⟩ := h.chain
    rw [hdom]
    refine ⟨l, hl.congr fun b hb => ?_, fun b => ?_⟩
    · exact hpeek b ((hmem b).mp hb).1 ((hmem b).mp hb).2
    · rw [hmem b]
      constructor
      · rintro ⟨hb, hn⟩
        exact ⟨hb, by rw [hlive b hb.1 (h.backed_block hb).2]; exact hn⟩
      · rintro ⟨hb, hn⟩
        exact ⟨hb, by rw [← hlive b hb.1 (h.backed_block hb).2]; exact hn⟩
  live b n hb h1 h2 := by
    rw [hlive b h1 h2] at hb
    rw [hdom]
    exact h.live b n hb h1 h2

/-! ### Removing and inserting at the front of the list -/

/-- The pop that ends both paths of `heap_domain_alloc`. -/
theorem pop (h : HeapPages L use s) (hd : DomainInv L use live d s)
    (hne : (s.domains d).nextFreeBlock ≠ 0) {n : ℕ} (hn : n ≤ d.blockSize) :
    ∃ next, L.load (s.domains d).nextFreeBlock s = .ok next s ∧
      live (s.domains d).nextFreeBlock = none ∧
      d.IsBlock (s.domains d).nextVirtAddr (s.domains d).nextFreeBlock ∧
      DomainInv L use (Function.update live (s.domains d).nextFreeBlock (some n)) d
        (s.setDomain d fun r => { r with nextFreeBlock := next }) := by
  obtain ⟨l, hl, hmem⟩ := hd.chain
  obtain ⟨next, t, rfl, hnext, ht⟩ := hl.cases_ne hne
  obtain ⟨hblock, hnone⟩ := (hmem _).mp List.mem_cons_self
  obtain ⟨v, _, hv, hload⟩ := h.load (hd.backed_block hblock).1
  rw [hv] at hnext
  cases hnext
  have hnodup := List.nodup_cons.mp hl.nodup
  refine ⟨next, hload, hnone, hblock, ?_⟩
  have hself := s.setDomain_self d fun r => { r with nextFreeBlock := next }
  exact
    { home := hd.home
      blockSize := by rw [hself]; exact hd.blockSize
      perPage := by rw [hself]; exact hd.perPage
      aligned := by rw [hself]; exact hd.aligned
      cursor_ge := by rw [hself]; exact hd.cursor_ge
      cursor_le := by rw [hself]; exact hd.cursor_le
      backed := by rw [hself]; exact hd.backed
      chain := by
        rw [hself]
        refine ⟨t, ht, fun b => ?_⟩
        by_cases hb : b = (s.domains d).nextFreeBlock
        · subst hb
          rw [Function.update_self]
          exact ⟨fun hm => absurd hm hnodup.1, fun hm => by cases hm.2⟩
        · rw [Function.update_of_ne hb, ← hmem b, List.mem_cons]
          exact ⟨Or.inr, fun hm => hm.resolve_left hb⟩
      live := fun b k hb h1 h2 => by
        rw [hself]
        by_cases hbp : b = (s.domains d).nextFreeBlock
        · subst hbp
          rw [Function.update_self] at hb
          cases hb
          exact ⟨hblock, hn⟩
        · rw [Function.update_of_ne hbp] at hb
          exact hd.live b k hb h1 h2 }

/-- `heap_domain_free` of a live block puts it in front of the list. -/
theorem free (h : HeapPages L use s) (hd : DomainInv L use live d s) {b n : ℕ}
    (hb : live b = some n) (h1 : d.virtBase ≤ b) (h2 : b < d.virtBase + 0x10000000) :
    ∃ s₁ s', L.heapDomainFree d b s = .ok () s' ∧
      Stored L use b (s.domains d).nextFreeBlock s s₁ ∧
      s' = s₁.setDomain d (fun r => { r with nextFreeBlock := b }) ∧ HeapPages L use s' ∧
      DomainInv L use (Function.update live b none) d s' := by
  obtain ⟨l, hl, hmem⟩ := hd.chain
  obtain ⟨hblock, _⟩ := hd.live b n hb h1 h2
  have hbase := d.virtBase_bounds
  have hhead : (s.domains d).nextFreeBlock < 2 ^ 32 := by
    cases l with
    | nil => rw [hl.of_nil]; norm_num
    | cons c t =>
        have hc := (hmem c).mp List.mem_cons_self
        have hlt := (hd.backed_block hc.1).2
        have hc0 := hl.head_eq
        omega
  obtain ⟨s₁, hrun, hp₁, hst⟩ := h.store (hd.backed_block hblock).1 hhead
  have hdom : s₁.domains d = s.domains d := congrFun hst.vars.domains d
  have hnotin : b ∉ l := fun hm => by
    have := ((hmem b).mp hm).2
    rw [hb] at this; cases this
  have hself := s₁.setDomain_self d fun r => { r with nextFreeBlock := b }
  refine ⟨s₁, _, ?_, hst, rfl, hp₁.setDomain d _ rfl, ?_⟩
  · unfold Layout.heapDomainFree
    rw [if_neg (show ¬ b = 0 by omega)]
    show (getDomain d >>= fun domain => _) s = _
    rw [run_bind_ok (show getDomain d s = .ok (s.domains d) s from rfl), run_bind_ok hrun]
    rfl
  exact
    { home := hd.home
      blockSize := by rw [hself, hdom]; exact hd.blockSize
      perPage := by rw [hself, hdom]; exact hd.perPage
      aligned := by rw [hself, hdom]; exact hd.aligned
      cursor_ge := by rw [hself, hdom]; exact hd.cursor_ge
      cursor_le := by rw [hself, hdom]; exact hd.cursor_le
      backed := by rw [hself, hdom]; exact hd.backed
      chain := by
        rw [hself, hdom]
        have hb0 : b ≠ 0 := by omega
        refine ⟨b :: l, hl.push hb0 hnotin ?_ (fun c hcb hc => ?_), fun c => ?_⟩
        · rw [State.peek_setDomain, hst.peek b (hd.backed_block hblock).1, if_pos rfl]
        · have hcblock := ((hmem c).mp hc).1
          have hdisj := hcblock.disjoint hblock hcb
          have hsize := d.blockSize_ge
          rw [State.peek_setDomain, hst.peek c (hd.backed_block hcblock).1, if_neg (by omega)]
        · rw [List.mem_cons]
          by_cases hcb : c = b
          · subst hcb
            simp [hblock]
          · rw [Function.update_of_ne hcb, hmem c]
            exact ⟨fun hm => hm.resolve_left hcb, Or.inr⟩
      live := fun c k hc h1 h2 => by
        rw [hself, hdom]
        by_cases hcb : c = b
        · rw [hcb, Function.update_self] at hc; cases hc
        · rw [Function.update_of_ne hcb] at hc
          exact hd.live c k hc h1 h2 }

/-! ### Growing by one page -/

end DomainInv

/-- The free list of domain `d` is `l`. -/
def FreeList (L : Layout) (s : State) (d : SizeClass) (l : List ℕ) : Prop :=
  Chain (s.peek L.dirFrame) 0 (s.domains d).nextFreeBlock l

theorem DomainInv.mem_freeList {L : Layout} {use : ℕ → Use} {live : ℕ → Option ℕ} {d : SizeClass}
    {s : State} (hd : DomainInv L use live d s) {l : List ℕ} (hl : FreeList L s d l) {b : ℕ} :
    b ∈ l ↔ d.IsBlock (s.domains d).nextVirtAddr b ∧ live b = none := by
  obtain ⟨l', hl', hmem⟩ := hd.chain
  rw [hl.unique hl', hmem b]

theorem FreeList.same {L : Layout} {use : ℕ → Use} {live : ℕ → Option ℕ} {d : SizeClass}
    {s s' : State} {l : List ℕ} (hl : FreeList L s d l) (hd : DomainInv L use live d s)
    (hdom : s'.domains d = s.domains d) (h : SameHeap L use s s') : FreeList L s' d l := by
  rw [FreeList, hdom]
  exact hl.congr fun b hb => h b (hd.backed_block ((hd.mem_freeList hl).mp hb).1).1

theorem FreeList.pop {L : Layout} {d : SizeClass} {s : State} {l : List ℕ} {next : ℕ}
    (hl : FreeList L s d l) (hne : (s.domains d).nextFreeBlock ≠ 0)
    (hload : s.peek L.dirFrame (s.domains d).nextFreeBlock = some next) :
    ∃ t, l = (s.domains d).nextFreeBlock :: t ∧
      FreeList L (s.setDomain d fun r => { r with nextFreeBlock := next }) d t := by
  obtain ⟨b, t, hlt, hb, ht⟩ := hl.cases_ne hne
  refine ⟨t, hlt, ?_⟩
  rw [hload] at hb
  cases hb
  rw [FreeList, State.setDomain_self]
  exact ht

/-- The blocks the next allocation chooses from: the free list or, when it is empty, the page
at the cursor. -/
def nextBlocks (d : SizeClass) (cursor : ℕ) (l : List ℕ) : List ℕ :=
  if l = [] then pageBlocks (cursor / 4096) d.blockSize else l

/-- The tables that the page at the cursor of domain `d` needs. -/
def State.classTables (s : State) (L : Layout) (d : SizeClass) : ℕ :=
  s.newTables L (((s.domains d).pageDirectory - KERNEL_BASE) / 4096)
    ((s.domains d).nextVirtAddr / 4096)

theorem State.classTables_le (s : State) (L : Layout) (d : SizeClass) : s.classTables L d ≤ 2 :=
  s.newTables_le L _ _

theorem HeapPages.classTables_eq {L : Layout} {use : ℕ → Use} {s : State} {d : SizeClass} {D : ℕ}
    (h : HeapPages L use s) (hD : use D = .dir (.cls d)) :
    s.classTables L d = s.newTables L D ((s.domains d).nextVirtAddr / 4096) := by
  have hdir : (s.domains d).pageDirectory = KERNEL_BASE + D * 4096 :=
    h.dirs (.cls d) D hD (by simp)
  unfold State.classTables
  rw [hdir, Nat.add_sub_cancel_left, Nat.mul_div_cancel _ (by norm_num)]

/-- There is a frame for the page at the cursor, and if it needs tables there are frames for
these and the page below `m`. -/
def State.PageRoom (s : State) (L : Layout) (d : SizeClass) (m : ℕ) : Prop :=
  Room s.allocated 1 0x80000 ∧
    (s.classTables L d ≠ 0 → Room s.allocated (1 + s.classTables L d) m)

theorem State.PageRoom.of_room {s : State} {L : Layout} {d : SizeClass} {m : ℕ}
    (hroom : Room s.allocated 3 m) (hm : m ≤ 0x80000) : s.PageRoom L d m :=
  ⟨hroom.mono (by norm_num) hm, State.room_newTables hroom⟩

/-- Domain `d` grew by the page at its cursor. -/
structure Expanded (L : Layout) (d : SizeClass) (use : ℕ → Use) (live : ℕ → Option ℕ) (s : State)
    (use' : ℕ → Use) (s' : State) : Prop where
  pages : HeapPages L use' s'
  dom : DomainInv L use' live d s'
  added : ∃ D f s₁, use f = .free ∧ s.FirstFree f ∧
    Added L D ((s.domains d).nextVirtAddr / 4096) f use s use' s₁ ∧
    (∀ g, s'.allocated g = s₁.allocated g) ∧ s'.maps = s₁.maps ∧ s'.stale = s₁.stale ∧
    use D = .dir (.cls d)
  same : SameHeap L use s s'
  head : (s'.domains d).nextFreeBlock = (s.domains d).nextVirtAddr
  cursor : (s'.domains d).nextVirtAddr = (s.domains d).nextVirtAddr + 4096
  others : OtherVars d s s'
  list : ∀ l, FreeList L s d l →
    FreeList L s' d (pageBlocks ((s.domains d).nextVirtAddr / 4096) d.blockSize ++ l)
  spares : Spares use s use' s'

namespace DomainInv

variable {L : Layout} {use : ℕ → Use} {live : ℕ → Option ℕ} {d : SizeClass} {s : State}

/-- The expansion shared by `init_heap_domain` and `heap_domain_alloc`, followed by `k`: a
frame was taken, is mapped at the cursor, its blocks are linked in front of the list, and
the cursor moves past the page. -/
theorem grow {α : Type} {k : Kernel α} {Q : α → State → Prop} {E : State → Prop}
    (h : HeapPages L use s) (hd : DomainInv L use live d s) {f m : ℕ} (hfirst : s.FirstFree f)
    (hf : use f = .free) (hflt : f < 0x80000)
    (hlt : (s.domains d).nextVirtAddr < d.virtBase + 0x10000000)
    (hroom : s.classTables L d ≠ 0 → Room s.allocated (1 + s.classTables L d) m)
    (hm : m ≤ 0x50000) (hk : ∀ use' s', Expanded L d use live s use' s' → Ends k s' Q E)
    (hE : ∀ s', 0x40000 < m → Faulted L ((s.domains d).nextVirtAddr / 4096) s s' → E s') :
    Ends (do
      L.mapPage (s.domains d).pageDirectory (s.domains d).nextVirtAddr (f * 4096) PAGE_KERNEL
      L.mapPage L.kernelPageDir (s.domains d).nextVirtAddr (f * 4096) PAGE_KERNEL
      L.linkBlocks (s.domains d).nextVirtAddr (s.domains d).blockSize
        (s.domains d).blocksPerPage (s.domains d).nextFreeBlock
      modifyDomain d fun r => { r with nextFreeBlock := (s.domains d).nextVirtAddr }
      modifyDomain d fun r => { r with nextVirtAddr := u32 (r.nextVirtAddr + 4096) }
      k) (s.take f) Q E := by
  obtain ⟨D, hD⟩ := hd.home
  have hbase := d.virtBase_bounds
  have hmod := d.virtBase_mod
  have haligned := hd.aligned
  have hge := hd.cursor_ge
  have hdir : (s.domains d).pageDirectory = KERNEL_BASE + D * 4096 := h.dirs (.cls d) D hD (by simp)
  obtain ⟨p, hp⟩ : ∃ p, (s.domains d).nextVirtAddr = p * 4096 :=
    ⟨(s.domains d).nextVirtAddr / 4096, by omega⟩
  have hdiv : (s.domains d).nextVirtAddr / 4096 = p := by omega
  have hlo : 0x10000 ≤ p := by omega
  have hhi : p < 0xC0000 := by omega
  have hhome : homeOf p = .cls d := d.homeOf_page (by omega) (by omega)
  have htables : s.classTables L d = s.newTables L D p := by rw [h.classTables_eq hD, hdiv]
  rw [← hhome] at hD
  have hnew : ¬ Backed use p := fun hb => by
    have := (hd.backed p (by omega) (by omega)).mp hb
    omega
  rw [hdiv] at hE
  rw [htables] at hroom
  rw [hdir, hd.blockSize, hd.perPage, hp]
  obtain ⟨l, hl, hmem⟩ := hd.chain
  refine h.mapBoth hD hf hflt hnew hlo hhi hroom hm (fun use' s₁ hadd => ?_) hE
  have hlpages : ∀ b ∈ l, Backed use (b / 4096) ∧ b / 4096 ≠ p := fun b hb => by
    obtain ⟨hblock, _⟩ := (hmem b).mp hb
    have hbc := hblock.2.1
    exact ⟨(hd.backed_block hblock).1, by omega⟩
  have hchain₁ : Chain (s₁.peek L.dirFrame) 0 (s.domains d).nextFreeBlock l :=
    hl.congr fun b hb => hadd.same b (hlpages b hb).1
  have hhead : (s.domains d).nextFreeBlock < 2 ^ 32 := by
    cases l with
    | nil => rw [hl.of_nil]; norm_num
    | cons b t =>
        have hb := (hmem b).mp List.mem_cons_self
        have hblt := (hd.backed_block hb.1).2
        have hb0 := hl.head_eq
        omega
  have hbs := d.blockSize_ge
  obtain ⟨s₂, hlink, hot, hchain₂⟩ := Layout.linkBlocks_spec hadd.pages
    ((hadd.backed p).mpr (Or.inr rfl)) (by omega) d.blockSize_dvd hchain₁ hhead
    (fun b hb => ⟨(hadd.backed _).mpr (Or.inl (hlpages b hb).1), (hlpages b hb).2⟩)
  refine Ends.bind_ok hlink ?_
  refine Ends.bind_ok (run_modify _ _) ?_
  refine Ends.bind_ok (run_modify _ _) ?_
  have hdom₂ : s₂.domains d = s.domains d :=
    (congrFun hot.vars.domains d).trans (congrFun hadd.grown.vars.domains d)
  set s₃ := s₂.setDomain d (fun r => { r with nextFreeBlock := p * 4096 }) with hs₃
  set s₄ := s₃.setDomain d (fun r => { r with nextVirtAddr := u32 (r.nextVirtAddr + 4096) })
    with hs₄
  have hdom₄ : s₄.domains d =
      { s.domains d with nextFreeBlock := p * 4096, nextVirtAddr := p * 4096 + 4096 } := by
    have hu : u32 (p * 4096 + 4096) = p * 4096 + 4096 := u32_of_lt (by omega)
    rw [hs₄, State.setDomain_self, hs₃, State.setDomain_self, hdom₂]
    simp only [hp, hu]
  have hp₄ : HeapPages L use' s₄ := (hot.pages.setDomain d _ rfl).setDomain d _ rfl
  have hpeek₄ : s₄.peek L.dirFrame = s₂.peek L.dirFrame := rfl
  have hothers : OtherVars d s s₄ :=
    ((hadd.grown.vars.trans hot.vars).other d).trans
      ((OtherVars.setDomain s₂ d _ rfl).trans (OtherVars.setDomain s₃ d _ rfl))
  refine hk use' s₄ ⟨hp₄, ?_, ⟨D, f, s₁, hf, hfirst, by rw [hdiv]; exact hadd,
    fun g => hot.alloc g, hot.maps, hot.stale, hD.trans (by rw [hhome])⟩, fun b hb => ?_, by rw [hdom₄, hp],
    by rw [hdom₄, hp], hothers, fun l' hl' => ?_, ?_⟩
  · exact
      { home := ⟨D, by
          rw [HeapPages.kept_of_grown hf hadd.grown D (by rw [hD]; simp)]; exact hD.trans (by rw [hhome])⟩
        blockSize := by rw [hdom₄]; exact hd.blockSize
        perPage := by rw [hdom₄]; exact hd.perPage
        aligned := by rw [hdom₄]; show (p * 4096 + 4096) % 4096 = 0; omega
        cursor_ge := by rw [hdom₄]; show d.virtBase ≤ p * 4096 + 4096; omega
        cursor_le := by rw [hdom₄]; show p * 4096 + 4096 ≤ d.virtBase + 0x10000000; omega
        backed := fun q h1 h2 => by
          rw [hdom₄, hadd.backed q, hd.backed q h1 h2, hp]
          show q * 4096 < p * 4096 ∨ q = p ↔ q * 4096 < p * 4096 + 4096
          omega
        chain := by
          rw [hdom₄]
          refine ⟨pageBlocks p d.blockSize ++ l, ?_, fun b => ?_⟩
          · exact hchain₂
          · show _ ↔ d.IsBlock (p * 4096 + 4096) b ∧ live b = none
            rw [← hp, List.mem_append, hmem b, SizeClass.isBlock_succ haligned hge, hdiv]
            constructor
            · rintro (hb | ⟨hb, hn⟩)
              · refine ⟨Or.inr hb, ?_⟩
                -- no live block lies beyond the cursor
                rw [mem_pageBlocks (by omega) d.blockSize_dvd] at hb
                cases hlive : live b with
                | none => rfl
                | some n =>
                    have := (hd.live b n hlive (by omega) (by omega)).1.2.1
                    omega
              · exact ⟨Or.inl hb, hn⟩
            · rintro ⟨hb | hb, hn⟩
              · exact Or.inr ⟨hb, hn⟩
              · exact Or.inl hb
        live := fun b n hb h1 h2 => by
          rw [hdom₄]
          show d.IsBlock (p * 4096 + 4096) b ∧ _
          rw [← hp]
          obtain ⟨hblock, hn⟩ := hd.live b n hb h1 h2
          exact ⟨(SizeClass.isBlock_succ haligned hge).mpr (Or.inl hblock), hn⟩ }
  · have hbp : b / 4096 ≠ p := by rintro rfl; exact hnew hb
    rw [hpeek₄, hot.peek b ((hadd.backed _).mpr (Or.inl hb)) hbp, hadd.same b hb]
  · rw [FreeList, hdom₄, hl'.unique hl, hdiv]
    exact hchain₂
  · have hlinks : Spares use' s₁ use' s₄ := ⟨hot.spares.back, hot.spares.words, hot.spares.clean⟩
    exact hadd.grown.spares.trans hlinks

/-! ### `heap_domain_alloc` -/

end DomainInv

/-- What `heap_domain_alloc` changed: nothing but the record of its domain and, when the
list was empty, one new page. -/
structure Popped (L : Layout) (d : SizeClass) (use : ℕ → Use) (live : ℕ → Option ℕ) (s : State)
    (a : ℕ) (use' : ℕ → Use) (s' : State) : Prop where
  fresh : live a = none
  block : d.IsBlock (s'.domains d).nextVirtAddr a
  same : SameHeap L use s s'
  others : OtherVars d s s'
  growth :
    ((s.domains d).nextFreeBlock ≠ 0 ∧ use' = use ∧ (∀ g, s'.allocated g = s.allocated g) ∧
      s'.maps = s.maps ∧ s'.stale = s.stale ∧
      (s'.domains d).nextVirtAddr = (s.domains d).nextVirtAddr) ∨
    ((s.domains d).nextFreeBlock = 0 ∧ ∃ s₁, Expanded L d use live s use' s₁ ∧
      (∀ g, s'.allocated g = s₁.allocated g) ∧ s'.maps = s₁.maps ∧ s'.stale = s₁.stale ∧
      (s'.domains d).nextVirtAddr = (s₁.domains d).nextVirtAddr)
  list : ∀ l, FreeList L s d l →
    ∃ t, nextBlocks d (s.domains d).nextVirtAddr l = a :: t ∧ FreeList L s' d t
  spares : Spares use s use' s'

namespace Popped

variable {L : Layout} {use use' : ℕ → Use} {live : ℕ → Option ℕ} {d : SizeClass} {s s' : State}
  {a : ℕ}

theorem kept (h : Popped L d use live s a use' s') (g : ℕ) (hg : use g ≠ .free) :
    use' g = use g := by
  rcases h.growth with ⟨_, rfl, _⟩ | ⟨_, s₁, hx, _⟩
  · rfl
  · obtain ⟨D, f, s₂, hf, _, hadd, _⟩ := hx.added
    exact HeapPages.kept_of_grown hf hadd.grown g hg

theorem backed_other (h : Popped L d use live s a use' s') (hd : DomainInv L use live d s) {p : ℕ}
    (hp : p * 4096 < d.virtBase ∨ d.virtBase + 0x10000000 ≤ p * 4096) :
    Backed use' p ↔ Backed use p := by
  rcases h.growth with ⟨_, rfl, _⟩ | ⟨_, s₁, hx, _⟩
  · exact Iff.rfl
  · obtain ⟨D, f, s₂, hf, _, hadd, _⟩ := hx.added
    rw [hadd.backed]
    have h1 := hx.dom.cursor_le
    have h2 := hx.cursor
    have h3 := hd.cursor_ge
    have h4 := hd.aligned
    constructor
    · rintro (hb | rfl)
      · exact hb
      · omega
    · exact Or.inl

theorem region (h : Popped L d use live s a use' s') {live' : ℕ → Option ℕ}
    (hd : DomainInv L use' live' d s') : d.virtBase ≤ a ∧ a < d.virtBase + 0x10000000 :=
  ⟨h.block.1, (hd.backed_block h.block).2⟩

end Popped

namespace DomainInv

variable {L : Layout} {use : ℕ → Use} {live : ℕ → Option ℕ} {d : SizeClass} {s : State}

/-- `heap_domain_alloc` keeps the invariant, or stops on a page table beyond 1 GB. -/
theorem alloc (h : HeapPages L use s) (hd : DomainInv L use live d s) {n m : ℕ}
    (hn : n ≤ d.blockSize) (hm : m ≤ 0x50000)
    (hslow : (s.domains d).nextFreeBlock = 0 →
      (s.domains d).nextVirtAddr < d.virtBase + 0x10000000 ∧ s.PageRoom L d m) :
    Ends (L.heapDomainAlloc d) s
      (fun a s' => ∃ use', HeapPages L use' s' ∧
        DomainInv L use' (Function.update live a (some n)) d s' ∧ Popped L d use live s a use' s')
      (fun s' => 0x40000 < m ∧ Faulted L ((s.domains d).nextVirtAddr / 4096) s s') := by
  unfold Layout.heapDomainAlloc
  refine Ends.bind_ok (show getDomain d s = .ok (s.domains d) s from rfl) ?_
  by_cases hne : (s.domains d).nextFreeBlock ≠ 0
  · obtain ⟨next, hload, hfresh, hblock, hpop⟩ := hd.pop h hne hn
    rw [if_pos hne]
    refine Ends.bind_ok hload (Ends.bind_ok (run_modify _ _) (Ends.of_ok rfl ⟨use, ?_, hpop, ?_⟩))
    · exact h.setDomain d _ rfl
    · have hself := s.setDomain_self d fun r => { r with nextFreeBlock := next }
      refine ⟨hfresh, by rw [hself]; exact hblock, fun _ _ => rfl, .setDomain s d _ rfl,
        Or.inl ⟨hne, rfl, fun _ => rfl, rfl, rfl, by rw [hself]⟩, fun l hl => ?_,
        .of_mem rfl rfl fun _ _ => rfl⟩
      obtain ⟨t, rfl, ht⟩ := hl.pop hne (L.load_ok hload).2
      exact ⟨t, if_neg (List.cons_ne_nil _ _), ht⟩
  · obtain ⟨hlt, hpage, hroom⟩ := hslow (not_not.mp hne)
    obtain ⟨f, hfm, hfirst, hf, hf0, hframe⟩ := h.inv.processFrame hpage le_rfl
    rw [if_neg hne]
    refine Ends.bind_ok hframe ?_
    rw [if_neg hf0, ← not_not.mp hne]
    refine hd.grow h hfirst hf (by omega) hlt hroom hm (fun use' s₁ hx => ?_)
      (fun s' h1 h2 => ⟨h1, h2⟩)
    -- the list now starts with the first block of the new page
    have hge := hd.cursor_ge
    have hbase := d.virtBase_bounds
    have hne₁ : (s₁.domains d).nextFreeBlock ≠ 0 := by rw [hx.head]; omega
    obtain ⟨next, hload, hfresh, hblock, hpop⟩ := hx.dom.pop hx.pages hne₁ hn
    rw [hx.head] at hload hfresh hblock hpop
    refine Ends.bind_ok hload (Ends.bind_ok (run_modify _ _) (Ends.of_ok rfl ⟨use', ?_, hpop, ?_⟩))
    · exact hx.pages.setDomain d _ rfl
    · have hself := s₁.setDomain_self d fun r => { r with nextFreeBlock := next }
      refine ⟨hfresh, by rw [hself]; exact hblock, fun b hb => hx.same b hb,
        hx.others.trans (.setDomain s₁ d _ rfl),
        Or.inr ⟨not_not.mp hne, s₁, hx, fun _ => rfl, rfl, rfl, by rw [hself]⟩, fun l hl => ?_,
        hx.spares.trans (.of_mem rfl rfl fun _ _ => rfl)⟩
      obtain ⟨t, ht, hpop'⟩ := (hx.list l hl).pop hne₁ (by rw [hx.head]; exact (L.load_ok hload).2)
      rw [hx.head] at ht
      rw [FreeList, not_not.mp hne] at hl
      obtain rfl := hl.eq_nil
      rw [List.append_nil] at ht
      exact ⟨t, (if_pos rfl).trans ht, hpop'⟩

/-- With an empty free list every block below the cursor is live. -/
theorem blocks_le (h : DomainInv L use live d s)
    (hnil : (s.domains d).nextFreeBlock = 0) {S : Finset ℕ}
    (hS : ∀ p, d.IsBlock (s.domains d).nextVirtAddr p → live p ≠ none → p ∈ S) {n : ℕ}
    (hn : d.virtBase + n * d.blockSize ≤ (s.domains d).nextVirtAddr) : n ≤ S.card := by
  have hpos : 0 < d.blockSize := by cases d <;> simp [SizeClass.blockSize]
  obtain ⟨l, hl, hmem⟩ := h.chain
  rw [hnil] at hl
  have hsub : (Finset.range n).image (fun j => d.virtBase + j * d.blockSize) ⊆ S := by
    intro p hp
    obtain ⟨j, hj, rfl⟩ := Finset.mem_image.mp hp
    have hj := Finset.mem_range.mp hj
    have hle : (j + 1) * d.blockSize ≤ n * d.blockSize := Nat.mul_le_mul_right _ hj
    rw [Nat.succ_mul] at hle
    have hblock : d.IsBlock (s.domains d).nextVirtAddr (d.virtBase + j * d.blockSize) :=
      ⟨Nat.le_add_right _ _, by omega, by rw [Nat.add_sub_cancel_left, Nat.mul_mod_left]⟩
    apply hS _ hblock
    intro hnone
    have hin := (hmem _).mpr ⟨hblock, hnone⟩
    rw [hl.eq_nil] at hin
    cases hin
  have hinj : Function.Injective fun j => d.virtBase + j * d.blockSize := by
    intro i j hij
    have hmul : i * d.blockSize = j * d.blockSize := Nat.add_left_cancel hij
    exact Nat.eq_of_mul_eq_mul_right hpos hmul
  have hcard := Finset.card_le_card hsub
  rwa [Finset.card_image_of_injective _ hinj, Finset.card_range] at hcard

end DomainInv

end RaxzusHeap
