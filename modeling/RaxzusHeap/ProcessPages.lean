import RaxzusHeap.Boot
import RaxzusHeap.Budget
import RaxzusHeap.Process

/-! # The memory of a new process

The frames `create_process` takes for itself: the directory (`makeDirectory`), and the stack
and code pages, which are mapped in that directory only (`mapPrivate`) and filled through the
direct map (`pushWords_ends`, `copyFunction_ends`).  None of this is visible in the heap.

A frame from 1 GB on cannot be reached through the direct map; as long as one below 1.25 GB
is clear, a request for one beyond 1 GB ends in a page fault. -/

namespace RaxzusHeap

open Imperative FirstFit Linked

/-- Only the contents of frame `f` differ. -/
structure OnlyFrame (f : ℕ) (s s' : State) : Prop where
  only : OnlyMem s s'
  mem : ∀ g, g ≠ f → s'.mem g = s.mem g

namespace OnlyFrame

variable {f : ℕ} {s s₁ s₂ : State}

theorem refl (f : ℕ) (s : State) : OnlyFrame f s s := ⟨OnlyMem.refl s, fun _ _ => rfl⟩

theorem trans (h₁ : OnlyFrame f s s₁) (h₂ : OnlyFrame f s₁ s₂) : OnlyFrame f s s₂ :=
  ⟨h₁.only.trans h₂.only, fun g hg => (h₂.mem g hg).trans (h₁.mem g hg)⟩

theorem write (s : State) (f i v : ℕ) : OnlyFrame f s (s.write f i v) :=
  ⟨(OnlyMem.refl s).write f i v, fun _ hg => s.mem_write_ne_frame i v hg⟩

end OnlyFrame

section Heap

variable {L : Layout} {use use' : ℕ → Use} {live ranges : ℕ → Option ℕ} {s s' : State}

/-- The invariant of the heap rests on its pages and records. -/
theorem HeapInv.frame (h : HeapInv L use live ranges s) (hp : HeapPages L use' s')
    (hdirs : ∀ D o, o ≠ .proc → use D = .dir o → use' D = use D)
    (hback : ∀ p, Backed use' p ↔ Backed use p) (hsame : SameHeap L use s s')
    (hdomains : s'.domains = s.domains) (hlarge : s'.large = s.large) :
    HeapInv L use' live ranges s' where
  pages := hp
  dom d := by
    apply (h.dom d).congr (fun D hD => hdirs D _ (by simp) hD) (congrFun hdomains d)
      (fun p _ _ => hback p) _ (fun _ _ _ => rfl)
    intro b hb _
    exact hsame b ((h.dom d).backed_block hb).1
  large := by
    apply h.large.congr (fun D hD => hdirs D _ (by simp) hD) hlarge (fun p _ => hback p) _ _
      (fun _ _ => rfl)
    · intro q N hq
      apply hsame
      rw [Nat.mul_div_cancel q (by norm_num)]
      exact h.large.backed_first hq
    · intro q N hq _
      apply hsame
      rw [show (q * 4096 + 4) / 4096 = q by omega]
      exact h.large.backed_first hq
  heap := h.heap

theorem HeapPages.walk_low (h : HeapPages L use s) {va : ℕ} (hva : va < 0x10000000) :
    s.walk L.dirFrame va = none := by
  apply State.walk_of_pde_none
  cases hpde : s.pde L.dirFrame (va / 2 ^ 22) with
  | none => rfl
  | some t =>
      have htab := (h.inv.pde _ _ (Or.inl rfl) (by omega) t).mp hpde
      have := h.inv.heapTable t _ htab
      omega

theorem wrapped_address {f : ℕ} (h1 : 0x40000 ≤ f) (h2 : f < 0x50000) :
    u32 (f * 4096 + 0xC0000000) = (f - 0x40000) * 4096 := by
  unfold u32
  omega

/-- The contents of a private page are no concern of the heap. -/
theorem HeapInv.onlyFrame (h : HeapInv L use live ranges s) {f d p : ℕ} (hf : use f = .priv d p)
    (ho : OnlyFrame f s s') : HeapInv L use live ranges s' ∧ SameHeap L use s s' := by
  have hmem : ∀ g, use g ≠ .priv d p → s'.mem g = s.mem g := by
    intro g hg
    exact ho.mem g (by rintro rfl; exact hg hf)
  have hinv : PageInv L use s' := by
    apply h.pages.inv.relabel (fun _ _ _ => Iff.rfl) _ h.pages.inv.range _ ho.only.maps
      ho.only.stale h.pages.inv.backed
    · intro g hg
      rw [ho.only.allocated]
      exact h.pages.inv.alloc g hg
    · intro g hg
      apply hmem
      intro hpriv
      rw [hpriv] at hg
      exact hg
  have hp : HeapPages L use s' :=
    { inv := hinv
      dirs := fun o D hD hne => by
        rw [← h.pages.dirs o D hD hne]
        cases o with
        | cls c => exact congrArg (fun r => (r c).pageDirectory) ho.only.domains
        | large => exact congrArg LargeDomain.pageDirectory ho.only.large
        | proc => exact absurd rfl hne
      kernelMap := by rw [ho.only.maps]; exact h.pages.kernelMap
      homeMap := by rw [ho.only.maps]; exact h.pages.homeMap
      owner := by rw [ho.only.maps]; exact h.pages.owner
      priv := h.pages.priv
      region := h.pages.region }
  have hsame : SameHeap L use s s' :=
    h.pages.sameHeap_of_frames hp (fun _ _ hg => hg) fun g q hg => hmem g (by rw [hg]; simp)
  exact ⟨h.frame hp (fun _ _ _ _ => rfl) (fun _ => Iff.rfl) hsame ho.only.domains ho.only.large,
    hsame⟩

/-! ### The directory -/

/-- A new process directory in frame `D`. -/
structure NewDir (L : Layout) (D : ℕ) (use : ℕ → Use) (s s' : State) : Prop where
  low : D < 0x40000
  clear : s.allocated D = false
  free : use D = .free
  same : SameHeap L use s s'
  vars : SameVars s s'
  maps : s'.maps = s.maps
  spares : Spares use s (Function.update use D (.dir .proc)) s'

theorem HeapPages.clearDirectory_fault (h : HeapPages L use s) {D : ℕ} (h1 : 0x40000 ≤ D)
    (h2 : D < 0x50000) : L.clearDirectory (u32 (D * 4096 + 0xC0000000)) (s.take D) =
      .error (.pageFault ((D - 0x40000) * 4096 + 4 * 0)) (s.take D) := by
  rw [wrapped_address h1 h2]
  apply run_bind_error
  apply times_error
  apply L.store_fault
  exact h.walk_low (by omega)

/-- `create_process_page_directory` builds a directory below 1 GB, or stops. -/
theorem HeapInv.makeDirectory (h : HeapInv L use live ranges s) {m : ℕ} (hm : m ≤ 0x50000)
    (hroom : RoomBelow m 1 s) :
    Ends L.createProcessPageDirectory s
      (fun a s' => ∃ D, a = KERNEL_BASE + D * 4096 ∧ NewDir L D use s s' ∧ Spends 1 s s' ∧
        Takes 0x40000 1 s s' ∧
        HeapInv L (Function.update use D (.dir .proc)) live ranges s')
      (fun _ => 0x40000 < m) := by
  obtain ⟨D, hDm, hfirst⟩ := Room.exists_first hroom
  have hfree := h.pages.inv.use_of_clear (by omega) hfirst.1
  have hge : L.kernelFrames ≤ D := by
    by_contra hlt
    rw [h.pages.inv.kernel_of_lt (by omega)] at hfree
    cases hfree
  have htake : L.getNextFreeKernelFrame s = .ok (D * 4096) (s.take D) := by
    rw [L.kernelFrame_eq h.pages.inv.image hfirst (by omega), takeFrame_low (by omega)]
  unfold Layout.createProcessPageDirectory
  apply Ends.bind_ok htake
  by_cases hlow : D < 0x40000
  · obtain ⟨s₁, hrun, hc⟩ := Layout.clearDirectory_spec (L := L) (s := s.take D) (D := D)
      ⟨h.pages.inv.direct.dir, h.pages.inv.direct.table⟩ hlow hge
    rw [direct_address hlow]
    apply Ends.bind_ok hrun
    have hpages : HeapPages L (Function.update use D (.dir .proc)) s₁ :=
      h.pages.addDir hfree hlow hc.only.allocated hc.others hc.zero hc.copied hc.only.maps
        hc.only.stale (fun hne => absurd rfl hne) (fun hne => absurd rfl hne) fun r _ => by
          cases r with
          | cls c => exact congrArg (fun g => (g c).pageDirectory) hc.only.domains
          | large => exact congrArg LargeDomain.pageDirectory hc.only.large
          | proc => rfl
    have hkeep : ∀ f, use f ≠ .free → Function.update use D (.dir .proc) f = use f := fun f hf =>
      Function.update_of_ne (by rintro rfl; exact hf hfree) ..
    have hback : ∀ p, Backed (Function.update use D (.dir .proc)) p ↔ Backed use p := by
      intro p
      constructor
      · rintro ⟨f, hf⟩
        have hfD : f ≠ D := by rintro rfl; rw [Function.update_self] at hf; cases hf
        rw [Function.update_of_ne hfD] at hf
        exact ⟨f, hf⟩
      · rintro ⟨f, hf⟩
        exact ⟨f, by rw [hkeep f (by rw [hf]; simp)]; exact hf⟩
    have hsame : SameHeap L use s s₁ :=
      h.pages.sameHeap_of_frames hpages
        (fun f p hf => by rw [hkeep f (by rw [hf]; simp)]; exact hf)
        (fun f p hf => hc.others f (by rintro rfl; rw [hfree] at hf; cases hf))
    refine Ends.of_ok rfl ⟨D, rfl, ⟨hlow, hfirst.1, hfree, hsame, ?_, hc.only.maps,
      .take hfree (by simp) (by simp) hc.only.maps hc.only.stale hc.others⟩, ?_, ?_, ?_⟩
    · exact ⟨hc.only.domains, hc.only.large, hc.only.currentIndex, hc.only.processLists⟩
    · exact (Spends.take s D).same hc.only.allocated
    · exact (Takes.take hfirst.1 hlow).same hc.only.allocated
    · exact h.frame hpages (fun c o _ hc => hkeep c (by rw [hc]; simp)) hback hsame
        hc.only.domains hc.only.large
  · have hfault := h.pages.clearDirectory_fault (D := D) (by omega) (by omega)
    exact Ends.of_error (run_bind_error hfault) (by omega)

/-! ### Private pages -/

/-- Frame `f` was taken for page `p` of directory `D` and mapped there, with entry `e`. -/
structure NewPage (L : Layout) (D p f e : ℕ) (use : ℕ → Use) (s : State) (use' : ℕ → Use)
    (s' : State) : Prop where
  clear : s.allocated f = false
  free : use f = .free
  label : use' f = .priv D p
  kept : ∀ g, use g ≠ .free → use' g = use g
  dirs : ∀ g o, use' g = .dir o ↔ use g = .dir o
  pages : ∀ g q, use' g = .page q ↔ use g = .page q
  tables : ∀ t d i, use' t = .table d i → use t = .table d i ∨ (d = D ∧ i = p / 1024)
  maps : ∀ c q, s'.maps c q = if c = D ∧ q = p then some e else s.maps c q
  same : SameHeap L use s s'
  vars : SameVars s s'
  spares : Spares use s use' s'

/-- The labels after a private page is mapped. -/
theorem HeapInv.newPage (h : HeapInv L use live ranges s) {D p f e : ℕ} {s₁ : State}
    (hD : use D = .dir .proc) (hf : use f = .free) (hclear : s.allocated f = false)
    (hmap : Mapped (Function.update use f (.priv D p)) (s.take f) D p e use' s₁)
    (hinv : PageInv L use' s₁) (he : e / 4096 = f)
    (hext : Extends (Function.update use f (.priv D p)) use') :
    HeapInv L use' live ranges s₁ ∧ NewPage L D p f e use s use' s₁ := by
  have hkept : ∀ g, use g ≠ .free → use' g = use g := by
    intro g hg
    have hgf : g ≠ f := by rintro rfl; exact hg hf
    rw [hext.kept g (by rw [Function.update_of_ne hgf]; exact hg), Function.update_of_ne hgf]
  have hiff : ∀ g v, v ≠ .free → (∀ d i, v ≠ .table d i) → v ≠ .priv D p →
      (use' g = v ↔ use g = v) := by
    intro g v hv hvt hvp
    rw [hext.iff hv hvt g]
    by_cases hgf : g = f
    · rw [hgf, Function.update_self, hf]
      exact ⟨fun heq => absurd heq.symm hvp, fun heq => absurd heq.symm hv⟩
    · rw [Function.update_of_ne hgf]
  have hpage : ∀ g q, use' g = .page q ↔ use g = .page q := fun g q =>
    hiff g _ (by simp) (by simp) (by simp)
  have hdir : ∀ g o, use' g = .dir o ↔ use g = .dir o := fun g o =>
    hiff g _ (by simp) (by simp) (by simp)
  have hlabel : use' f = .priv D p := by
    rw [hext.kept f (by rw [Function.update_self]; simp), Function.update_self]
  have hDK : D ≠ L.dirFrame := by
    rintro rfl
    rw [h.pages.inv.use_dirFrame] at hD
    cases hD
  have hmaps : ∀ c, c ≠ D → ∀ q, s₁.maps c q = s.maps c q := by
    intro c hc q
    rw [hmap.maps, if_neg (fun hcq => hc hcq.1)]
    rfl
  have hpages : HeapPages L use' s₁ :=
    { inv := hinv
      dirs := fun o c hc ho => by
        have hold := h.pages.dirs o c ((hdir c o).mp hc) ho
        cases o with
        | cls d => rw [← hold]; exact congrArg (fun r => (r d).pageDirectory) hmap.vars.domains
        | large => rw [← hold]; exact congrArg LargeDomain.pageDirectory hmap.vars.large
        | proc => exact absurd rfl ho
      kernelMap := fun g q hg => by
        rw [hmaps _ hDK.symm]
        exact h.pages.kernelMap g q ((hpage g q).mp hg)
      homeMap := fun g q hg => by
        obtain ⟨c, hc, hm⟩ := h.pages.homeMap g q ((hpage g q).mp hg)
        refine ⟨c, (hdir c _).mpr hc, ?_⟩
        rw [hmaps c ?_]
        · exact hm
        · rintro rfl
          rw [hD] at hc
          injection hc with ho
          exact homeOf_ne_proc q ho.symm
      owner := fun c q e' hm hq => by
        by_cases hc : c = D ∧ q = p
        · rw [hmap.maps, if_pos hc] at hm
          cases hm
          rw [he, hlabel] at hq
          cases hq
        · rw [hmap.maps, if_neg hc] at hm
          cases h.pages.owner c q e' hm ((hpage _ q).mp hq) with
          | inl hK => exact Or.inl hK
          | inr hc => exact Or.inr ((hdir c _).mpr hc)
      priv := fun g c q hg => by
        rw [hdir]
        by_cases hnew : Use.priv c q = .priv D p
        · cases hnew
          exact hD
        · rw [hiff g _ (by simp) (by simp) hnew] at hg
          exact h.pages.priv g c q hg
      region := fun g q hg => h.pages.region g q ((hpage g q).mp hg) }
  have hsame : SameHeap L use s s₁ := by
    apply h.pages.sameHeap_of_frames hpages (fun g q hg => (hpage g q).mpr hg)
    intro g q hg
    have hgf : g ≠ f := by rintro rfl; rw [hf] at hg; cases hg
    rw [hmap.data g (by rw [Function.update_of_ne hgf, hg]; trivial)]
    rfl
  have htake : Spares use s (Function.update use f (.priv D p)) (s.take f) :=
    .take hf (by simp) (by simp) rfl rfl fun _ _ => rfl
  refine ⟨h.frame hpages (fun c o _ hc => hkept c (by rw [hc]; simp)) (fun q => ?_) hsame
    hmap.vars.domains hmap.vars.large, hclear, hf, hlabel, hkept, hdir, hpage, fun t d i ht => ?_,
    hmap.maps, hsame, (SameVars.take s f).trans hmap.vars, htake.trans hmap.spares⟩
  · unfold Backed
    simp only [hpage]
  · cases hmap.table.label ht with
    | inl hold =>
        have htf : t ≠ f := by rintro rfl; rw [Function.update_self] at hold; cases hold
        rw [Function.update_of_ne htf] at hold
        exact Or.inl hold
    | inr hnew => exact Or.inr hnew

/-- `map_page` of a private page installs it, or stops on a page table beyond 1 GB. -/
theorem HeapInv.mapPrivate (h : HeapInv L use live ranges s) {D p f fl m : ℕ}
    (hD : use D = .dir .proc) (hf : use f = .free) (hfirst : s.FirstFree f) (hflt : f < 0x80000)
    (hp : p < 0xC0000) (hfl : fl < 4096) (hodd : fl % 2 = 1) (hroom : RoomBelow m 2 s)
    (hm : m ≤ 0x50000) :
    Ends (L.mapPage (KERNEL_BASE + D * 4096) (p * 4096) (f * 4096) fl) (s.take f)
      (fun _ s' => ∃ use', HeapInv L use' live ranges s' ∧
        NewPage L D p f (f * 4096 + fl) use s use' s' ∧ Spends 2 s s' ∧
        ((∀ t, use t ≠ .table D (p / 1024)) → f < 0x40000 → Takes 0x40000 2 s s'))
      (fun _ => 0x40000 < m) := by
  have h₀ := h.pages.inv.takeData (u := .priv D p) hf hflt trivial
  have hDf : D ≠ f := by rintro rfl; rw [hD] at hf; cases hf
  have hDK : D ≠ L.dirFrame := by
    rintro rfl
    rw [h.pages.inv.use_dirFrame] at hD
    cases hD
  have hdir : L.IsDir (Function.update use f (.priv D p)) D :=
    Or.inr ⟨.proc, by rw [Function.update_of_ne hDf]; exact hD⟩
  have hroom₀ : RoomBelow m 1 (s.take f) := Room.take hroom fun g => s.allocated_take f g
  have hmap := Layout.mapPage_ends h₀ hdir hp (fun e => absurd e hDK)
    (Or.inr (Function.update_self ..)) hfl hodd (fun _ => hroom₀) hm
  apply hmap.mono
  · rintro _ s₁ ⟨use₁, hmapped, hinv⟩
    obtain ⟨h₁, hnew⟩ := h.newPage hD hf hfirst.1 hmapped hinv (by omega) (hmapped.table.extends L h₀)
    refine ⟨use₁, h₁, hnew, (Spends.take s f).trans hmapped.table.spends, fun hnone hlow => ?_⟩
    have htake : Takes 0x40000 1 s (s.take f) := Takes.take hfirst.1 hlow
    cases hmapped.table with
    | @found t ht _ _ =>
        have htf : t ≠ f := by rintro rfl; rw [Function.update_self] at ht; cases ht
        rw [Function.update_of_ne htf] at ht
        exact absurd ht (hnone t)
    | taken _ hfirst' hlt _ ha => exact htake.trans ((Takes.take hfirst'.1 hlt).same ha)
  · rintro s₁ ⟨hlt, -⟩
    exact hlt

/-! ### Filling a private page -/

/-- The words pushed on a stack page; `k` words are left below the stack pointer. -/
theorem Layout.pushWords_ok (h : HeapInv L use live ranges s) {f d p : ℕ} (hf : use f = .priv d p)
    (hlow : f < 0x40000) (ws : List ℕ) {k : ℕ} (hk : k + ws.length ≤ 1024) :
    ∃ s', L.pushWords ws (u32 (KERNEL_BASE + f * 4096 + 4 * (k + ws.length))) s =
      .ok (u32 (KERNEL_BASE + f * 4096 + 4 * k)) s' ∧ OnlyFrame f s s' := by
  induction ws generalizing s with
  | nil => exact ⟨s, rfl, OnlyFrame.refl f s⟩
  | cons w ws ih =>
      have hlen : k + (w :: ws).length = k + ws.length + 1 := rfl
      rw [hlen] at hk ⊢
      have hsp : u32Sub (u32 (KERNEL_BASE + f * 4096 + 4 * (k + ws.length + 1))) 4 =
          KERNEL_BASE + f * 4096 + 4 * (k + ws.length) := by
        unfold u32Sub u32 KERNEL_BASE
        omega
      have hlt : k + ws.length < 1024 := by omega
      have hstore := h.pages.inv.direct.store_direct w hlow hlt
      have ho := OnlyFrame.write s f (k + ws.length) w
      obtain ⟨s', hrun, ho'⟩ := ih (h.onlyFrame hf ho).1 (by omega)
      refine ⟨s', ?_, ho.trans ho'⟩
      unfold Layout.pushWords
      simp only [hsp]
      rw [run_bind_ok hstore, ← hrun, u32_of_lt (by unfold KERNEL_BASE; omega)]

theorem Layout.pushWords_fault (h : HeapPages L use s) {f w : ℕ} (ws : List ℕ)
    (h1 : 0x40000 ≤ f) (h2 : f < 0x50000) :
    ∃ e, L.pushWords (w :: ws) (u32 (u32 (f * 4096 + 0xC0000000) + 4096)) s = .error e s := by
  rw [wrapped_address h1 h2, u32_of_lt (by omega)]
  have hsp : u32Sub ((f - 0x40000) * 4096 + 4096) 4 = (f - 0x40000) * 4096 + 4092 := by
    unfold u32Sub
    omega
  refine ⟨.pageFault ((f - 0x40000) * 4096 + 4092), ?_⟩
  unfold Layout.pushWords
  simp only [hsp]
  exact run_bind_error (L.store_fault w (h.walk_low (by omega)))

/-- Pushing on a new stack writes the stack page, or stops when it is beyond 1 GB. -/
theorem Layout.pushWords_ends (h : HeapInv L use live ranges s) {f d p : ℕ}
    (hf : use f = .priv d p) (hlt : f < 0x50000) {ws : List ℕ} (hne : ws ≠ [])
    (hlen : ws.length ≤ 1024) :
    Ends (L.pushWords ws (u32 (u32 (f * 4096 + 0xC0000000) + PROC_STACK_SIZE))) s
      (fun sp s' => f < 0x40000 ∧ OnlyFrame f s s' ∧
        sp = KERNEL_BASE + f * 4096 + (4096 - 4 * ws.length))
      (fun _ => 0x40000 ≤ f) := by
  unfold PROC_STACK_SIZE
  have hpos : 0 < ws.length := List.length_pos_iff.mpr hne
  by_cases hlow : f < 0x40000
  · obtain ⟨s', hrun, ho⟩ := Layout.pushWords_ok (k := 1024 - ws.length) h hf hlow ws (by omega)
    rw [show 4 * (1024 - ws.length + ws.length) = 4096 by omega] at hrun
    rw [direct_address hlow]
    refine Ends.of_ok hrun ⟨hlow, ho, ?_⟩
    rw [u32_of_lt (by unfold KERNEL_BASE; omega)]
    omega
  · obtain ⟨w, ws, rfl⟩ := List.exists_cons_of_ne_nil hne
    obtain ⟨e, hrun⟩ := Layout.pushWords_fault h.pages ws (w := w) (by omega) hlt
    exact Ends.of_error hrun (by omega)

/-- Code of the kernel lies in the direct map. -/
def KernelCode (func : ℕ) : Prop := KERNEL_BASE ≤ func ∧ func + 4096 ≤ 2 ^ 32

theorem Layout.DirectMap.loadByte_ok (h : L.DirectMap s) {va : ℕ} (h1 : KERNEL_BASE ≤ va)
    (h2 : va < 2 ^ 32) : ∃ b, L.loadByte va s = .ok b s := by
  have hva : KERNEL_BASE + (va - KERNEL_BASE) / 4096 * 4096 + va % 4096 = va := by
    unfold KERNEL_BASE at h1 ⊢
    omega
  have hwalk := h.walk (f := (va - KERNEL_BASE) / 4096) (by unfold KERNEL_BASE at h1 ⊢; omega)
    (Nat.mod_lt va (show 0 < 4096 by norm_num))
  rw [hva] at hwalk
  exact ⟨_, by rw [Layout.loadByte, run_bind_ok (L.load_of_walk hwalk)]; rfl⟩

theorem Layout.DirectMap.storeByte_ok (h : L.DirectMap s) {f off b : ℕ} (hf : f < 0x40000)
    (hoff : off < 4096) :
    ∃ s', L.storeByte (KERNEL_BASE + f * 4096 + off) b s = .ok () s' ∧ OnlyFrame f s s' := by
  have hwalk := h.walk hf hoff
  have hframe : (f * 4096 + 0x103) / 4096 = f := by omega
  have hload := L.load_of_walk hwalk
  generalize (s.mem ((f * 4096 + 0x103) / 4096)
    ((KERNEL_BASE + f * 4096 + off) % 4096 / 4)).toNat = w at hload
  have hstore := L.store_of_walk (setByte w ((KERNEL_BASE + f * 4096 + off) % 4) b) hwalk
  rw [hframe] at hstore
  refine ⟨_, (run_bind_ok hload).trans hstore, OnlyFrame.write s f _ _⟩

theorem Layout.storeByte_fault {va b : ℕ} (h : s.walk L.dirFrame va = none) :
    L.storeByte va b s = .error (.pageFault va) s :=
  run_bind_error (L.load_fault h)

/-- The copy fills the code page; it stops when the page is beyond 1 GB or the function is
not there to read. -/
theorem Layout.copyFunction_ends (h : HeapInv L use live ranges s) {f d p : ℕ}
    (hf : use f = .priv d p) (hlt : f < 0x50000) (func : ℕ) :
    Ends (L.copyFunction (f * 4096) func) s (fun _ s' => f < 0x40000 ∧ OnlyFrame f s s')
      (fun _ => 0x40000 ≤ f ∨ ¬ KernelCode func) := by
  have hread : ∀ i < 4096, ∀ t, OnlyFrame f s t →
      (∃ b, L.loadByte (u32 (func + i)) t = .ok b t) ∨
        (¬ KernelCode func ∧ ∃ e, L.loadByte (u32 (func + i)) t = .error e t) := by
    intro i hi t ht
    by_cases hcode : KernelCode func
    · obtain ⟨h1, h2⟩ := hcode
      have hva : u32 (func + i) = func + i := u32_of_lt (by omega)
      rw [hva]
      exact Or.inl ((h.onlyFrame hf ht).1.pages.inv.direct.loadByte_ok (by omega) (by omega))
    · cases hpeek : t.peek L.dirFrame (u32 (func + i)) with
      | some w =>
          refine Or.inl ⟨byteOf w (u32 (func + i) % 4), ?_⟩
          rw [Layout.loadByte, run_bind_ok (L.load_of_peek hpeek)]
          rfl
      | none =>
          refine Or.inr ⟨hcode, .pageFault (u32 (func + i)), run_bind_error ?_⟩
          simp only [Layout.load, hpeek]
  have hturn : ∀ i t, i < 4096 → OnlyFrame f s t →
      Ends (do
        let b ← L.loadByte (u32 (func + i))
        L.storeByte (u32 (u32 (f * 4096 + 0xC0000000) + i)) b : Kernel Unit) t
        (fun _ t' => f < 0x40000 ∧ OnlyFrame f s t') (fun _ => 0x40000 ≤ f ∨ ¬ KernelCode func) := by
    intro i t hi ht
    cases hread i hi t ht with
    | inr hbad =>
        obtain ⟨hcode, e, hr⟩ := hbad
        exact Ends.of_error (run_bind_error hr) (Or.inr hcode)
    | inl hgood =>
        obtain ⟨b, hr⟩ := hgood
        have h' := (h.onlyFrame hf ht).1
        apply Ends.bind_ok hr
        by_cases hlow : f < 0x40000
        · obtain ⟨t', hs, ho⟩ := h'.pages.inv.direct.storeByte_ok (b := b) hlow hi
          rw [direct_address hlow, u32_of_lt (by unfold KERNEL_BASE; omega)]
          exact Ends.of_ok hs ⟨hlow, ht.trans ho⟩
        · rw [wrapped_address (by omega) hlt, u32_of_lt (by omega)]
          refine Ends.of_error (Layout.storeByte_fault (h'.pages.walk_low (by omega))) ?_
          exact Or.inl (by omega)
  unfold Layout.copyFunction
  refine Ends.mono (Ends.times (fun i t => (0 < i → f < 0x40000) ∧ OnlyFrame f s t)
    ⟨fun h0 => absurd h0 (lt_irrefl 0), OnlyFrame.refl f s⟩ fun i t hi ht => ?_) ?_ (fun _ ht => ht)
  · exact (hturn i t hi ht.2).mono (fun _ t' ht' => ⟨fun _ => ht'.1, ht'.2⟩) (fun _ ht' => ht')
  · rintro _ t ⟨hlow, ho⟩
    exact ⟨hlow (by norm_num), ho⟩

end Heap

end RaxzusHeap
