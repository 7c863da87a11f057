import RaxzusHeap.Limits

/-! # Coherent double mapping

Each page of the heap is seen through the directory of its domain and through the kernel
directory.  In every run within the limits both walks find the same entry, frames are not
shared, are marked in the bitmap, and are no part of the paging structures themselves
(`double_mapping_coherent`). -/

namespace RaxzusHeap

open Imperative FirstFit

/-- The frame of the directory of a domain. -/
def State.dirOf (s : State) (o : Owner) : ℕ := (s.dirAddr o - KERNEL_BASE) / 4096

/-- Page `p` is in use by domain `o`: below the cursor of a size class, or in a live
allocation of the large domain, whose header counts its pages. -/
inductive HeapPage (L : Layout) (live : ℕ → Option ℕ) (s : State) : Owner → ℕ → Prop
  | cls {d : SizeClass} {p : ℕ} (h1 : d.virtBase ≤ p * 4096)
      (h2 : p * 4096 < (s.domains d).nextVirtAddr) : HeapPage L live s (.cls d) p
  | large {b n N p : ℕ} (hlive : live b = some n) (hb : 0x80000000 ≤ b)
      (hN : s.peek L.dirFrame (b - 4) = some N) (h1 : (b - 4) / 4096 ≤ p)
      (h2 : p < (b - 4) / 4096 + N) : HeapPage L live s .large p

/-- The kernel directory and the directories of the eight domains. -/
def IsDirectory (L : Layout) (s : State) (D : ℕ) : Prop :=
  D = L.dirFrame ∨ ∃ o, o ≠ .proc ∧ D = s.dirOf o

/-- A directory, or a page table that an entry of a directory points to. -/
def PagingFrame (L : Layout) (s : State) (f : ℕ) : Prop :=
  IsDirectory L s f ∨ ∃ D i, IsDirectory L s D ∧ i < 1024 ∧ s.pde D i = some f

namespace HeapInv

variable {L : Layout} {use : ℕ → Use} {live ranges : ℕ → Option ℕ} {s : State}

theorem home (h : HeapInv L use live ranges s) {o : Owner} (ho : o ≠ .proc) :
    use (s.dirOf o) = .dir o := by
  have hdir : ∃ D, use D = .dir o := by
    cases o with
    | cls d => exact (h.dom d).home
    | large => exact h.large.home
    | proc => exact absurd rfl ho
  obtain ⟨D, hD⟩ := hdir
  have haddr := h.pages.dirs o D hD ho
  unfold State.dirOf
  rw [haddr, Nat.add_sub_cancel_left, Nat.mul_div_cancel D (by norm_num)]
  exact hD

theorem isDir (h : HeapInv L use live ranges s) {D : ℕ} (hD : IsDirectory L s D) :
    L.IsDir use D := by
  cases hD with
  | inl hK => exact Or.inl hK
  | inr ho =>
      obtain ⟨o, ho, rfl⟩ := ho
      exact Or.inr ⟨o, h.home ho⟩

/-- Paging is made of structural frames. -/
theorem structural (h : HeapInv L use live ranges s) {f : ℕ} (hf : PagingFrame L s f) :
    (use f).Structural := by
  cases hf with
  | inl hdir => exact h.pages.inv.structural_of_isDir (h.isDir hdir)
  | inr htab =>
      obtain ⟨D, i, hD, hi, hpde⟩ := htab
      have hdir := h.isDir hD
      by_cases hlow : i < 768
      · rw [(h.pages.inv.pde D i hdir hlow f).mp hpde]
        trivial
      · -- the kernel half of every directory points to the reserved tables
        have hentry : (s.mem D i).toNat = (L.dirFrame + 2 + (i - 768)) * 4096 + 3 := by
          rw [← h.pages.inv.direct.dir (i - 768) (by omega)]
          rw [show 768 + (i - 768) = i by omega]
          cases hdir with
          | inl hK => rw [hK]
          | inr ho =>
              obtain ⟨o, ho⟩ := ho
              have hhalf := h.pages.inv.half D o ho (i - 768) (by omega)
              rw [show 768 + (i - 768) = i by omega] at hhalf
              rw [hhalf]
        have hf := (State.pde_eq_some_iff.mp hpde).2
        rw [hentry] at hf
        have hframe : f = L.dirFrame + 2 + (i - 768) := by omega
        rw [hframe, h.pages.inv.use_reserved (by omega)]
        trivial

theorem heapPage (h : HeapInv L use live ranges s) {o : Owner} {p : ℕ}
    (hp : HeapPage L live s o p) : Backed use p ∧ homeOf p = o ∧ o ≠ .proc := by
  cases hp with
  | @cls d _ h1 h2 =>
      have hle := (h.dom d).cursor_le
      exact ⟨((h.dom d).backed p h1 (by omega)).mpr h2, d.homeOf_page h1 (by omega), by simp⟩
  | @large b n N _ hlive hb hN h1 h2 =>
      obtain ⟨hmod, A, hA, _, hpeek⟩ := h.large.header b n hlive hb
      have hstart : b - 4 = b / 4096 * 4096 := by omega
      have hq : (b - 4) / 4096 = b / 4096 := by omega
      rw [hstart, hpeek] at hN
      cases hN
      rw [hq] at h1 h2
      have hlo := (h.large.within _ N hA).1
      refine ⟨(h.large.backed p (by omega)).mpr ⟨b / 4096, N, hA, h1, ?_⟩,
        homeOf_large (by omega), by simp⟩
      rw [held_live (n := n) (by rw [show b / 4096 * 4096 + 4 = b by omega]; exact hlive)]
      exact h2

end HeapInv

section Runs

variable {L : Layout} {live : ℕ → Option ℕ} {s : State}

/-- Within the limits of memory, every page in use is mapped in the directory of its domain
and in the kernel directory, to the same frame and for the kernel; the frame is marked, is
no directory and no page table, and backs no other page in use.  A live large allocation has
pages for all its bytes. -/
theorem double_mapping_coherent (run : HeapRun L (WithinLimits L) live s) :
    (∀ o p, HeapPage L live s o p → ∃ f,
      s.walk (s.dirOf o) (p * 4096) = some (f * 4096 ||| PAGE_KERNEL) ∧
      s.walk L.dirFrame (p * 4096) = some (f * 4096 ||| PAGE_KERNEL) ∧
      s.allocated f = true ∧ ¬ PagingFrame L s f) ∧
    (∀ o p o' p' f, HeapPage L live s o p → HeapPage L live s o' p' →
      s.walk L.dirFrame (p * 4096) = some (f * 4096 ||| PAGE_KERNEL) →
      s.walk L.dirFrame (p' * 4096) = some (f * 4096 ||| PAGE_KERNEL) → p = p') ∧
    ∀ b n, live b = some n → 0x80000000 ≤ b →
      ∃ N, s.peek L.dirFrame (b - 4) = some N ∧ n + 4 ≤ 4096 * N := by
  have hb := run.withinLimits
  obtain ⟨use, ranges, h⟩ := hb.heap
  have hentry : ∀ f, f * 4096 ||| PAGE_KERNEL = f * 4096 + 3 := fun f => frame_or f (by decide)
  have hkernel : ∀ o p, HeapPage L live s o p → ∃ f, use f = .page p ∧
      s.walk L.dirFrame (p * 4096) = some (f * 4096 + 3) := by
    intro o p hp
    obtain ⟨⟨f, hf⟩, _⟩ := h.heapPage hp
    exact ⟨f, hf, h.pages.inv.walk_page (h.pages.kernelMap f p hf)⟩
  refine ⟨?_, ?_, ?_⟩
  · intro o p hp
    obtain ⟨⟨f, hf⟩, hhome, ho⟩ := h.heapPage hp
    obtain ⟨D, hD, hm⟩ := h.pages.homeMap f p hf
    rw [hhome] at hD
    have hdir : s.dirOf o = D := h.pages.dir_unique (h.home ho) hD ho
    have hlt := h.pages.inv.range f (by rw [hf]; simp)
    refine ⟨f, ?_, ?_, ?_, ?_⟩
    · rw [hentry, hdir]
      exact h.pages.inv.walk_page hm
    · rw [hentry]
      exact h.pages.inv.walk_page (h.pages.kernelMap f p hf)
    · exact (h.pages.inv.alloc f (by omega)).mpr (by rw [hf]; simp)
    · intro hpaging
      have hstruct := h.structural hpaging
      rw [hf] at hstruct
      exact hstruct
  · intro o p o' p' f hp hp' hw hw'
    obtain ⟨g, hg, hwg⟩ := hkernel o p hp
    obtain ⟨g', hg', hwg'⟩ := hkernel o' p' hp'
    rw [hwg, hentry] at hw
    rw [hwg', hentry] at hw'
    have h1 := Option.some.inj hw
    have h2 := Option.some.inj hw'
    have hgg : g = g' := by omega
    rw [← hgg, hg] at hg'
    cases hg'
    rfl
  · intro b n hlive hge
    obtain ⟨hmod, N, _, hn, hpeek⟩ := h.large.header b n hlive hge
    exact ⟨N, by rw [show b - 4 = b / 4096 * 4096 by omega]; exact hpeek, hn (hb.fit b n hlive)⟩

end Runs

/-- The first page of `heap_64` after the first call. -/
theorem double_mapping_coherent_heap64 :
    ∃ s p s₁ f, Layout.lowest.boot (State.powerOn fun _ _ => 0) = .ok () s ∧
      Layout.lowest.kmalloc 64 s = .ok p s₁ ∧
      s₁.walk (s₁.dirOf (.cls .heap64)) (0x10000 * 4096) = some (f * 4096 ||| PAGE_KERNEL) ∧
      s₁.walk Layout.lowest.dirFrame (0x10000 * 4096) = some (f * 4096 ||| PAGE_KERNEL) := by
  obtain ⟨use, m, s, hboot, hb⟩ := Layout.lowest.boot_spec fun _ _ => 0
  obtain ⟨p, s₁, hr, run, hcursor⟩ := hb.kmalloc_run hboot
  have hpage : HeapPage Layout.lowest (Function.update noLive p (some 64)) s₁ (.cls .heap64)
      0x10000 := by
    apply HeapPage.cls
    · simp only [SizeClass.virtBase]
      omega
    · rw [hcursor]
      simp only [SizeClass.virtBase]
      omega
  obtain ⟨f, h1, h2, _⟩ := (double_mapping_coherent run).1 _ _ hpage
  exact ⟨s, p, s₁, f, hboot, hr, h1, h2⟩

end RaxzusHeap
