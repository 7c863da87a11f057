import RaxzusHeap.HeapPages

/-! # `init_paging` and new directories

`init_paging` zeroes the kernel directory and fills the 256 reserved page tables with the
direct map (`initPaging_spec`); with the frames of the image marked by `init_pmm` that is
the first state in which `HeapPages` holds (`HeapPages.initial`).  `clearDirectory_spec` is
the zeroing and copying loop that every later directory goes through. -/

namespace RaxzusHeap

open Imperative

/-- The states differ in the contents of memory only. -/
structure OnlyMem (s t : State) : Prop where
  bitmap : t.bitmap = s.bitmap
  domains : t.domains = s.domains
  large : t.large = s.large
  currentIndex : t.currentIndex = s.currentIndex
  processLists : t.processLists = s.processLists
  maps : t.maps = s.maps
  stale : t.stale = s.stale

theorem OnlyMem.refl (s : State) : OnlyMem s s := ⟨rfl, rfl, rfl, rfl, rfl, rfl, rfl⟩

theorem OnlyMem.write {s t : State} (h : OnlyMem s t) (f i v : ℕ) : OnlyMem s (t.write f i v) :=
  ⟨h.bitmap, h.domains, h.large, h.currentIndex, h.processLists, h.maps, h.stale⟩

theorem OnlyMem.allocated {s t : State} (h : OnlyMem s t) (g : ℕ) :
    t.allocated g = s.allocated g := by
  unfold State.allocated
  rw [h.bitmap]

theorem OnlyMem.trans {s t u : State} (h : OnlyMem s t) (h' : OnlyMem t u) : OnlyMem s u :=
  ⟨h'.bitmap.trans h.bitmap, h'.domains.trans h.domains, h'.large.trans h.large,
    h'.currentIndex.trans h.currentIndex, h'.processLists.trans h.processLists,
    h'.maps.trans h.maps, h'.stale.trans h.stale⟩

theorem toNat_ofNat_word {v : ℕ} (h : v < 2 ^ 32) : (BitVec.ofNat 32 v : Word).toNat = v := by
  rw [BitVec.toNat_ofNat, Nat.mod_eq_of_lt h]

/-! ### `init_paging` -/

theorem bootStore_run {f i : ℕ} (v : ℕ) (hf : f < 1024) (hi : i < 1024) (s : State) :
    bootStore (KERNEL_BASE + f * 4096 + 4 * i) v s = .ok () (s.write f i v) := by
  have h1 : (KERNEL_BASE + f * 4096 + 4 * i - KERNEL_BASE) / 4096 = f := by
    unfold KERNEL_BASE; omega
  have h2 : (KERNEL_BASE + f * 4096 + 4 * i) % 4096 / 4 = i := by unfold KERNEL_BASE; omega
  unfold bootStore
  rw [if_pos (by unfold KERNEL_BASE; omega), h1, h2]

theorem Layout.kernelPageDir_eq (L : Layout) :
    L.kernelPageDir = KERNEL_BASE + L.dirFrame * 4096 := rfl

theorem Layout.setupEntries_spec (L : Layout) (s : State) :
    ∃ s', L.setupEntries s = .ok () s' ∧ OnlyMem s s' ∧
      ∀ i < 1024, (s'.mem L.dirFrame i).toNat = 0 := by
  have hhigh := L.high
  obtain ⟨s', hrun, hmem, hzero⟩ := times_rule
    (fun i => (do
      bootStore (L.kernelPageDir + 4 * i) 0
      bootStore (L.kernelPageTable + 4 * i) 0 : Kernel Unit))
    (fun i t => OnlyMem s t ∧ ∀ j < i, (t.mem L.dirFrame j).toNat = 0) (n := 1024)
    ⟨OnlyMem.refl s, fun j hj => absurd hj (Nat.not_lt_zero j)⟩
    (fun i t hi ⟨hm, hz⟩ => by
      have htab : L.kernelPageTable = KERNEL_BASE + (L.dirFrame + 1) * 4096 := by
        unfold Layout.kernelPageTable Layout.kernelPageDir; omega
      refine ⟨(t.write L.dirFrame i 0).write (L.dirFrame + 1) i 0, ?_,
        (hm.write _ _ _).write _ _ _, fun j hj => ?_⟩
      · rw [L.kernelPageDir_eq, run_bind_ok (bootStore_run 0 (by omega) hi t), htab]
        exact bootStore_run 0 (by omega) hi _
      · rw [State.mem_write_ne_frame _ _ _ (show L.dirFrame ≠ L.dirFrame + 1 by omega)]
        by_cases hji : j = i
        · rw [hji, State.mem_write_same]; rfl
        · rw [State.mem_write_ne_index _ _ _ _ hji]
          exact hz j (by omega))
  exact ⟨s', hrun, hmem, hzero⟩

/-- The direct map after its first `i` pages. -/
structure MappedUpTo (L : Layout) (i : ℕ) (s t : State) : Prop where
  only : OnlyMem s t
  low : ∀ j < 768, (t.mem L.dirFrame j).toNat = 0
  dir : ∀ j, j * 1024 < i → (t.mem L.dirFrame (768 + j)).toNat = (L.dirFrame + 2 + j) * 4096 + 3
  table : ∀ a < i, (t.mem (L.dirFrame + 2 + a / 1024) (a % 1024)).toNat = a * 4096 + 0x103
  rest : ∀ g, g ≠ L.dirFrame → g < L.dirFrame + 2 ∨ L.dirFrame + 258 ≤ g → t.mem g = s.mem g

/-- What the loop of `map_kernel_memory` carries after `i` turns. -/
def carriedAt (L : Layout) (i : ℕ) : ℕ × ℕ :=
  if i = 0 then (0, 0xFFFFFFFF)
  else (KERNEL_BASE + (L.dirFrame + 2 + (i - 1) / 1024) * 4096, 768 + (i - 1) / 1024)

theorem page_entry {i : ℕ} : i * 4096 ||| PAGE_KERNEL ||| PAGE_GLOBAL = i * 4096 + 0x103 := by
  rw [Nat.or_assoc]
  exact frame_or i (by decide)

/-- One turn of the loop. -/
theorem Layout.mapKernelMemoryStep_spec (L : Layout) {i : ℕ} {s t : State} (hi : i < 0x40000)
    (h : MappedUpTo L i s t) :
    ∃ t', L.mapKernelMemoryStep (i * 4096) (carriedAt L i) t = .ok (carriedAt L (i + 1)) t' ∧
      MappedUpTo L (i + 1) s t' := by
  have hhigh := L.high
  have hva : u32 (i * 4096 + 0xC0000000) = (0xC0000 + i) * 4096 := by
    rw [u32_of_lt (by omega)]; omega
  have hdir : ((0xC0000 + i) * 4096) >>> 22 = 768 + i / 1024 := by rw [dir_index]; omega
  have htab : (((0xC0000 + i) * 4096) >>> 12) &&& 0x3FF = i % 1024 := by rw [table_index]; omega
  have hcarried : carriedAt L (i + 1) =
      (KERNEL_BASE + (L.dirFrame + 2 + i / 1024) * 4096, 768 + i / 1024) := by
    unfold carriedAt
    rw [if_neg (Nat.succ_ne_zero i), Nat.add_sub_cancel]
  have hentry : (BitVec.ofNat 32 (i * 4096 + 0x103) : Word).toNat = i * 4096 + 0x103 :=
    toNat_ofNat_word (by omega)
  have hfr : L.dirFrame + 2 + i / 1024 < 1024 := by omega
  have hj : i % 1024 < 1024 := Nat.mod_lt _ (by norm_num)
  unfold Layout.mapKernelMemoryStep
  simp only [hva, hdir, htab]
  rw [page_entry, hcarried]
  clear hva hdir htab hcarried
  -- the write of the entry, after the directory entry is there
  have hfinish : ∀ u : State, OnlyMem s u → (∀ j < 768, (u.mem L.dirFrame j).toNat = 0) →
      (∀ j, j * 1024 < i + 1 →
        (u.mem L.dirFrame (768 + j)).toNat = (L.dirFrame + 2 + j) * 4096 + 3) →
      (∀ a < i, (u.mem (L.dirFrame + 2 + a / 1024) (a % 1024)).toNat = a * 4096 + 0x103) →
      (∀ g, g ≠ L.dirFrame → g < L.dirFrame + 2 ∨ L.dirFrame + 258 ≤ g → u.mem g = s.mem g) →
      MappedUpTo L (i + 1) s
        (u.write (L.dirFrame + 2 + i / 1024) (i % 1024) (i * 4096 + 0x103)) := by
    intro u hu hlow hd htable hrest
    refine ⟨hu.write _ _ _, fun j hj => ?_, fun j hj => ?_, fun a ha => ?_, fun g hg hout => ?_⟩
    · rw [State.mem_write_ne_frame _ _ _ (by omega)]
      exact hlow j hj
    · rw [State.mem_write_ne_frame _ _ _ (by omega)]
      exact hd j hj
    · rw [State.mem_write]
      by_cases hai : a = i
      · subst hai
        rw [if_pos ⟨rfl, rfl⟩, hentry]
      · rw [if_neg (by omega)]
        exact htable a (by omega)
    · funext j
      rw [State.mem_write_ne_frame _ _ _ (by omega)]
      exact congrFun (hrest g hg hout) j
  clear hentry
  by_cases hnew : 768 + i / 1024 ≠ (carriedAt L i).2
  · have hi0 : i % 1024 = 0 := by
      by_contra hne
      apply hnew
      unfold carriedAt
      rw [if_neg (by omega)]
      show _ = 768 + (i - 1) / 1024
      omega
    have hslot : u32Sub (768 + i / 1024) 768 = i / 1024 := by unfold u32Sub; omega
    have htable : u32 (L.kernelPageTablesBase + i / 1024 * 4096) =
        KERNEL_BASE + (L.dirFrame + 2 + i / 1024) * 4096 := by
      rw [u32_of_lt] <;>
        simp only [Layout.kernelPageTablesBase, Layout.kernelPageTable, Layout.kernelPageDir,
          KERNEL_BASE] <;> omega
    have hphys : u32Sub (KERNEL_BASE + (L.dirFrame + 2 + i / 1024) * 4096) 0xC0000000 =
        (L.dirFrame + 2 + i / 1024) * 4096 := by
      unfold u32Sub KERNEL_BASE; omega
    rw [if_pos hnew]
    simp only [hslot, htable, hphys]
    clear hslot htable hphys hnew
    rw [frame_or _ (by decide)]
    obtain ⟨v, hv⟩ : ∃ v, v = (L.dirFrame + 2 + i / 1024) * 4096 + PAGE_KERNEL := ⟨_, rfl⟩
    have hvlt : v < 2 ^ 32 := by rw [hv, PAGE_KERNEL]; omega
    rw [← hv]
    refine ⟨_, ?_, hfinish (t.write L.dirFrame (768 + i / 1024) v) (h.only.write _ _ _)
      (fun j hj => ?_) (fun j hj => ?_) (fun a ha => ?_) (fun g hg hout => ?_)⟩
    · rw [L.kernelPageDir_eq, run_bind_ok (bootStore_run v (by omega) (by omega) t)]
      rw [pure_bind, run_bind_ok (bootStore_run _ hfr hj _)]
      rfl
    · rw [State.mem_write_ne_index _ _ _ _ (by omega)]
      exact h.low j hj
    · rw [State.mem_write]
      by_cases hji : j = i / 1024
      · rw [if_pos ⟨rfl, by omega⟩, toNat_ofNat_word hvlt, hv, hji]
        rfl
      · rw [if_neg (by omega)]
        exact h.dir j (by omega)
    · rw [State.mem_write_ne_frame _ _ _ (by omega)]
      exact h.table a ha
    · funext j
      rw [State.mem_write_ne_frame _ _ _ hg]
      exact congrFun (h.rest g hg hout) j
  · have hold := not_not.mp hnew
    have hipos : i ≠ 0 := by
      rintro rfl
      simp [carriedAt] at hold
    have hc : carriedAt L i =
        (KERNEL_BASE + (L.dirFrame + 2 + i / 1024) * 4096, 768 + i / 1024) := by
      unfold carriedAt at hold ⊢
      rw [if_neg hipos] at hold ⊢
      have : (i - 1) / 1024 = i / 1024 := by
        have : 768 + i / 1024 = 768 + (i - 1) / 1024 := hold
        omega
      rw [this]
    have hsame : (i - 1) / 1024 = i / 1024 := by
      unfold carriedAt at hold
      rw [if_neg hipos] at hold
      have : 768 + i / 1024 = 768 + (i - 1) / 1024 := hold
      omega
    rw [if_neg hnew, hc]
    clear hnew hold hc
    refine ⟨_, ?_, hfinish t h.only h.low (fun j hj => h.dir j (by omega)) h.table h.rest⟩
    rw [pure_bind]
    show (bootStore _ _ >>= fun _ => _) t = _
    rw [run_bind_ok (bootStore_run _ hfr hj t)]
    rfl

theorem Layout.mapKernelMemory_spec (L : Layout) {s : State}
    (hzero : ∀ j < 1024, (s.mem L.dirFrame j).toNat = 0) :
    ∃ s', L.mapKernelMemory s = .ok () s' ∧ MappedUpTo L 0x40000 s s' := by
  obtain ⟨c, s', hrun, hc, h⟩ := iterate_rule
    (fun i carried => L.mapKernelMemoryStep (i * 4096) carried)
    (fun i c t => c = carriedAt L i ∧ MappedUpTo L i s t) (n := 0x40000) (a := carriedAt L 0)
    (s := s)
    ⟨rfl, OnlyMem.refl s, fun j hj => hzero j (by omega), fun j hj => by omega,
      fun a ha => by omega, fun g _ _ => rfl⟩
    (fun i c t hi ⟨hc, hm⟩ => by
      subst hc
      obtain ⟨t', hr, hm'⟩ := L.mapKernelMemoryStep_spec hi hm
      exact ⟨_, t', hr, rfl, hm'⟩)
  refine ⟨s', ?_, h⟩
  have hcount : 0x40000000 / 4096 = 0x40000 := by norm_num
  have hstart : carriedAt L 0 = (0, 0xFFFFFFFF) := if_pos rfl
  rw [Layout.mapKernelMemory, hcount, ← hstart, run_bind_ok hrun]
  rfl

theorem MappedUpTo.directMap {L : Layout} {s t : State} (h : MappedUpTo L 0x40000 s t) :
    L.DirectMap t := by
  refine ⟨fun i hi => h.dir i (by omega), fun i hi j hj => ?_⟩
  have := h.table (i * 1024 + j) (by omega)
  rwa [show (i * 1024 + j) / 1024 = i by omega, show (i * 1024 + j) % 1024 = j by omega] at this

theorem Layout.initPaging_spec (L : Layout) (s : State) :
    ∃ s', L.initPaging s = .ok () s' ∧ OnlyMem s s' ∧ L.DirectMap s' ∧
      ∀ j < 768, (s'.mem L.dirFrame j).toNat = 0 := by
  obtain ⟨s₁, hrun₁, honly₁, hzero⟩ := L.setupEntries_spec s
  obtain ⟨s₂, hrun₂, h₂⟩ := L.mapKernelMemory_spec hzero
  refine ⟨s₂, ?_, honly₁.trans h₂.only, h₂.directMap, h₂.low⟩
  unfold Layout.initPaging
  rw [run_bind_ok hrun₁, hrun₂]

/-- `boot.s` shows the first 4 MB, and nothing behind them is written. -/
theorem keeps_bootStore (mem : ℕ → ℕ → Word) (va v : ℕ) :
    Keeps (fun s => ∀ g, 1024 ≤ g → s.mem g = mem g) (bootStore va v) := by
  intro s hs
  unfold bootStore
  split_ifs with hva
  · intro g hg
    have hne : g ≠ (va - KERNEL_BASE) / 4096 := by
      have := hva.2
      omega
    exact (s.mem_write_ne_frame _ _ hne).trans (hs g hg)
  · exact hs

theorem Layout.keeps_initPaging (L : Layout) (mem : ℕ → ℕ → Word) :
    Keeps (fun s => ∀ g, 1024 ≤ g → s.mem g = mem g) L.initPaging := by
  have hstore := keeps_bootStore mem
  unfold Layout.initPaging Layout.setupEntries Layout.mapKernelMemory
  refine (Keeps.times (fun i => (hstore _ _).bind fun _ => hstore _ _) _).bind fun _ => ?_
  refine (Keeps.iterate (fun i carried => ?_) _ _).bind fun _ => Keeps.pure _ _
  unfold Layout.mapKernelMemoryStep
  have hentry : ∀ c : ℕ × ℕ, Keeps (fun s => ∀ g, 1024 ≤ g → s.mem g = mem g) (do
      bootStore (c.1 + 4 * (u32 (i * 4096 + 0xC0000000) >>> 12 &&& 0x3FF))
        (i * 4096 ||| PAGE_KERNEL ||| PAGE_GLOBAL)
      pure (c.1, c.2) : Kernel (ℕ × ℕ)) := fun c =>
    (hstore _ _).bind fun _ => Keeps.pure _ _
  simp only
  split_ifs
  · exact (hstore _ _).bind fun _ => (Keeps.pure _ _).bind hentry
  · exact (Keeps.pure _ _).bind hentry

/-- The kernel directory after booting: the upper quarter of the address space shows the first
gigabyte, writable and global, and the rest is empty; of all other frames `map_kernel_memory`
writes the 256 reserved tables only. -/
theorem Layout.direct_map_exact (L : Layout) (s : State) :
    ∃ s₁ s₂, L.setupEntries s = .ok () s₁ ∧ L.mapKernelMemory s₁ = .ok () s₂ ∧
      (∀ va, KERNEL_BASE ≤ va → va < 2 ^ 32 → ∃ e, s₂.walk L.dirFrame va = some e ∧
        e / 4096 * 4096 + va % 4096 = va - KERNEL_BASE ∧
        e % 4096 = PAGE_KERNEL ||| PAGE_GLOBAL ∧
        (s₂.mem L.dirFrame (va / 2 ^ 22)).toNat % 4096 = PAGE_KERNEL) ∧
      (∀ va < KERNEL_BASE, s₂.walk L.dirFrame va = none) ∧
      ∀ g, g ≠ L.dirFrame → g < L.dirFrame + 2 ∨ L.dirFrame + 258 ≤ g → s₂.mem g = s₁.mem g := by
  obtain ⟨s₁, hrun₁, -, hzero⟩ := L.setupEntries_spec s
  obtain ⟨s₂, hrun₂, h⟩ := L.mapKernelMemory_spec hzero
  refine ⟨s₁, s₂, hrun₁, hrun₂, fun va hlo hhi => ?_, fun va hva => ?_, h.rest⟩
  · unfold KERNEL_BASE at hlo ⊢
    obtain ⟨a, ha⟩ : ∃ a, a = va / 4096 - 0xC0000 := ⟨_, rfl⟩
    have hpde := h.dir (a / 1024) (by omega)
    have hpte := h.table a (by omega)
    have hslot : va / 2 ^ 22 = 768 + a / 1024 := by omega
    have hentry : va / 4096 % 1024 = a % 1024 := by omega
    have htable : s₂.pde L.dirFrame (768 + a / 1024) = some (L.dirFrame + 2 + a / 1024) := by
      have hframe : ((L.dirFrame + 2 + a / 1024) * 4096 + 3) / 4096 = L.dirFrame + 2 + a / 1024 := by
        omega
      unfold State.pde
      rw [hpde, if_pos (by omega), hframe]
    refine ⟨a * 4096 + 0x103, ?_, by omega, ?_, ?_⟩
    · unfold State.walk
      rw [hslot, htable, hentry]
      dsimp only
      rw [hpte, if_pos (by omega)]
    · rw [show PAGE_KERNEL ||| PAGE_GLOBAL = 0x103 from rfl, Nat.mul_comm, Nat.mul_add_mod]
    · rw [hslot, hpde, Nat.mul_comm, Nat.mul_add_mod, PAGE_KERNEL]
  · unfold KERNEL_BASE at hva
    have hnone : s₂.pde L.dirFrame (va / 2 ^ 22) = none := by
      unfold State.pde
      rw [h.low _ (by omega)]
      rfl
    unfold State.walk
    rw [hnone]

/-! ### New directories -/

/-- The new directory in frame `D` after the zeroing loop and `i` turns of the copy. -/
structure ClearedUpTo (L : Layout) (D i : ℕ) (s t : State) : Prop where
  only : OnlyMem s t
  others : ∀ g, g ≠ D → t.mem g = s.mem g
  zero : ∀ j < 768, (t.mem D j).toNat = 0
  copied : ∀ j < i, t.mem D (768 + j) = s.mem L.dirFrame (768 + j)

theorem Layout.DirectMap.of_others {L : Layout} {s t : State} {D : ℕ} (h : L.DirectMap s)
    (hD : L.kernelFrames ≤ D) (ht : ∀ g, g ≠ D → t.mem g = s.mem g) : L.DirectMap t := by
  unfold Layout.kernelFrames at hD
  exact h.congr (fun _ _ => by rw [ht _ (by omega)]) (fun _ _ => ht _ (by omega))

/-- The loops of `clear_directory` when the addresses of the new directory show frame `D` as long
as only that frame is written. -/
theorem Layout.clearDirectory_shown {L : Layout} {s : State} {dir D : ℕ} (hne : L.dirFrame ≠ D)
    (hstore : ∀ t, (∀ g, g ≠ D → t.mem g = s.mem g) → ∀ i < 1024, ∀ v,
      L.store (dir + 4 * i) v t = .ok () (t.write D i v))
    (hload : ∀ t, (∀ g, g ≠ D → t.mem g = s.mem g) → ∀ i < 1024,
      L.load (L.kernelPageDir + 4 * i) t = .ok (t.mem L.dirFrame i).toNat t) :
    ∃ s', L.clearDirectory dir s = .ok () s' ∧ ClearedUpTo L D 256 s s' := by
  obtain ⟨s₁, hrun₁, honly₁, hothers₁, hzero₁⟩ := times_rule
    (fun i => L.store (dir + 4 * i) 0)
    (fun i t => OnlyMem s t ∧ (∀ g, g ≠ D → t.mem g = s.mem g) ∧
      ∀ j < i, (t.mem D j).toNat = 0) (n := 1024)
    ⟨OnlyMem.refl s, fun _ _ => rfl, fun j hj => absurd hj (Nat.not_lt_zero j)⟩
    (fun i t hi ⟨hm, hg, hz⟩ => by
      refine ⟨t.write D i 0, hstore t hg i hi 0, hm.write _ _ _, fun g hgD => ?_, fun j hj => ?_⟩
      · rw [State.mem_write_ne_frame _ _ _ hgD]
        exact hg g hgD
      · by_cases hji : j = i
        · rw [hji, State.mem_write_same]; rfl
        · rw [State.mem_write_ne_index _ _ _ _ hji]
          exact hz j (by omega))
  obtain ⟨s₂, hrun₂, h₂⟩ := times_rule
    (fun i => (do
      let entry ← L.load (L.kernelPageDir + 4 * (768 + i))
      L.store (dir + 4 * (768 + i)) entry : Kernel Unit))
    (fun i t => ClearedUpTo L D i s t) (n := 256) (s := s₁)
    ⟨honly₁, hothers₁, fun j hj => hzero₁ j (by omega), fun j hj => absurd hj (Nat.not_lt_zero j)⟩
    (fun i t hi ht => by
      refine ⟨t.write D (768 + i) (t.mem L.dirFrame (768 + i)).toNat, ?_, ht.only.write _ _ _,
        fun g hg => ?_, fun j hj => ?_, fun j hj => ?_⟩
      · rw [run_bind_ok (hload t ht.others (768 + i) (by omega))]
        exact hstore t ht.others (768 + i) (by omega) _
      · rw [State.mem_write_ne_frame _ _ _ hg]
        exact ht.others g hg
      · rw [State.mem_write_ne_index _ _ _ _ (by omega)]
        exact ht.zero j hj
      · by_cases hji : j = i
        · rw [hji, State.mem_write_same, BitVec.ofNat_toNat, BitVec.setWidth_eq, ht.others _ hne]
        · rw [State.mem_write_ne_index _ _ _ _ (by omega)]
          exact ht.copied j (by omega))
  refine ⟨s₂, ?_, h₂⟩
  unfold Layout.clearDirectory
  rw [run_bind_ok hrun₁]
  exact hrun₂

/-- Every new directory is empty below the kernel half and has a copy of it above. -/
theorem Layout.clearDirectory_spec {L : Layout} {s : State} {D : ℕ} (h : L.DirectMap s)
    (hlt : D < 0x40000) (hD : L.kernelFrames ≤ D) :
    ∃ s', L.clearDirectory (KERNEL_BASE + D * 4096) s = .ok () s' ∧ ClearedUpTo L D 256 s s' := by
  have hhigh := L.high
  have hne : L.dirFrame ≠ D := by
    unfold Layout.kernelFrames at hD
    omega
  apply L.clearDirectory_shown hne
  · intro t ht i hi v
    exact (h.of_others hD ht).store_direct v hlt hi
  · intro t ht i hi
    rw [L.kernelPageDir_eq]
    exact (h.of_others hD ht).load_direct (by omega) hi

/-- The labels right after `init_pmm`: the image and free frames. -/
def Layout.imageUse (L : Layout) (f : ℕ) : Use := if f < L.kernelFrames then .kernel else .free

theorem Layout.imageUse_cases (L : Layout) (f : ℕ) :
    L.imageUse f = .kernel ∧ f < L.kernelFrames ∨ L.imageUse f = .free ∧ ¬ f < L.kernelFrames := by
  unfold Layout.imageUse
  split_ifs with h
  · exact Or.inl ⟨rfl, h⟩
  · exact Or.inr ⟨rfl, h⟩

/-- The first state in which the invariant of the pages holds. -/
theorem HeapPages.initial {L : Layout} {s : State} (hdirect : L.DirectMap s)
    (halloc : ∀ f < 0x100000, s.allocated f = decide (f < L.kernelFrames))
    (hlow : ∀ j < 768, (s.mem L.dirFrame j).toNat = 0) (hmaps : ∀ d p, s.maps d p = none) :
    HeapPages L L.imageUse s := by
  have hhigh := L.high
  have hno : ∀ f v, L.imageUse f = v → v ≠ .kernel → v ≠ .free → False := fun f v hf hk hfree => by
    rcases L.imageUse_cases f with ⟨h, _⟩ | ⟨h, _⟩ <;> rw [h] at hf
    · exact hk hf.symm
    · exact hfree hf.symm
  have hkernel : ∀ f, L.imageUse f = .kernel ↔ f < L.kernelFrames := fun f => by
    rcases L.imageUse_cases f with ⟨h, hlt⟩ | ⟨h, hlt⟩ <;> simp [h, hlt]
  have hdirs : ∀ d, L.IsDir L.imageUse d → d = L.dirFrame := fun d hd =>
    hd.resolve_right (fun ⟨o, ho⟩ => hno d _ ho (by simp) (by simp))
  exact
    { inv :=
        { direct := hdirect
          alloc := fun f hf => by
            rw [halloc f hf, decide_eq_true_eq]
            rcases L.imageUse_cases f with ⟨h, hlt⟩ | ⟨h, hlt⟩ <;> simp [h, hlt]
          range := fun f hf => by
            rcases L.imageUse_cases f with ⟨h, hlt⟩ | ⟨h, hlt⟩
            · unfold Layout.kernelFrames at hlt; omega
            · exact absurd h hf
          kernel := hkernel
          dirLow := fun f o hf => (hno f _ hf (by simp) (by simp)).elim
          tableLow := fun f d i hf => (hno f _ hf (by simp) (by simp)).elim
          pde := fun d i hd hi t => by
            have hz := hlow i hi
            rw [hdirs d hd, State.pde_eq_some_iff, hz]
            constructor
            · rintro ⟨h, _⟩; cases h
            · intro ht; exact (hno t _ ht (by simp) (by simp)).elim
          tableDir := fun t d i ht => (hno t _ ht (by simp) (by simp)).elim
          heapTable := fun t i ht => (hno t _ ht (by simp) (by simp)).elim
          half := fun d o hd => (hno d _ hd (by simp) (by simp)).elim
          pte := fun d p e hm => by rw [hmaps] at hm; cases hm
          backed := fun d p e hm => by rw [hmaps] at hm; cases hm
          exact := fun _ t d i j ht => (hno t _ ht (by simp) (by simp)).elim }
      dirs := fun o D hD => (hno D _ hD (by simp) (by simp)).elim
      kernelMap := fun f p hf => (hno f _ hf (by simp) (by simp)).elim
      homeMap := fun f p hf => (hno f _ hf (by simp) (by simp)).elim
      owner := fun d p e hm => by rw [hmaps] at hm; cases hm
      priv := fun f d p hf => (hno f _ hf (by simp) (by simp)).elim
      region := fun f p hf => (hno f _ hf (by simp) (by simp)).elim }

/-- A new directory for domain `o`, in a frame that was just taken. -/
theorem HeapPages.addDir {L : Layout} {use : ℕ → Use} {s s' : State} (h : HeapPages L use s)
    {D : ℕ} {o : Owner} (hfree : use D = .free) (hlt : D < 0x40000)
    (halloc : ∀ f, s'.allocated f = (s.take D).allocated f)
    (hmem : ∀ g, g ≠ D → s'.mem g = s.mem g) (hzero : ∀ i < 768, (s'.mem D i).toNat = 0)
    (hhalf : ∀ i < 256, s'.mem D (768 + i) = s.mem L.dirFrame (768 + i))
    (hmaps : s'.maps = s.maps) (hstale : s'.stale = s.stale)
    (hnew : o ≠ .proc → ∀ c, use c ≠ .dir o) (hdir : o ≠ .proc → s'.dirAddr o = KERNEL_BASE + D * 4096)
    (hothers : ∀ r, r ≠ o → s'.dirAddr r = s.dirAddr r) :
    HeapPages L (Function.update use D (.dir o)) s' := by
  have hpage : ∀ f p, Function.update use D (.dir o) f = .page p ↔ use f = .page p := fun f p => by
    by_cases hf : f = D
    · rw [hf, Function.update_self, hfree]; simp
    · rw [Function.update_of_ne hf]
  have hkeep : ∀ f v, use f = v → v ≠ .free → Function.update use D (.dir o) f = v :=
    fun f v hf hv => by
      rw [Function.update_of_ne (by rintro rfl; rw [hfree] at hf; exact hv hf.symm)]
      exact hf
  exact
    { inv := h.inv.addDir hfree hlt halloc hmem hzero hhalf hmaps hstale
      dirs := fun r c hc hr => by
        by_cases hcD : c = D
        · rw [hcD, Function.update_self] at hc
          cases hc
          rw [hcD]
          exact hdir hr
        · rw [Function.update_of_ne hcD] at hc
          rw [hothers r (by rintro rfl; exact hnew hr c hc)]
          exact h.dirs r c hc hr
      kernelMap := fun f p hf => by rw [hmaps]; exact h.kernelMap f p ((hpage f p).mp hf)
      homeMap := fun f p hf => by
        obtain ⟨c, hc, hm⟩ := h.homeMap f p ((hpage f p).mp hf)
        exact ⟨c, hkeep c _ hc (by simp), by rw [hmaps]; exact hm⟩
      owner := fun c p e hm hp => by
        rw [hmaps] at hm
        rcases h.owner c p e hm ((hpage _ p).mp hp) with hc | hc
        · exact Or.inl hc
        · exact Or.inr (hkeep c _ hc (by simp))
      priv := fun f c p hf => by
        by_cases hfD : f = D
        · rw [hfD, Function.update_self] at hf; cases hf
        · rw [Function.update_of_ne hfD] at hf
          exact hkeep c _ (h.priv f c p hf) (by simp)
      region := fun f p hf => h.region f p ((hpage f p).mp hf) }

theorem HeapPages.sameHeap_of_frames {L : Layout} {use use' : ℕ → Use} {s s' : State}
    (h : HeapPages L use s) (h' : HeapPages L use' s')
    (huse : ∀ f p, use f = .page p → use' f = .page p)
    (hmem : ∀ f p, use f = .page p → s'.mem f = s.mem f) : SameHeap L use s s' := by
  rintro b ⟨f, hf⟩
  rw [h'.peek_page (huse f _ hf), h.peek_page hf, hmem f _ hf]

end RaxzusHeap
