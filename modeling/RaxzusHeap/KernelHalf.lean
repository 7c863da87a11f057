import RaxzusHeap.ProcessRuns

/-! # The kernel half of every directory

Entries 768 to 1023 are copied into a directory once, when it is built.  They never need
copying again: all 256 of them are present in the kernel directory from `init_paging` on, and
`map_page` changes an entry of a directory only where none is present. -/

namespace RaxzusHeap

open Imperative FirstFit

/-- The virtual addresses of the page directories made so far: those of the seven size
classes, of the large domain and of the processes. -/
def DirectoryAddr (s : State) (procs : List Process) (a : ℕ) : Prop :=
  (∃ d, a = (s.domains d).pageDirectory) ∨ a = s.large.pageDirectory ∨ ∃ x ∈ procs, a = x.pageDir

section Runs

variable {L : Layout} {use : ℕ → Use} {live ranges : ℕ → Option ℕ} {procs : List Process}
  {s : State} {a : ℕ}

theorem KernelInv.directory (h : KernelInv L use live ranges procs s)
    (ha : DirectoryAddr s procs a) : ∃ D o, a = KERNEL_BASE + D * 4096 ∧ use D = .dir o := by
  rcases ha with ⟨d, rfl⟩ | rfl | ⟨x, hx, rfl⟩
  · obtain ⟨D, hD⟩ := (h.heap.dom d).home
    exact ⟨D, _, h.heap.pages.dirs (.cls d) D hD (by simp), hD⟩
  · obtain ⟨D, hD⟩ := h.heap.large.home
    exact ⟨D, _, h.heap.pages.dirs .large D hD (by simp), hD⟩
  · obtain ⟨D, hD⟩ := (h.home x hx).memory
    exact ⟨D, _, hD.pageDir, hD.dir⟩

/-- Within the limits of memory, every directory ever built has the kernel half of the kernel
directory, and all of its entries are present. -/
theorem kernel_half_synchronised
    (run : KernelRun L (WithinLimits L) CreateWithin live procs s) :
    ∀ a, DirectoryAddr s procs a → ∃ D, a = KERNEL_BASE + D * 4096 ∧ D < 0x40000 ∧
      ∀ i, 768 ≤ i → i < 1024 →
        s.mem D i = s.mem L.dirFrame i ∧ (s.mem L.dirFrame i).toNat % 2 = 1 := by
  intro a ha
  obtain ⟨use, ranges, h⟩ := run.bounded.kernel
  obtain ⟨D, o, rfl, hD⟩ := h.directory ha
  refine ⟨D, rfl, h.heap.pages.inv.dirLow D o hD, fun i h1 h2 => ?_⟩
  obtain ⟨j, rfl⟩ := Nat.exists_eq_add_of_le h1
  refine ⟨h.heap.pages.inv.half D o hD j (by omega), ?_⟩
  rw [h.heap.pages.inv.direct.dir j (by omega)]
  omega

end Runs

/-- The directory of the first process. -/
theorem kernel_half_synchronised_first : ∃ x s D,
    (∃ live, KernelRun Layout.lowest (WithinLimits Layout.lowest) CreateWithin live [x] s) ∧
      x.pageDir = KERNEL_BASE + D * 4096 ∧
      ∀ i, 768 ≤ i → i < 1024 → s.mem D i = s.mem Layout.lowest.dirFrame i := by
  obtain ⟨use, m, s, hboot, hb⟩ := Layout.lowest.boot_spec fun _ _ => 0
  obtain ⟨x, s', -, run⟩ := hb.createProcess_run hboot 0xC0101000
  obtain ⟨D, hD, -, hhalf⟩ := kernel_half_synchronised run x.pageDir
    (Or.inr (Or.inr ⟨x, List.mem_cons_self, rfl⟩))
  exact ⟨x, s', D, ⟨_, run⟩, hD, fun i h1 h2 => (hhalf i h1 h2).1⟩

end RaxzusHeap
