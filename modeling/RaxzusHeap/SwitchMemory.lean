import RaxzusHeap.ProcessRuns

/-! # What a context switch finds mapped

`schedule` and the timer stub read and write process control blocks, and the processor pushes
on the kernel stack, under the directory of a process (`SwitchMapped`).  Both are heap blocks
below 2 GB, but a process directory has the kernel half of the kernel directory and the pages
of its own stack and code only.  So none of them is mapped there, in any run
(`switch_mapped_iff`). -/

namespace RaxzusHeap

open Imperative FirstFit Linked

/-- Directory `D` and the kernel directory translate `va` to the same frame. -/
def SameTranslation (L : Layout) (s : State) (D va : ℕ) : Prop :=
  ∃ e e', s.walk D va = some e ∧ s.walk L.dirFrame va = some e' ∧ e / 4096 = e' / 4096

/-- What the switch to process `b` touches while the directory of `b` is loaded: the blocks of
both processes and the kernel stack of `b`. -/
def SwitchMapped (L : Layout) (s : State) (a b : ℕ) : Prop :=
  ∃ dir top, L.fields s b .pageDir = some dir ∧ L.fields s b .kernelStackTop = some top ∧
    (∀ k < PCB_SIZE, SameTranslation L s ((dir - KERNEL_BASE) / 4096) (a + k)) ∧
    (∀ k < PCB_SIZE, SameTranslation L s ((dir - KERNEL_BASE) / 4096) (b + k)) ∧
    ∀ k < 4096, SameTranslation L s ((dir - KERNEL_BASE) / 4096) (top - 4096 + k)

section Runs

variable {L : Layout} {use : ℕ → Use} {live ranges : ℕ → Option ℕ} {procs : List Process}
  {s : State} {x : Process}

/-- A process directory maps nothing of the heap but what its tables cover. -/
theorem HomeMemory.walk_none {D : ℕ} (h : HomeMemory use x D) (hp : PageInv L use s) {va : ℕ}
    (hstack : va / 2 ^ 22 ≠ STACK_PAGE / 1024) (hcode : va / 2 ^ 22 ≠ CODE_PAGE / 1024)
    (hlow : va / 2 ^ 22 < 768) : s.walk D va = none := by
  apply State.walk_of_pde_none
  cases hpde : s.pde D (va / 2 ^ 22) with
  | none => rfl
  | some t =>
      have ht := (hp.pde D _ (Or.inr ⟨.proc, h.dir⟩) hlow t).mp hpde
      cases h.tables t _ ht with
      | inl hi => exact absurd hi hstack
      | inr hi => exact absurd hi hcode

theorem Home.not_switchMapped (h : Home L use live s x) (hp : PageInv L use s) :
    ¬ SwitchMapped L s x.pcb x.pcb := by
  rintro ⟨dir, top, hdir, -, hpcb, -, -⟩
  obtain ⟨D, hD⟩ := h.memory
  rw [h.pageDir, hD.pageDir, Option.some.injEq] at hdir
  obtain ⟨e, -, he, -⟩ := hpcb 0 (by norm_num [PCB_SIZE])
  have h1 := h.pcbBlock.1
  have h2 := h.pcbBlock.2.1
  simp only [SizeClass.virtBase] at h1 h2
  have hframe : (dir - KERNEL_BASE) / 4096 = D := by
    rw [← hdir, Nat.add_sub_cancel_left, Nat.mul_div_cancel D (by norm_num)]
  rw [hframe, Nat.add_zero, hD.walk_none hp] at he
  · cases he
  · unfold STACK_PAGE
    omega
  · unfold CODE_PAGE
    omega
  · omega

/-- Whatever processes were created, what the switch needs is mapped only when there is no
process at all. -/
theorem switch_mapped_iff (L : Layout) (live : ℕ → Option ℕ) (procs : List Process) (s : State)
    (run : CreateRun L live procs s) :
    ∃ l, ProcChain L s s.processLists l ∧
      ((∀ a ∈ l, ∀ b ∈ l, SwitchMapped L s a b) ↔ procs = []) := by
  obtain ⟨use, ranges, m, h⟩ := run.creating
  obtain ⟨l, hl, hmem⟩ := h.kernel.list
  refine ⟨l, hl, fun hall => ?_, fun hnil a ha => ?_⟩
  · by_contra hne
    cases l with
    | nil => exact h.head hne hl.of_nil
    | cons p t =>
        obtain ⟨x, hx, rfl⟩ := hmem p List.mem_cons_self
        exact (h.kernel.home x hx).not_switchMapped h.kernel.heap.pages.inv
          (hall _ List.mem_cons_self _ List.mem_cons_self)
  · obtain ⟨x, hx, -⟩ := hmem a ha
    rw [hnil] at hx
    cases hx

end Runs

/-- The run of one kernel process. -/
theorem switch_mapped_iff_one : ∃ live x s l, CreateRun Layout.lowest live [x] s ∧
    ProcChain Layout.lowest s s.processLists l ∧
      ¬ ∀ a ∈ l, ∀ b ∈ l, SwitchMapped Layout.lowest s a b := by
  obtain ⟨use, m, s, hboot, hb⟩ := Layout.lowest.boot_spec fun _ _ => 0
  obtain ⟨x, s', use', live', hr, -, -⟩ := hb.createProcess_ok 0xC0101000
  have run : CreateRun Layout.lowest (liveCreated noLive (some x)) [x] s' :=
    (KernelRun.boot hboot).create hr trivial
  obtain ⟨l, hl, hiff⟩ := switch_mapped_iff Layout.lowest _ [x] s' run
  exact ⟨_, x, s', l, run, hl, fun hall => absurd (hiff.mp hall) (by simp)⟩

/-- One process: its own control block is not mapped under its directory. -/
theorem switch_faults_on_first : ∃ s x s',
    Layout.lowest.boot (State.powerOn fun _ _ => 0) = .ok () s ∧
      Layout.lowest.createProcess 0xC0101000 false s = .ok (some x) s' ∧
      ProcChain Layout.lowest s' s'.processLists [x.pcb] ∧
      ¬ SwitchMapped Layout.lowest s' x.pcb x.pcb := by
  obtain ⟨use, m, s, hboot, hb⟩ := Layout.lowest.boot_spec fun _ _ => 0
  obtain ⟨x, s', use', live', hr, hk, hc⟩ := hb.createProcess_ok 0xC0101000
  have hlist := hc.list
  rw [hb.noList.1, if_pos rfl] at hlist
  exact ⟨s, x, s', hboot, hr, hlist,
    (hk.home x List.mem_cons_self).not_switchMapped hk.heap.pages.inv⟩

end RaxzusHeap
