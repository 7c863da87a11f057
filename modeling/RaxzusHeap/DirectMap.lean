import RaxzusHeap.HeapDomain
import RaxzusHeap.PmmSpec

/-! # The direct map

`map_kernel_memory` shows the first gigabyte of physical memory at `KERNEL_BASE`, and the
kernel reaches every directory and page table there.  `DirectMap` says that the map is
intact; while it is, a read or write through `phys + 0xC0000000` is one of frame `phys`
(`load_direct`, `store_direct`). -/

namespace RaxzusHeap

open Imperative

/-! ### Reading and writing states -/

theorem State.mem_write (s : State) (f i v g j : ℕ) :
    (s.write f i v).mem g j = if g = f ∧ j = i then BitVec.ofNat 32 v else s.mem g j := rfl

theorem State.mem_write_same (s : State) (f i v : ℕ) :
    (s.write f i v).mem f i = BitVec.ofNat 32 v := by simp [State.mem_write]

theorem State.mem_write_ne_frame (s : State) {f g : ℕ} (i v : ℕ) (h : g ≠ f) :
    (s.write f i v).mem g = s.mem g := by
  funext j
  simp [State.mem_write, h]

theorem State.mem_write_ne_index (s : State) (f : ℕ) {i j : ℕ} (v g : ℕ) (h : j ≠ i) :
    (s.write f i v).mem g j = s.mem g j := by simp [State.mem_write, h]

@[simp] theorem State.allocated_write (s : State) (f i v g : ℕ) :
    (s.write f i v).allocated g = s.allocated g := rfl

@[simp] theorem State.allocated_install (s : State) (d va e g : ℕ) :
    (s.install d va e).allocated g = s.allocated g := rfl

@[simp] theorem State.allocated_uninstall (s : State) (d va g : ℕ) :
    (s.uninstall d va).allocated g = s.allocated g := rfl

@[simp] theorem State.allocated_noteTable (s : State) (f g : ℕ) :
    (s.noteTable f).allocated g = s.allocated g := rfl

@[simp] theorem State.mem_take (s : State) (f : ℕ) : (s.take f).mem = s.mem := rfl

@[simp] theorem State.mem_noteTable (s : State) (f : ℕ) : (s.noteTable f).mem = s.mem := rfl

@[simp] theorem State.mem_install (s : State) (d va e : ℕ) : (s.install d va e).mem = s.mem := rfl

@[simp] theorem State.mem_uninstall (s : State) (d va : ℕ) : (s.uninstall d va).mem = s.mem := rfl

@[simp] theorem State.mem_unmark (s : State) (f : ℕ) : (s.unmark f).mem = s.mem := rfl

@[simp] theorem State.maps_write (s : State) (f i v : ℕ) : (s.write f i v).maps = s.maps := rfl

theorem State.maps_install (s : State) (d p e c q : ℕ) :
    (s.install (KERNEL_BASE + d * 4096) (p * 4096) e).maps c q =
      if c = d ∧ q = p then some e else s.maps c q := by
  simp only [State.install, Nat.add_sub_cancel_left, Nat.mul_div_cancel _ (show 0 < 4096 by norm_num)]

theorem State.maps_uninstall (s : State) (d p c q : ℕ) :
    (s.uninstall (KERNEL_BASE + d * 4096) (p * 4096)).maps c q =
      if c = d ∧ q = p then none else s.maps c q := by
  simp only [State.uninstall, Nat.add_sub_cancel_left,
    Nat.mul_div_cancel _ (show 0 < 4096 by norm_num)]

theorem State.pde_congr {s s' : State} {d i : ℕ} (h : s'.mem d i = s.mem d i) :
    s'.pde d i = s.pde d i := by unfold State.pde; rw [h]

theorem State.pde_eq_some_iff {s : State} {d i t : ℕ} :
    s.pde d i = some t ↔ (s.mem d i).toNat % 2 = 1 ∧ (s.mem d i).toNat / 4096 = t := by
  unfold State.pde
  split_ifs with h <;> simp [h]

theorem State.pde_eq_none_iff {s : State} {d i : ℕ} :
    s.pde d i = none ↔ (s.mem d i).toNat % 2 = 0 := by
  unfold State.pde
  split_ifs with h
  · simp [h]
  · simp only [true_iff]; omega

theorem State.walk_of_pde {s : State} {d t va : ℕ} (h : s.pde d (va / 2 ^ 22) = some t) :
    s.walk d va = if (s.mem t (va / 4096 % 1024)).toNat % 2 = 1 then
      some (s.mem t (va / 4096 % 1024)).toNat else none := by
  unfold State.walk
  rw [h]

theorem State.walk_of_pde_none {s : State} {d va : ℕ} (h : s.pde d (va / 2 ^ 22) = none) :
    s.walk d va = none := by
  unfold State.walk
  rw [h]

theorem Layout.load_of_walk (L : Layout) {s : State} {va e : ℕ}
    (h : s.walk L.dirFrame va = some e) :
    L.load va s = .ok (s.mem (e / 4096) (va % 4096 / 4)).toNat s := by
  simp only [Layout.load, State.peek, h, Option.map_some]

theorem Layout.load_of_peek (L : Layout) {s : State} {va v : ℕ}
    (h : s.peek L.dirFrame va = some v) : L.load va s = .ok v s := by
  simp only [Layout.load, h]

theorem Layout.load_ok (L : Layout) {s s' : State} {va v : ℕ} (hr : L.load va s = .ok v s') :
    s' = s ∧ s.peek L.dirFrame va = some v := by
  unfold Layout.load at hr
  cases hpeek : s.peek L.dirFrame va with
  | none => rw [hpeek] at hr; cases hr
  | some w =>
      rw [hpeek] at hr
      cases hr
      exact ⟨rfl, rfl⟩

theorem Layout.store_of_walk (L : Layout) {s : State} {va e : ℕ} (v : ℕ)
    (h : s.walk L.dirFrame va = some e) :
    L.store va v s = .ok () (s.write (e / 4096) (va % 4096 / 4) v) := by
  simp only [Layout.store, h]

theorem Layout.load_fault (L : Layout) {s : State} {va : ℕ} (h : s.walk L.dirFrame va = none) :
    L.load va s = .error (.pageFault va) s := by
  simp only [Layout.load, State.peek, h, Option.map_none]

theorem Layout.store_fault (L : Layout) {s : State} {va : ℕ} (v : ℕ)
    (h : s.walk L.dirFrame va = none) : L.store va v s = .error (.pageFault va) s := by
  simp only [Layout.store, h]

/-! ### The direct map -/

/-- The kernel half of the kernel directory shows physical memory below 1 GB. -/
structure Layout.DirectMap (L : Layout) (s : State) : Prop where
  dir : ∀ i < 256, (s.mem L.dirFrame (768 + i)).toNat = (L.dirFrame + 2 + i) * 4096 + 3
  table : ∀ i < 256, ∀ j < 1024,
    (s.mem (L.dirFrame + 2 + i) j).toNat = (i * 1024 + j) * 4096 + 0x103

namespace Layout.DirectMap

variable {L : Layout} {s : State}

theorem walk (h : L.DirectMap s) {f off : ℕ} (hf : f < 0x40000) (hoff : off < 4096) :
    s.walk L.dirFrame (KERNEL_BASE + f * 4096 + off) = some (f * 4096 + 0x103) := by
  have hva : (KERNEL_BASE + f * 4096 + off) / 2 ^ 22 = 768 + f / 1024 := by
    simp only [KERNEL_BASE]; omega
  have hpage : (KERNEL_BASE + f * 4096 + off) / 4096 % 1024 = f % 1024 := by
    simp only [KERNEL_BASE]; omega
  have hdir := h.dir (f / 1024) (by omega)
  have hpde : s.pde L.dirFrame ((KERNEL_BASE + f * 4096 + off) / 2 ^ 22) =
      some (L.dirFrame + 2 + f / 1024) := by
    rw [hva, State.pde_eq_some_iff, hdir]
    omega
  have htable := h.table (f / 1024) (by omega) (f % 1024) (by omega)
  have hframe : (f / 1024 * 1024 + f % 1024) * 4096 + 0x103 = f * 4096 + 0x103 := by omega
  rw [State.walk_of_pde hpde, hpage, htable, hframe, if_pos (by omega)]

theorem load_direct (h : L.DirectMap s) {f i : ℕ} (hf : f < 0x40000) (hi : i < 1024) :
    L.load (KERNEL_BASE + f * 4096 + 4 * i) s = .ok (s.mem f i).toNat s := by
  have h1 : (f * 4096 + 0x103) / 4096 = f := by omega
  have h2 : (KERNEL_BASE + f * 4096 + 4 * i) % 4096 / 4 = i := by
    simp only [KERNEL_BASE]; omega
  rw [L.load_of_walk (h.walk hf (show 4 * i < 4096 by omega)), h1, h2]

theorem store_direct (h : L.DirectMap s) {f i : ℕ} (v : ℕ) (hf : f < 0x40000) (hi : i < 1024) :
    L.store (KERNEL_BASE + f * 4096 + 4 * i) v s = .ok () (s.write f i v) := by
  have h1 : (f * 4096 + 0x103) / 4096 = f := by omega
  have h2 : (KERNEL_BASE + f * 4096 + 4 * i) % 4096 / 4 = i := by
    simp only [KERNEL_BASE]; omega
  rw [L.store_of_walk v (h.walk hf (show 4 * i < 4096 by omega)), h1, h2]

theorem congr (h : L.DirectMap s) {s' : State}
    (hdir : ∀ i < 256, s'.mem L.dirFrame (768 + i) = s.mem L.dirFrame (768 + i))
    (htable : ∀ i < 256, s'.mem (L.dirFrame + 2 + i) = s.mem (L.dirFrame + 2 + i)) :
    L.DirectMap s' :=
  ⟨fun i hi => by rw [hdir i hi]; exact h.dir i hi,
    fun i hi j hj => by rw [htable i hi]; exact h.table i hi j hj⟩

end Layout.DirectMap

theorem direct_address {f : ℕ} (hf : f < 0x40000) :
    u32 (f * 4096 + 0xC0000000) = KERNEL_BASE + f * 4096 := by
  rw [u32_of_lt (by omega), KERNEL_BASE]
  omega

end RaxzusHeap
