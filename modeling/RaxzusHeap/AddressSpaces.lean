import RaxzusHeap.Boot

/-! # `map_page` over arbitrary address spaces

`MapPage` follows `map_page` through the heap, whose frames carry labels.  Here the
directories are any set of frames: while every page table belongs to one entry of one
directory (`TablesOwned`), `map_page` is an update of one page of one address space, and
the walk of every other page that was present stays what it was. -/

namespace RaxzusHeap

open Imperative Bits FirstFit

/-- Tables and directories are allocated frames of the direct map, and no two directories
share a table below entry 768. -/
structure TablesUnshared (L : Layout) (dirs : Set ℕ) (s : State) : Prop where
  direct : L.DirectMap s
  image : L.ImageMarked s
  kernel : L.dirFrame ∈ dirs
  dirFrame : ∀ d ∈ dirs, d < 0x40000 ∧ s.allocated d = true
  tableFrame : ∀ d ∈ dirs, ∀ i < 1024, ∀ t, s.pde d i = some t →
    t < 0x40000 ∧ s.allocated t = true
  unshared : ∀ d ∈ dirs, ∀ i < 768, ∀ c ∈ dirs, ∀ j < 1024, ∀ t, s.pde d i = some t →
    s.pde c j = some t → c = d

/-- Moreover a table below entry 768 serves one entry only, no directory is used as a table,
and the spare table of the kernel image serves entry 0 of the kernel directory or nothing. -/
structure TablesOwned (L : Layout) (dirs : Set ℕ) (s : State) : Prop
    extends TablesUnshared L dirs s where
  single : ∀ d ∈ dirs, ∀ i < 768, ∀ j < 1024, ∀ t, s.pde d i = some t →
    s.pde d j = some t → j = i
  apart : ∀ d ∈ dirs, ∀ i < 1024, ∀ t, s.pde d i = some t → t ∉ dirs
  spareDir : L.dirFrame + 1 ∉ dirs
  spare : ∀ d ∈ dirs, ∀ i < 1024, s.pde d i = some (L.dirFrame + 1) → d = L.dirFrame ∧ i = 0

/-- The entry the walk of the directory in frame `d` ends at for page `q`. -/
def State.entryAt (s : State) (d q : ℕ) : Option ℕ := s.walk d (q * 4096)

theorem State.entryAt_eq_some_iff {s : State} {d q e : ℕ} :
    s.entryAt d q = some e ↔ ∃ t, s.pde d (q / 1024) = some t ∧
      (s.mem t (q % 1024)).toNat % 2 = 1 ∧ (s.mem t (q % 1024)).toNat = e := by
  have hdir : q * 4096 / 2 ^ 22 = q / 1024 := by omega
  have hidx : q * 4096 / 4096 % 1024 = q % 1024 := by omega
  unfold State.entryAt State.walk
  rw [hdir, hidx]
  cases hpde : s.pde d (q / 1024) with
  | none => simp
  | some t => by_cases hodd : (s.mem t (q % 1024)).toNat % 2 = 1 <;> simp [hodd]

theorem State.pde_write (s : State) {d i v : ℕ} (hv : v < 2 ^ 32) (hodd : v % 2 = 1) (c j : ℕ) :
    (s.write d i v).pde c j = if c = d ∧ j = i then some (v / 4096) else s.pde c j := by
  split_ifs with h
  · obtain ⟨rfl, rfl⟩ := h
    rw [State.pde_eq_some_iff, State.mem_write_same, BitVec.toNat_ofNat, Nat.mod_eq_of_lt hv]
    exact ⟨hodd, rfl⟩
  · refine State.pde_congr ?_
    rw [State.mem_write, if_neg h]

/-- Beside the direct map and the marks of its frames only the entries of the directories
matter. -/
theorem TablesOwned.keep {L : Layout} {dirs : Set ℕ} {s s' : State} (h : TablesOwned L dirs s)
    (hdir : L.DirectMap s') (himg : L.ImageMarked s')
    (hdirs : ∀ c ∈ dirs, s'.allocated c = true)
    (htables : ∀ c ∈ dirs, ∀ k < 1024, ∀ u, s.pde c k = some u → s'.allocated u = true)
    (hpde : ∀ c ∈ dirs, ∀ k, s'.pde c k = s.pde c k) : TablesOwned L dirs s' where
  direct := hdir
  image := himg
  kernel := h.kernel
  dirFrame c hc := ⟨(h.dirFrame c hc).1, hdirs c hc⟩
  tableFrame c hc k hk u hu := by
    rw [hpde c hc] at hu
    exact ⟨(h.tableFrame c hc k hk u hu).1, htables c hc k hk u hu⟩
  unshared c hc k hk c' hc' k' hk' u hu hu' := by
    rw [hpde c hc] at hu
    rw [hpde c' hc'] at hu'
    exact h.unshared c hc k hk c' hc' k' hk' u hu hu'
  single c hc k hk k' hk' u hu hu' := by
    rw [hpde c hc] at hu hu'
    exact h.single c hc k hk k' hk' u hu hu'
  apart c hc k hk u hu := by
    rw [hpde c hc] at hu
    exact h.apart c hc k hk u hu
  spareDir := h.spareDir
  spare c hc k hk hu := by
    rw [hpde c hc] at hu
    exact h.spare c hc k hk hu

theorem TablesOwned.transfer {L : Layout} {dirs : Set ℕ} {s s' : State} (h : TablesOwned L dirs s)
    (hdir : L.DirectMap s') (ha : ∀ g, s.allocated g = true → s'.allocated g = true)
    (hpde : ∀ c ∈ dirs, ∀ k, s'.pde c k = s.pde c k) : TablesOwned L dirs s' :=
  h.keep hdir (fun f hf => ha f (h.image f hf)) (fun c hc => ha c (h.dirFrame c hc).2)
    (fun c hc k hk u hu => ha u (h.tableFrame c hc k hk u hu).2) hpde

/-! ### Writing an entry of a table -/

section SetEntry

variable {L : Layout} {dirs : Set ℕ} {s : State} {d i t : ℕ}

theorem TablesUnshared.pde_kernel (h : TablesUnshared L dirs s) {k : ℕ} (hk : k < 256) :
    s.pde L.dirFrame (768 + k) = some (L.dirFrame + 2 + k) := by
  rw [State.pde_eq_some_iff, h.direct.dir k hk]
  omega

theorem TablesOwned.ne_reserved (h : TablesOwned L dirs s) (hd : d ∈ dirs) (hi : i < 768)
    (ht : s.pde d i = some t) {k : ℕ} (hk : k < 256) : L.dirFrame + 2 + k ≠ t := by
  rintro rfl
  have hker := h.pde_kernel hk
  have hsame := h.unshared d hd i hi _ h.kernel _ (by omega) _ ht hker
  subst hsame
  have := h.single _ hd i hi _ (by omega) _ ht hker
  omega

theorem TablesOwned.ne_dir (h : TablesOwned L dirs s) (hd : d ∈ dirs) (hi : i < 1024)
    (ht : s.pde d i = some t) {c : ℕ} (hc : c ∈ dirs) : c ≠ t := by
  rintro rfl
  exact h.apart d hd i hi _ ht hc

theorem TablesOwned.setEntry (h : TablesOwned L dirs s) (hd : d ∈ dirs) (hi : i < 768)
    (ht : s.pde d i = some t) (j e : ℕ) : TablesOwned L dirs (s.write t j e) := by
  have hpde : ∀ c ∈ dirs, ∀ k, (s.write t j e).pde c k = s.pde c k := fun c hc k =>
    State.pde_congr (by rw [State.mem_write_ne_frame _ _ _ (h.ne_dir hd (by omega) ht hc)])
  refine h.transfer (h.direct.congr (fun k _ => ?_) (fun k hk => ?_)) (fun g hg => hg) hpde
  · rw [State.mem_write_ne_frame _ _ _ (h.ne_dir hd (by omega) ht h.kernel)]
  · rw [State.mem_write_ne_frame _ _ _ (h.ne_reserved hd hi ht hk)]

theorem TablesOwned.entryAt_same (h : TablesOwned L dirs s) (hd : d ∈ dirs) {p e : ℕ}
    (hp : p < 0xC0000) (ht : s.pde d (p / 1024) = some t) (he : e < 2 ^ 32) (hodd : e % 2 = 1) :
    (s.write t (p % 1024) e).entryAt d p = some e := by
  rw [State.entryAt_eq_some_iff]
  refine ⟨t, ?_, ?_⟩
  · rw [← ht]
    refine State.pde_congr ?_
    rw [State.mem_write_ne_frame _ _ _ (h.ne_dir hd (by omega) ht hd)]
  · rw [State.mem_write_same, BitVec.toNat_ofNat, Nat.mod_eq_of_lt he]
    exact ⟨hodd, rfl⟩

theorem TablesOwned.entryAt_other (h : TablesOwned L dirs s) (hd : d ∈ dirs) {p : ℕ}
    (hp : p < 0xC0000) (ht : s.pde d (p / 1024) = some t) (e : ℕ) {c q : ℕ} (hc : c ∈ dirs)
    (hq : q < 0x100000) (hne : ¬ (c = d ∧ q = p)) :
    (s.write t (p % 1024) e).entryAt c q = s.entryAt c q := by
  have hi : p / 1024 < 768 := by omega
  have hpde : (s.write t (p % 1024) e).pde c (q / 1024) = s.pde c (q / 1024) :=
    State.pde_congr (by rw [State.mem_write_ne_frame _ _ _ (h.ne_dir hd (by omega) ht hc)])
  ext e'
  rw [State.entryAt_eq_some_iff, State.entryAt_eq_some_iff, hpde]
  refine exists_congr fun u => and_congr_right fun hu => ?_
  have hcell : (s.write t (p % 1024) e).mem u (q % 1024) = s.mem u (q % 1024) := by
    rw [State.mem_write, if_neg]
    rintro ⟨rfl, hidx⟩
    -- The same table means the same directory and the same entry, so the same page.
    have hcd := h.unshared d hd _ hi c hc _ (by omega) _ ht hu
    subst hcd
    have := h.single c hd _ hi _ (by omega) _ ht hu
    exact hne ⟨rfl, by omega⟩
  rw [hcell]

end SetEntry

/-! ### Adding a directory -/

/-- A directory in a frame that was clear, empty below the kernel half and a copy of the kernel
directory above, shares no table. -/
theorem TablesOwned.addDirectory {L : Layout} {dirs : Set ℕ} {s s' : State} {D : ℕ}
    (h : TablesOwned L dirs s) (hlow : D < 0x40000) (hclear : s.allocated D = false)
    (ha : ∀ g, s'.allocated g = (s.take D).allocated g) (hmem : ∀ g, g ≠ D → s'.mem g = s.mem g)
    (hzero : ∀ i < 768, (s'.mem D i).toNat = 0)
    (hhalf : ∀ k < 256, s'.mem D (768 + k) = s.mem L.dirFrame (768 + k)) :
    TablesOwned L (insert D dirs) s' := by
  have hhigh := L.high
  have hkept : ∀ g, s.allocated g = true → s'.allocated g = true := by
    intro g hg
    rw [ha, State.allocated_take, hg, Bool.true_or]
  have hnot : ∀ g, s.allocated g = true → g ≠ D := by
    rintro g hg rfl
    rw [hclear] at hg
    cases hg
  have hold : ∀ c ∈ dirs, ∀ k, s'.pde c k = s.pde c k := fun c hc k =>
    State.pde_congr (by rw [hmem c (hnot c (h.dirFrame c hc).2)])
  have hnone : ∀ i < 768, s'.pde D i = none := by
    intro i hi
    rw [State.pde_eq_none_iff, hzero i hi]
  have hupper : ∀ k < 256, s'.pde D (768 + k) = some (L.dirFrame + 2 + k) := by
    intro k hk
    rw [← h.pde_kernel hk]
    unfold State.pde
    rw [hhalf k hk]
  -- The tables of the new directory are the reserved ones.
  have hnew : ∀ i < 1024, ∀ t, s'.pde D i = some t → 768 ≤ i ∧ t = L.dirFrame + 2 + (i - 768) := by
    intro i hi t ht
    by_cases hlt : i < 768
    · rw [hnone i hlt] at ht
      cases ht
    · have hk := hupper (i - 768) (by omega)
      rw [show 768 + (i - 768) = i by omega, ht] at hk
      exact ⟨by omega, Option.some.inj hk⟩
  have hreserved : ∀ k < 256, L.dirFrame + 2 + k < 0x40000 ∧
      s.allocated (L.dirFrame + 2 + k) = true := fun k hk =>
    h.tableFrame _ h.kernel _ (by omega) _ (h.pde_kernel hk)
  have hdirect : L.DirectMap s' := by
    refine h.direct.congr (fun k _ => ?_) (fun k hk => ?_)
    · rw [hmem _ (hnot _ (h.dirFrame _ h.kernel).2)]
    · exact hmem _ (hnot _ (hreserved k hk).2)
  exact
    { direct := hdirect
      image := fun f hf => hkept f (h.image f hf)
      kernel := Or.inr h.kernel
      dirFrame := by
        rintro c (rfl | hc)
        · exact ⟨hlow, by simp [ha]⟩
        · exact ⟨(h.dirFrame c hc).1, hkept c (h.dirFrame c hc).2⟩
      tableFrame := by
        rintro c (rfl | hc) i hi t ht
        · obtain ⟨hge, heq⟩ := hnew i hi t ht
          obtain ⟨hlt, hmark⟩ := hreserved (i - 768) (by omega)
          rw [heq]
          exact ⟨hlt, hkept _ hmark⟩
        · rw [hold c hc] at ht
          exact ⟨(h.tableFrame c hc i hi t ht).1, hkept t (h.tableFrame c hc i hi t ht).2⟩
      unshared := by
        rintro c (rfl | hc) i hi c' (rfl | hc') j hj t ht ht'
        · rfl
        · rw [hnone i hi] at ht
          cases ht
        · rw [hold c hc] at ht
          obtain ⟨hge, heq⟩ := hnew j hj t ht'
          exact absurd heq.symm (h.ne_reserved hc hi ht (show j - 768 < 256 by omega))
        · rw [hold c hc] at ht
          rw [hold c' hc'] at ht'
          exact h.unshared c hc i hi c' hc' j hj t ht ht'
      single := by
        rintro c (rfl | hc) i hi j hj t ht ht'
        · rw [hnone i hi] at ht
          cases ht
        · rw [hold c hc] at ht ht'
          exact h.single c hc i hi j hj t ht ht'
      apart := by
        rintro c (rfl | hc) i hi t ht
        · obtain ⟨hge, heq⟩ := hnew i hi t ht
          have hker := h.pde_kernel (show i - 768 < 256 by omega)
          rw [heq]
          rintro (hself | hin)
          · exact hnot _ (hreserved (i - 768) (by omega)).2 hself
          · exact h.apart _ h.kernel _ (by omega) _ hker hin
        · rw [hold c hc] at ht
          rintro (rfl | hin)
          · exact hnot t (h.tableFrame c hc i hi t ht).2 rfl
          · exact h.apart c hc i hi t ht hin
      spareDir := by
        rintro (heq | hin)
        · exact hnot _ (h.image _ (by unfold Layout.kernelFrames; omega)) heq
        · exact h.spareDir hin
      spare := by
        rintro c (rfl | hc) i hi ht
        · obtain ⟨hge, heq⟩ := hnew i hi _ ht
          omega
        · rw [hold c hc] at ht
          exact h.spare c hc i hi ht }

/-! ### Adding a table -/

/-- `map_page` found table `t` at entry `(d, i)` of `s`, or left `s₁` with a new one there. -/
inductive Supplied (L : Layout) (dirs : Set ℕ) (s : State) (d i fl t : ℕ) (s₁ : State) : Prop where
  | present (ht : s.pde d i = some t) (hs : s₁ = s)
  | added (hnone : s.pde d i = none) (hlow : t < 0x40000) (hdir : t ∉ dirs)
      (hnew : ∀ c ∈ dirs, ∀ j < 1024, s.pde c j ≠ some t)
      (hspare : t = L.dirFrame + 1 → d = L.dirFrame ∧ i = 0)
      (hmem : s₁.mem = (s.write d i (t * 4096 + fl)).mem)
      (hmark : s₁.allocated t = true)
      (hkept : ∀ g, s.allocated g = true → s₁.allocated g = true)

section Supply

variable {L : Layout} {dirs : Set ℕ} {s s₁ : State} {d i fl t : ℕ}

theorem TablesOwned.supplied (h : TablesOwned L dirs s) (hd : d ∈ dirs) (hi : i < 768)
    (hfl : fl < 4096) (hodd : fl % 2 = 1) (hs : Supplied L dirs s d i fl t s₁) :
    TablesOwned L dirs s₁ ∧ s₁.pde d i = some t ∧
      ∀ c ∈ dirs, ∀ q < 0x100000, ∀ e, s.entryAt c q = some e → s₁.entryAt c q = some e := by
  cases hs with
  | present ht hs =>
      subst hs
      exact ⟨h, ht, fun _ _ _ _ _ he => he⟩
  | added hnone hlow hdir hnew hspare hmem hmark hkept =>
      have hpde : ∀ c j, s₁.pde c j = if c = d ∧ j = i then some t else s.pde c j := by
        intro c j
        rw [State.pde_congr (congrFun (congrFun hmem c) j), State.pde_write _ (by omega) (by omega)]
        rw [show (t * 4096 + fl) / 4096 = t by omega]
      have hframe : ∀ {c j u}, c ∈ dirs → j < 1024 → s.pde c j = some u → s₁.mem u = s.mem u := by
        intro c j u hc hj hu
        rw [hmem, State.mem_write_ne_frame _ _ _ (h.ne_dir hc hj hu hd).symm]
      refine ⟨?_, by rw [hpde, if_pos ⟨rfl, rfl⟩], ?_⟩
      · exact
          { direct := h.direct.congr
              (fun k hk => by rw [hmem, State.mem_write, if_neg (by omega)])
              (fun k hk => hframe h.kernel (by omega) (h.pde_kernel hk))
            image := fun f hf => hkept f (h.image f hf)
            kernel := h.kernel
            dirFrame := fun c hc => ⟨(h.dirFrame c hc).1, hkept c (h.dirFrame c hc).2⟩
            tableFrame := fun c hc k hk u hu => by
              rw [hpde] at hu
              split_ifs at hu with hck
              · cases hu; exact ⟨hlow, hmark⟩
              · exact ⟨(h.tableFrame c hc k hk u hu).1, hkept u (h.tableFrame c hc k hk u hu).2⟩
            unshared := fun c hc k hk c' hc' k' hk' u hu hu' => by
              rw [hpde] at hu hu'
              split_ifs at hu hu' with h1 h2 h2
              · rw [h1.1, h2.1]
              · cases hu; exact absurd hu' (hnew c' hc' k' hk')
              · cases hu'; exact absurd hu (hnew c hc k (by omega))
              · exact h.unshared c hc k hk c' hc' k' hk' u hu hu'
            single := fun c hc k hk k' hk' u hu hu' => by
              rw [hpde] at hu hu'
              split_ifs at hu hu' with h1 h2 h2
              · rw [h1.2, h2.2]
              · cases hu; exact absurd hu' (hnew c hc k' hk')
              · cases hu'; exact absurd hu (hnew c hc k (by omega))
              · exact h.single c hc k hk k' hk' u hu hu'
            apart := fun c hc k hk u hu => by
              rw [hpde] at hu
              split_ifs at hu with hck
              · cases hu; exact hdir
              · exact h.apart c hc k hk u hu
            spareDir := h.spareDir
            spare := fun c hc k hk hu => by
              rw [hpde] at hu
              split_ifs at hu with hck
              · cases hu
                rw [hck.1, hck.2]
                exact hspare rfl
              · exact h.spare c hc k hk hu }
      · intro c hc q hq e he
        rw [State.entryAt_eq_some_iff] at he ⊢
        obtain ⟨u, hu, hcell⟩ := he
        refine ⟨u, ?_, ?_⟩
        · rw [hpde, if_neg, hu]
          rintro ⟨rfl, hk⟩
          rw [hk, hnone] at hu
          cases hu
        · rw [hframe hc (by omega) hu]
          exact hcell

end Supply

/-! ### The three ways `map_page` gets its table -/

section Run

variable {L : Layout} {s : State} {d p f fl : ℕ}

theorem Layout.DirectMap.setEntry_run (h : L.DirectMap s) {t : ℕ} (ht : t < 0x40000)
    (hfl : fl < 4096) :
    (do
      L.store (u32 (KERNEL_BASE + t * 4096 + 4 * (p % 1024))) (f * 4096 ||| fl)
      modify (·.install (KERNEL_BASE + d * 4096) (p * 4096) (f * 4096 ||| fl)) : Kernel Unit) s =
      .ok () ((s.write t (p % 1024) (f * 4096 + fl)).install (KERNEL_BASE + d * 4096) (p * 4096)
        (f * 4096 + fl)) := by
  have hj : p % 1024 < 1024 := Nat.mod_lt _ (by norm_num)
  rw [direct_word ht hj, run_bind_ok (h.store_direct _ ht hj), frame_or f hfl]
  rfl

theorem Layout.DirectMap.mapPage_present (h : L.DirectMap s) {t : ℕ} (hd : d < 0x40000)
    (hp : p < 0xC0000) (hf : f < 0xC0000) (hfl : fl < 4096) (ht : s.pde d (p / 1024) = some t)
    (hlow : t < 0x40000) :
    L.mapPage (KERNEL_BASE + d * 4096) (p * 4096) (f * 4096) fl s =
      .ok () ((s.write t (p % 1024) (f * 4096 + fl)).install (KERNEL_BASE + d * 4096) (p * 4096)
        (f * 4096 + fl)) := by
  obtain ⟨hpres, hframe⟩ := State.pde_eq_some_iff.mp ht
  unfold Layout.mapPage
  rw [if_neg (by unfold KERNEL_BASE; omega), if_neg (by omega)]
  simp only [dir_index, table_index]
  rw [run_bind_ok (h.load_direct hd (show p / 1024 < 1024 by omega)),
    if_pos (by rw [and_one_eq]; exact hpres), entry_frame (s.mem d (p / 1024)).isLt, hframe,
    direct_address hlow, pure_bind]
  exact h.setEntry_run hlow hfl

/-- Entry 0 of the kernel directory is absent: the spare table of the image takes its place. -/
theorem Layout.DirectMap.mapPage_spare (h : L.DirectMap s) (hp : p < 1024) (hf : f < 0xC0000)
    (hfl : fl < 4096) (hnone : s.pde L.dirFrame 0 = none)
    (h' : L.DirectMap (s.write L.dirFrame 0 ((L.dirFrame + 1) * 4096 + fl))) :
    L.mapPage (KERNEL_BASE + L.dirFrame * 4096) (p * 4096) (f * 4096) fl s =
      .ok () (((s.write L.dirFrame 0 ((L.dirFrame + 1) * 4096 + fl)).write (L.dirFrame + 1)
        (p % 1024) (f * 4096 + fl)).install (KERNEL_BASE + L.dirFrame * 4096) (p * 4096)
        (f * 4096 + fl)) := by
  have hhigh := L.high
  have habs := State.pde_eq_none_iff.mp hnone
  have hi : p / 1024 = 0 := by omega
  have hspare : u32Sub L.kernelPageTable 0xC0000000 = (L.dirFrame + 1) * 4096 := by
    unfold u32Sub Layout.kernelPageTable Layout.kernelPageDir KERNEL_BASE
    omega
  have htable : L.kernelPageTable = KERNEL_BASE + (L.dirFrame + 1) * 4096 := by
    unfold Layout.kernelPageTable Layout.kernelPageDir
    omega
  unfold Layout.mapPage
  rw [if_neg (by unfold KERNEL_BASE; omega), if_neg (by omega)]
  simp only [dir_index, table_index, hi]
  rw [run_bind_ok (h.load_direct (by omega) (by norm_num)), if_neg (by rw [and_one_eq]; omega),
    if_pos ⟨rfl, trivial⟩, hspare, frame_or _ hfl,
    run_bind_ok (h.store_direct _ (by omega) (by norm_num)), pure_bind, htable]
  exact h'.setEntry_run (by omega) hfl

/-- The entry is absent: the lowest clear frame becomes the table. -/
theorem Layout.DirectMap.mapPage_fresh (h : L.DirectMap s) (himg : L.ImageMarked s) {t : ℕ}
    (hd : d < 0x40000) (hp : p < 0xC0000) (hf : f < 0xC0000) (hfl : fl < 4096)
    (hnone : s.pde d (p / 1024) = none) (hk : ¬ (d = L.dirFrame ∧ p / 1024 = 0))
    (ht : s.FirstFree t) (hlow : t < 0x40000)
    (h' : L.DirectMap (((s.take t).noteTable (t * 4096)).write d (p / 1024) (t * 4096 + fl))) :
    L.mapPage (KERNEL_BASE + d * 4096) (p * 4096) (f * 4096) fl s =
      .ok () (((((s.take t).noteTable (t * 4096)).write d (p / 1024) (t * 4096 + fl)).write t
        (p % 1024) (f * 4096 + fl)).install (KERNEL_BASE + d * 4096) (p * 4096)
        (f * 4096 + fl)) := by
  have habs := State.pde_eq_none_iff.mp hnone
  have hkd : ¬ (KERNEL_BASE + d * 4096 = L.kernelPageDir ∧ p / 1024 = 0) := by
    rintro ⟨he, h0⟩
    exact hk ⟨by unfold Layout.kernelPageDir at he; omega, h0⟩
  have htake : L.getNextFreeKernelFrame s = .ok (t * 4096) (s.take t) := by
    rw [L.kernelFrame_eq himg ht (by omega), takeFrame_low (by omega)]
  have hdirect : L.DirectMap ((s.take t).noteTable (t * 4096)) :=
    h.congr (fun _ _ => rfl) (fun _ _ => rfl)
  unfold Layout.mapPage
  rw [if_neg (by unfold KERNEL_BASE; omega), if_neg (by omega)]
  simp only [dir_index, table_index]
  rw [run_bind_ok (h.load_direct hd (show p / 1024 < 1024 by omega)),
    if_neg (by rw [and_one_eq]; omega), if_neg hkd, run_bind_ok htake, run_bind_ok (run_modify _ _), frame_or _ hfl,
    run_bind_ok (hdirect.store_direct _ hd (by omega)), pure_bind, direct_address hlow]
  exact h'.setEntry_run hlow hfl

end Run

/-! ### `map_page` -/

section MapPage

variable {L : Layout} {dirs : Set ℕ} {s : State} {d p f fl : ℕ}

theorem TablesOwned.direct_supplied (h : TablesOwned L dirs s) (hd : d ∈ dirs) {i v : ℕ}
    (hi : i < 768) {s₁ : State} (hmem : s₁.mem = (s.write d i v).mem) : L.DirectMap s₁ := by
  refine h.direct.congr (fun k hk => ?_) (fun k hk => ?_)
  · rw [hmem, State.mem_write, if_neg (by omega)]
  · rw [hmem, State.mem_write_ne_frame _ _ _
      (h.ne_dir h.kernel (by omega) (h.pde_kernel hk) hd).symm]

/-- `map_page` finds a table, or installs the spare table of the image or the lowest clear frame,
then writes the entry. -/
theorem TablesOwned.mapPage_run (h : TablesOwned L dirs s) (hd : d ∈ dirs) (hp : p < 0xC0000)
    (hf : f < 0xC0000) (hfl : fl < 4096)
    (hroom : (s.pde d (p / 1024)).isSome ∨ (d = L.dirFrame ∧ p / 1024 = 0) ∨
      ∃ g < 0x40000, s.allocated g = false) :
    ∃ t s₁, Supplied L dirs s d (p / 1024) fl t s₁ ∧
      (s.pde d (p / 1024) = none →
        if d = L.dirFrame ∧ p / 1024 = 0 then t = L.dirFrame + 1 else s.FirstFree t) ∧
      (∀ g, s₁.allocated g = true → s.allocated g = true ∨ g = t) ∧
      L.mapPage (KERNEL_BASE + d * 4096) (p * 4096) (f * 4096) fl s =
        .ok () ((s₁.write t (p % 1024) (f * 4096 + fl)).install (KERNEL_BASE + d * 4096)
          (p * 4096) (f * 4096 + fl)) := by
  have hlow := (h.dirFrame d hd).1
  have hhigh := L.high
  cases hpde : s.pde d (p / 1024) with
  | some t =>
      exact ⟨t, s, .present hpde rfl, (fun hnone => by cases hnone), fun _ hg => .inl hg,
        h.direct.mapPage_present hlow hp hf hfl hpde (h.tableFrame d hd _ (by omega) t hpde).1⟩
  | none =>
      by_cases hk : d = L.dirFrame ∧ p / 1024 = 0
      · obtain ⟨rfl, h0⟩ := hk
        have hmark : s.allocated (L.dirFrame + 1) = true :=
          h.image _ (by unfold Layout.kernelFrames; omega)
        rw [h0] at hpde ⊢
        refine ⟨L.dirFrame + 1, _, .added hpde (by omega) h.spareDir (fun c hc j hj hcj => ?_)
          (fun _ => ⟨rfl, rfl⟩) rfl hmark (fun g hg => hg),
          fun _ => by rw [if_pos ⟨rfl, rfl⟩], fun _ hg => .inl hg,
          h.direct.mapPage_spare (by omega) hf hfl hpde (h.direct_supplied hd (by omega) rfl)⟩
        obtain ⟨rfl, rfl⟩ := h.spare c hc j hj hcj
        rw [hpde] at hcj
        cases hcj
      · obtain ⟨g, hg, hclear⟩ : ∃ g < 0x40000, s.allocated g = false := by
          rcases hroom with hsome | hker | hex
          · rw [hpde] at hsome; cases hsome
          · exact absurd hker hk
          · exact hex
        obtain ⟨t, hle, ht⟩ := exists_first hclear
        have hnot : ∀ u, s.allocated u = true → u ≠ t := by
          rintro u hu rfl
          rw [ht.1] at hu
          cases hu
        refine ⟨t, ((s.take t).noteTable (t * 4096)).write d (p / 1024) (t * 4096 + fl),
          .added hpde (by omega) (fun hin => ?_) (fun c hc j hj hcj => ?_) (fun hsp => ?_) rfl ?_
            (fun u hu => ?_), fun _ => by rw [if_neg hk]; exact ht, fun u hu => ?_,
          h.direct.mapPage_fresh h.image hlow hp hf hfl hpde hk ht (by omega)
            (h.direct_supplied hd (by omega) rfl)⟩
        · exact hnot t (h.dirFrame t hin).2 rfl
        · exact hnot t (h.tableFrame c hc j hj t hcj).2 rfl
        · exact absurd hsp.symm (hnot _ (h.image _ (by unfold Layout.kernelFrames; omega)))
        · simp [State.allocated_take]
        · simp [State.allocated_take, hu]
        · simpa [State.allocated_take] using hu

/-- What one call leaves behind: the table it was supplied with, the walk of the page and the
walks of the other pages. -/
theorem TablesOwned.mapPage_step (h : TablesOwned L dirs s) (hd : d ∈ dirs) (hp : p < 0xC0000)
    (hf : f < 0xC0000) (hfl : fl < 4096) (hodd : fl % 2 = 1)
    (hroom : (s.pde d (p / 1024)).isSome ∨ (d = L.dirFrame ∧ p / 1024 = 0) ∨
      ∃ g < 0x40000, s.allocated g = false) :
    ∃ t s₁ s', L.mapPage (KERNEL_BASE + d * 4096) (p * 4096) (f * 4096) fl s = .ok () s' ∧
      Supplied L dirs s d (p / 1024) fl t s₁ ∧ s'.mem d = s₁.mem d ∧
      s'.walk d (p * 4096) = some (f * 4096 + fl) ∧
      (∀ c ∈ dirs, ∀ q < 0x100000, ∀ e, ¬ (c = d ∧ q = p) → s.walk c (q * 4096) = some e →
        s'.walk c (q * 4096) = some e) ∧
      TablesOwned L dirs s' := by
  obtain ⟨t, s₁, hsup, -, -, hrun⟩ := h.mapPage_run hd hp hf hfl hroom
  obtain ⟨h₁, ht, hkept⟩ := h.supplied hd (by omega) hfl hodd hsup
  have h₂ := h₁.setEntry hd (by omega) ht (p % 1024) (f * 4096 + fl)
  refine ⟨t, s₁, _, hrun, hsup, ?_, ?_, fun c hc q hq e hne he => ?_, ?_⟩
  · exact State.mem_write_ne_frame _ _ _ (h₁.ne_dir hd (by omega) ht hd)
  · exact h₁.entryAt_same hd hp ht (by omega) (by omega)
  · exact (h₁.entryAt_other hd hp ht _ hc hq hne).trans (hkept c hc q hq e he)
  · exact h₂.transfer (h₂.direct.congr (fun _ _ => rfl) (fun _ _ => rfl)) (fun g hg => hg)
      (fun _ _ _ => rfl)

/-- `map_page` installs one translation and disturbs none: the walk of `d` at page `p` ends at
the given frame and flags, every other page of every directory that was present is where it
was, and the tables are owned as before. -/
theorem TablesOwned.mapPage_installs (h : TablesOwned L dirs s) (hd : d ∈ dirs)
    (hp : p < 0xC0000) (hf : f < 0xC0000) (hfl : fl < 4096) (hodd : fl % 2 = 1)
    (hroom : (s.pde d (p / 1024)).isSome ∨ (d = L.dirFrame ∧ p / 1024 = 0) ∨
      ∃ g < 0x40000, s.allocated g = false) :
    ∃ s', L.mapPage (KERNEL_BASE + d * 4096) (p * 4096) (f * 4096) fl s = .ok () s' ∧
      s'.walk d (p * 4096) = some (f * 4096 ||| fl) ∧
      (∀ c ∈ dirs, ∀ q < 0x100000, ∀ e, ¬ (c = d ∧ q = p) → s.walk c (q * 4096) = some e →
        s'.walk c (q * 4096) = some e) ∧
      TablesOwned L dirs s' := by
  obtain ⟨_, _, s', hrun, -, -, hwalk, hkept, howned⟩ := h.mapPage_step hd hp hf hfl hodd hroom
  refine ⟨s', hrun, ?_, hkept, howned⟩
  rw [hwalk, frame_or f hfl]

end MapPage

/-! ### The heap's own directories -/

/-- The page tables of the heap and of the processes are owned. -/
theorem PageInv.tablesOwned {L : Layout} {use : ℕ → Use} {s : State} (h : PageInv L use s) :
    TablesOwned L {d | L.IsDir use d} s := by
  have hhigh := L.high
  have hkernel : ∀ c, L.IsDir use c → ∀ k < 256, s.pde c (768 + k) = some (L.dirFrame + 2 + k) := by
    intro c hc k hk
    have hker : s.pde L.dirFrame (768 + k) = some (L.dirFrame + 2 + k) := by
      rw [State.pde_eq_some_iff, h.direct.dir k hk]
      omega
    rcases hc with rfl | ⟨o, ho⟩
    · exact hker
    · rw [State.pde_eq_some_iff] at hker ⊢
      rw [h.half c o ho k hk]
      exact hker
  -- A table is labelled with its entry, or is one of the reserved tables.
  have hcases : ∀ c, L.IsDir use c → ∀ i < 1024, ∀ t, s.pde c i = some t →
      (i < 768 ∧ use t = .table c i) ∨ (∃ k < 256, i = 768 + k ∧ t = L.dirFrame + 2 + k) := by
    intro c hc i hi t ht
    by_cases hlow : i < 768
    · exact Or.inl ⟨hlow, (h.pde c i hc hlow t).mp ht⟩
    · have hk := hkernel c hc (i - 768) (by omega)
      rw [show 768 + (i - 768) = i by omega, ht] at hk
      exact Or.inr ⟨i - 768, by omega, by omega, Option.some.inj hk⟩
  have halloc : ∀ f, (use f).Structural → f < 0x40000 → s.allocated f = true := fun f hf hlt =>
    (h.alloc f (by omega)).mpr (by intro he; rw [he] at hf; exact hf)
  refine ⟨⟨h.direct, h.image, Or.inl rfl, fun d hd => ⟨h.dir_low hd, ?_⟩,
    fun c hc i hi t ht => ?_, fun c hc i hi c' hc' j hj t ht ht' => ?_⟩,
    fun c hc i hi j hj t ht ht' => ?_, fun c hc i hi t ht hin => ?_, fun hin => ?_,
    fun c hc i hi ht => ?_⟩
  · exact halloc d (h.structural_of_isDir hd) (h.dir_low hd)
  · rcases hcases c hc i hi t ht with ⟨_, hu⟩ | ⟨k, hk, _, rfl⟩
    · exact ⟨h.tableLow t _ _ hu, halloc t (by rw [hu]; trivial) (h.tableLow t _ _ hu)⟩
    · exact ⟨by omega, halloc _ (by rw [h.use_reserved hk]; trivial) (by omega)⟩
  · have hu := (h.pde c i hc hi t).mp ht
    rcases hcases c' hc' j hj t ht' with ⟨_, hu'⟩ | ⟨k, hk, _, rfl⟩
    · rw [hu] at hu'
      exact (Use.table.inj hu').1.symm
    · rw [h.use_reserved hk] at hu
      cases hu
  · have hu := (h.pde c i hc hi t).mp ht
    rcases hcases c hc j hj t ht' with ⟨_, hu'⟩ | ⟨k, hk, _, rfl⟩
    · rw [hu] at hu'
      exact (Use.table.inj hu').2.symm
    · rw [h.use_reserved hk] at hu
      cases hu
  · have htable : ∀ o, use t ≠ .dir o := by
      intro o ho
      rcases hcases c hc i hi t ht with ⟨_, hu⟩ | ⟨k, hk, _, rfl⟩
      · rw [hu] at ho; cases ho
      · rw [h.use_reserved hk] at ho; cases ho
    rcases hin with rfl | ⟨o, ho⟩
    · rcases hcases c hc i hi _ ht with ⟨_, hu⟩ | ⟨k, hk, _, he⟩
      · rw [h.use_dirFrame] at hu; cases hu
      · omega
    · exact htable o ho
  · have hu : use (L.dirFrame + 1) = .kernel := h.kernel_of_lt (by unfold Layout.kernelFrames; omega)
    rcases hin with he | ⟨o, ho⟩
    · omega
    · rw [hu] at ho; cases ho
  · have hu : use (L.dirFrame + 1) = .kernel := h.kernel_of_lt (by unfold Layout.kernelFrames; omega)
    rcases hcases c hc i hi _ ht with ⟨_, hu'⟩ | ⟨k, hk, _, he⟩
    · rw [hu] at hu'; cases hu'
    · omega

theorem TablesOwned.mapPage_installs_boot :
    ∃ s s', Layout.lowest.boot (State.powerOn fun _ _ => 0) = .ok () s ∧
      Layout.lowest.mapPage (KERNEL_BASE + 256 * 4096) (5 * 4096) (9000 * 4096) 3 s = .ok () s' ∧
      s'.walk 256 (5 * 4096) = some (9000 * 4096 ||| 3) := by
  obtain ⟨use, m, s, hrun, hboot⟩ := Layout.lowest.boot_spec fun _ _ => 0
  have howned := hboot.heap.pages.inv.tablesOwned
  have hclear : s.allocated 7000 = false := by
    rw [hboot.used 7000 (by norm_num), decide_eq_false_iff_not]
    have := hboot.few
    omega
  have hodd : 3 % 2 = 1 := rfl
  obtain ⟨s', hmap, hwalk, -, -⟩ := howned.mapPage_installs (d := 256) (p := 5) (f := 9000)
    howned.kernel (by norm_num) (by norm_num) (by norm_num) hodd
    (Or.inr (Or.inr ⟨7000, by norm_num, hclear⟩))
  exact ⟨s, s', hrun, hmap, hwalk⟩

/-! ### Shared tables -/

/-- `map_page` of page `p` in the kernel directory changes the entry of page `q` of directory
`c`, although the state meets `TablesUnshared` and has a clear frame below 1 GB. -/
def Disturbs (dirs : Set ℕ) (s : State) (p f c q : ℕ) : Prop :=
  TablesUnshared Layout.lowest dirs s ∧ c ∈ dirs ∧ ¬ (c = 256 ∧ q = p) ∧
    (∃ g < 0x40000, s.allocated g = false) ∧
    ∃ s', Layout.lowest.mapPage (KERNEL_BASE + 256 * 4096) (p * 4096) (f * 4096) 3 s = .ok () s' ∧
      ∃ e, s.entryAt c q = some e ∧ s'.entryAt c q ≠ some e

/-- A machine with the direct map and no page below the kernel half. -/
structure KernelOnly (s : State) : Prop where
  direct : Layout.lowest.DirectMap s
  empty : ∀ i < 768, s.pde 256 i = none
  used : s.UsedBelow 514

theorem exists_kernelOnly : ∃ s, KernelOnly s := by
  obtain ⟨_, s, _, _, h, -⟩ := Booting.start Layout.lowest fun _ _ => 0
  refine ⟨s, h.heap.inv.direct, fun i hi => ?_, h.used⟩
  cases hpde : s.pde 256 i with
  | none => rfl
  | some t =>
      have ht := (h.heap.inv.pde 256 i (Or.inl rfl) hi t).mp hpde
      rcases Layout.lowest.imageUse_cases t with ⟨hu, _⟩ | ⟨hu, _⟩ <;> rw [hu] at ht <;> cases ht

theorem State.toNat_write (s : State) {f i v : ℕ} (hv : v < 2 ^ 32) :
    ((s.write f i v).mem f i).toNat = v := by
  rw [State.mem_write_same, BitVec.toNat_ofNat, Nat.mod_eq_of_lt hv]

@[simp] theorem State.pde_install (s : State) (d va e c j : ℕ) :
    (s.install d va e).pde c j = s.pde c j := rfl

theorem State.pde_write_ne (s : State) {d c : ℕ} (i v j : ℕ) (h : c ≠ d) :
    (s.write d i v).pde c j = s.pde c j :=
  State.pde_congr (by rw [State.mem_write_ne_frame _ _ _ h])

/-- With the kernel directory alone nothing can be shared between directories. -/
theorem TablesUnshared.of_kernel {s : State} (hdir : Layout.lowest.DirectMap s)
    (hused : ∀ g, g < 514 ∨ g = 600 → s.allocated g = true)
    (hentry : ∀ i < 768, ∀ u, s.pde 256 i = some u → u = 256 ∨ u = 600) :
    TablesUnshared Layout.lowest {256} s := by
  refine ⟨hdir, fun g hg => hused g (Or.inl hg), rfl, ?_, ?_, ?_⟩
  · rintro d rfl
    exact ⟨by norm_num, hused 256 (by norm_num)⟩
  · rintro d rfl i hi u hu
    by_cases hlow : i < 768
    · rcases hentry i hlow u hu with rfl | rfl
      · exact ⟨by norm_num, hused 256 (by norm_num)⟩
      · exact ⟨by norm_num, hused 600 (by norm_num)⟩
    · have hword := hdir.dir (i - 768) (by omega)
      rw [show 768 + (i - 768) = i by omega] at hword
      obtain ⟨-, rfl⟩ := State.pde_eq_some_iff.mp hu
      rw [show (s.mem 256 i).toNat = (256 + 2 + (i - 768)) * 4096 + 3 from hword,
        show ((256 + 2 + (i - 768)) * 4096 + 3) / 4096 = 258 + (i - 768) by omega]
      exact ⟨by omega, hused _ (by omega)⟩
  · rintro d rfl i _ c rfl j _ u _ _
    rfl

section Shared

variable {s : State}

theorem KernelOnly.direct_write {t : State} (h : Layout.lowest.DirectMap t) {f i v : ℕ}
    (hf : f = 256 ∧ i < 768 ∨ 514 ≤ f ∨ f = 257) : Layout.lowest.DirectMap (t.write f i v) := by
  refine h.congr (fun k hk => ?_) (fun k hk => ?_)
  · rw [State.mem_write, if_neg]
    rintro ⟨he, hk'⟩
    have : (256 : ℕ) = f := he
    omega
  · refine State.mem_write_ne_frame _ _ _ ?_
    intro he
    have : 256 + 2 + k = f := he
    omega

theorem KernelOnly.direct_take (h : KernelOnly s) (f : ℕ) : Layout.lowest.DirectMap (s.take f) :=
  h.direct.congr (fun _ _ => rfl) (fun _ _ => rfl)

theorem KernelOnly.pde_take (h : KernelOnly s) (f : ℕ) {i : ℕ} (hi : i < 768) :
    (s.take f).pde 256 i = none :=
  h.empty i hi

theorem KernelOnly.allocated_take (h : KernelOnly s) (f : ℕ) {g : ℕ} (hg : g < 0x40000) :
    (s.take f).allocated g = decide (g < 514 ∨ g = f) := by
  rw [State.allocated_take, h.used g (by omega), Bool.decide_or]

/-- Entries 64 and 65 of the kernel directory share the table in frame 600. -/
theorem KernelOnly.disturbs_entries (h : KernelOnly s) :
    Disturbs {256} ((((s.take 600).write 256 64 (600 * 4096 + 3)).write 256 65 (600 * 4096 + 3)).write
      600 5 0x7003) (64 * 1024 + 5) 9000 256 (65 * 1024 + 5) := by
  set t₂ := ((s.take 600).write 256 64 (600 * 4096 + 3)).write 256 65 (600 * 4096 + 3) with ht₂
  have hdir₂ : Layout.lowest.DirectMap t₂ :=
    direct_write (direct_write (h.direct_take 600) (by norm_num)) (by norm_num)
  have hdir : Layout.lowest.DirectMap (t₂.write 600 5 0x7003) := direct_write hdir₂ (by norm_num)
  have hpde : ∀ j < 768, (t₂.write 600 5 0x7003).pde 256 j =
      if j = 64 ∨ j = 65 then some 600 else none := by
    intro j hj
    rw [State.pde_write_ne _ _ _ _ (by norm_num), ht₂, State.pde_write _ (by norm_num) (by norm_num),
      State.pde_write _ (by norm_num) (by norm_num), h.pde_take 600 hj]
    split_ifs <;> first | rfl | omega
  have hmark : ∀ g < 0x40000, (t₂.write 600 5 0x7003).allocated g = decide (g < 514 ∨ g = 600) :=
    fun g hg => h.allocated_take 600 hg
  refine ⟨.of_kernel hdir (fun g hg => ?_) (fun i hi u hu => ?_), rfl, by norm_num,
    ⟨601, by norm_num, by rw [hmark 601 (by norm_num)]; decide⟩, _,
    hdir.mapPage_present (t := 600) (by norm_num) (by norm_num) (by norm_num) (by norm_num)
      (hpde 64 (by norm_num)) (by norm_num), 0x7003, ?_, ?_⟩
  · rw [hmark g (by omega)]
    simpa using hg
  · rw [hpde i hi] at hu
    split_ifs at hu
    cases hu
    exact Or.inr rfl
  · rw [State.entryAt_eq_some_iff]
    refine ⟨600, hpde 65 (by norm_num), ?_⟩
    rw [show (65 * 1024 + 5) % 1024 = 5 by norm_num, State.toNat_write _ (by norm_num)]
    norm_num
  · rw [Ne, State.entryAt_eq_some_iff]
    rintro ⟨u, hu, -, hcell⟩
    rw [State.pde_install, State.pde_write_ne _ _ _ _ (by norm_num), hpde _ (by norm_num)] at hu
    obtain rfl : 600 = u := Option.some.inj hu
    rw [State.mem_install, show (65 * 1024 + 5) % 1024 = (64 * 1024 + 5) % 1024 by norm_num,
      State.toNat_write _ (by norm_num)] at hcell
    norm_num at hcell

/-- Entry 100 of the kernel directory is the directory itself. -/
theorem KernelOnly.disturbs_recursive (h : KernelOnly s) :
    Disturbs {256} (((((s.take 600).write 256 100 (256 * 4096 + 3)).write 256 5
      (600 * 4096 + 3)).write 600 0 0x7003).write 700 0 0x9003) (100 * 1024 + 5) 700 256
      (5 * 1024) := by
  set t₂ := ((s.take 600).write 256 100 (256 * 4096 + 3)).write 256 5 (600 * 4096 + 3) with ht₂
  set t := (t₂.write 600 0 0x7003).write 700 0 0x9003 with ht
  have hdir₂ : Layout.lowest.DirectMap t₂ :=
    direct_write (direct_write (h.direct_take 600) (by norm_num)) (by norm_num)
  have hdir : Layout.lowest.DirectMap t :=
    direct_write (direct_write hdir₂ (by norm_num)) (by norm_num)
  have hpde : ∀ j < 768, t.pde 256 j =
      if j = 5 then some 600 else if j = 100 then some 256 else none := by
    intro j hj
    rw [ht, State.pde_write_ne _ _ _ _ (by norm_num), State.pde_write_ne _ _ _ _ (by norm_num),
      ht₂, State.pde_write _ (by norm_num) (by norm_num),
      State.pde_write _ (by norm_num) (by norm_num), h.pde_take 600 hj]
    split_ifs <;> first | rfl | omega
  have hmark : ∀ g < 0x40000, t.allocated g = decide (g < 514 ∨ g = 600) :=
    fun g hg => h.allocated_take 600 hg
  refine ⟨.of_kernel hdir (fun g hg => ?_) (fun i hi u hu => ?_), rfl, by norm_num,
    ⟨601, by norm_num, by rw [hmark 601 (by norm_num)]; decide⟩, _,
    hdir.mapPage_present (t := 256) (by norm_num) (by norm_num) (by norm_num) (by norm_num)
      (hpde 100 (by norm_num)) (by norm_num), 0x7003, ?_, ?_⟩
  · rw [hmark g (by omega)]
    simpa using hg
  · rw [hpde i hi] at hu
    split_ifs at hu <;> cases hu
    · exact Or.inr rfl
    · exact Or.inl rfl
  · rw [State.entryAt_eq_some_iff]
    refine ⟨600, hpde 5 (by norm_num), ?_⟩
    rw [show 5 * 1024 % 1024 = 0 by norm_num, ht, State.mem_write_ne_frame _ _ _ (by norm_num),
      State.toNat_write _ (by norm_num)]
    norm_num
  · rw [Ne, State.entryAt_eq_some_iff]
    rintro ⟨u, hu, -, hcell⟩
    -- The new entry is the directory entry of the disturbed page.
    rw [State.pde_install, show (100 * 1024 + 5) % 1024 = 5 * 1024 / 1024 by norm_num,
      State.pde_write _ (by norm_num) (by norm_num), if_pos ⟨rfl, rfl⟩] at hu
    obtain rfl : 700 = u := Option.some.inj hu
    rw [State.mem_install, State.mem_write_ne_frame _ _ _ (by norm_num),
      show 5 * 1024 % 1024 = 0 by norm_num, ht, State.toNat_write _ (by norm_num)] at hcell
    norm_num at hcell

/-- Clear the words of a frame. -/
def State.wipe (s : State) (f : ℕ) : State :=
  { s with mem := fun g => if g = f then fun _ => 0 else s.mem g }

/-- Entry 5 of the directory in frame 600 is the spare table of the kernel image. -/
theorem KernelOnly.disturbs_spare (h : KernelOnly s) :
    Disturbs {256, 600} ((((s.take 600).wipe 600).write 600 5 (257 * 4096 + 3)).write 257 7 0x7003)
      7 9000 600 (5 * 1024 + 7) := by
  set t₁ := (s.take 600).wipe 600 with ht₁
  set t := (t₁.write 600 5 (257 * 4096 + 3)).write 257 7 0x7003 with ht
  have hdir₁ : Layout.lowest.DirectMap t₁ :=
    h.direct.congr (fun _ _ => rfl) (fun k hk => if_neg (by show ¬ 256 + 2 + k = 600; omega))
  have hdir : Layout.lowest.DirectMap t :=
    direct_write (direct_write hdir₁ (by norm_num)) (by norm_num)
  have hkernel : ∀ j < 768, t.pde 256 j = none := by
    intro j hj
    rw [ht, State.pde_write_ne _ _ _ _ (by norm_num), State.pde_write_ne _ _ _ _ (by norm_num)]
    exact h.empty j hj
  have hsecond : ∀ j, t.pde 600 j = if j = 5 then some 257 else none := by
    intro j
    rw [ht, State.pde_write_ne _ _ _ _ (by norm_num), State.pde_write _ (by norm_num) (by norm_num)]
    split_ifs <;> first | rfl | omega
  have hmark : ∀ g < 0x40000, t.allocated g = decide (g < 514 ∨ g = 600) :=
    fun g hg => h.allocated_take 600 hg
  have hhalf : ∀ k < 256, t.pde 256 (768 + k) = some (258 + k) := by
    intro k hk
    have hword : (t.mem 256 (768 + k)).toNat = (256 + 2 + k) * 4096 + 3 := hdir.dir k hk
    rw [State.pde_eq_some_iff, hword]
    omega
  -- The tables of the kernel directory are the reserved ones.
  have hcase : ∀ i < 1024, ∀ u, t.pde 256 i = some u → 768 ≤ i ∧ u = 258 + (i - 768) := by
    intro i hi u hu
    by_cases hlow : i < 768
    · rw [hkernel i hlow] at hu; cases hu
    · have hk := hhalf (i - 768) (by omega)
      rw [show 768 + (i - 768) = i by omega, hu] at hk
      exact ⟨by omega, Option.some.inj hk⟩
  have hcase' : ∀ i u, t.pde 600 i = some u → u = 257 := by
    intro i u hu
    rw [hsecond] at hu
    split_ifs at hu
    exact (Option.some.inj hu).symm
  refine ⟨⟨hdir, fun g hg => ?_, Or.inl rfl, ?_, ?_, ?_⟩, Or.inr rfl, by norm_num,
    ⟨601, by norm_num, by rw [hmark 601 (by norm_num)]; decide⟩, _,
    hdir.mapPage_spare (by norm_num) (by norm_num) (by norm_num) (hkernel 0 (by norm_num))
      (direct_write hdir (by norm_num [Layout.lowest])), 0x7003, ?_, ?_⟩
  · have : g < 514 := hg
    rw [hmark g (by omega)]
    simpa using Or.inl this
  · rintro d (rfl | rfl)
    · exact ⟨by norm_num, hmark 256 (by norm_num)⟩
    · exact ⟨by norm_num, hmark 600 (by norm_num)⟩
  · rintro d (rfl | rfl) i hi u hu
    · obtain ⟨hge, he⟩ := hcase i hi u hu
      exact ⟨by omega, by rw [hmark u (by omega)]; exact decide_eq_true (by omega)⟩
    · rw [hcase' i u hu]
      exact ⟨by norm_num, hmark 257 (by norm_num)⟩
  · rintro d (rfl | rfl) i hi c (rfl | rfl) j hj u hu hu'
    · rfl
    · have := (hcase i (by omega) u hu).1
      omega
    · rw [hcase' i u hu] at hu'
      have := (hcase j hj _ hu').2
      omega
    · rfl
  · rw [State.entryAt_eq_some_iff]
    refine ⟨257, hsecond 5, ?_⟩
    rw [show (5 * 1024 + 7) % 1024 = 7 by norm_num, ht, State.toNat_write _ (by norm_num)]
    norm_num
  · rw [Ne, State.entryAt_eq_some_iff]
    rintro ⟨u, hu, -, hcell⟩
    rw [State.pde_install, State.pde_write_ne _ _ _ _ (by norm_num [Layout.lowest]),
      State.pde_write_ne _ _ _ _ (by norm_num [Layout.lowest]), hsecond] at hu
    obtain rfl : 257 = u := Option.some.inj hu
    rw [State.mem_install, show (5 * 1024 + 7) % 1024 = 7 % 1024 by norm_num] at hcell
    have hnew := State.toNat_write (t.write 256 0 ((256 + 1) * 4096 + 3)) (f := 257) (i := 7 % 1024)
      (v := 9000 * 4096 + 3) (by norm_num)
    have heq := hnew.symm.trans hcell
    norm_num at heq

/-- `map_page` disturbs other pages when two entries share a table, when a directory is its own
table, and when the spare table of the image is in use elsewhere. -/
theorem mapPage_disturbs_shared :
    ∃ s₁ s₂ s₃, Disturbs {256} s₁ (64 * 1024 + 5) 9000 256 (65 * 1024 + 5) ∧
      Disturbs {256} s₂ (100 * 1024 + 5) 700 256 (5 * 1024) ∧
      Disturbs {256, 600} s₃ 7 9000 600 (5 * 1024 + 7) := by
  obtain ⟨s, h⟩ := exists_kernelOnly
  exact ⟨_, _, _, h.disturbs_entries, h.disturbs_recursive, h.disturbs_spare⟩

end Shared

end RaxzusHeap
