import RaxzusHeap.PageInv

/-! # What `map_page` and `large_unmap_page` do

Under `PageInv`, `map_page` installs the entry of its page (`mapPage_ends`).  If the table
of the page is missing it takes the lowest clear frame for it.  A table below 1 GB is
reachable through the direct map; from 1 GB on the address of the table wraps around to
below `0x10000000`, where the kernel directory maps nothing, and the machine stops with a
page fault (`Faulted`).  `Room … 0x50000` excludes the case further up, where the wrapped
address lands in the heap. -/

namespace RaxzusHeap

open Imperative Bits FirstFit

/-- The two states agree on the kernel variables other than the bitmap. -/
structure SameVars (s s' : State) : Prop where
  domains : s'.domains = s.domains
  large : s'.large = s.large
  currentIndex : s'.currentIndex = s.currentIndex
  processLists : s'.processLists = s.processLists

theorem SameVars.refl (s : State) : SameVars s s := ⟨rfl, rfl, rfl, rfl⟩

theorem SameVars.trans {s₁ s₂ s₃ : State} (h₁ : SameVars s₁ s₂) (h₂ : SameVars s₂ s₃) :
    SameVars s₁ s₃ :=
  ⟨h₂.domains.trans h₁.domains, h₂.large.trans h₁.large, h₂.currentIndex.trans h₁.currentIndex,
    h₂.processLists.trans h₁.processLists⟩

theorem SameVars.take (s : State) (f : ℕ) : SameVars s (s.take f) := ⟨rfl, rfl, rfl, rfl⟩

/-- A page fault inside `map_page` for page `p` leaves the direct map alone; the frame for the
table is gone. -/
structure Faulted (L : Layout) (p : ℕ) (s s' : State) : Prop where
  direct : L.DirectMap s'
  lost : ∃ g, s.allocated g = false ∧ s'.allocated g = true
  maps : ∀ d q e, s'.maps d q = some e → s.maps d q = some e ∨ q = p
  vars : SameVars s s'

/-- `map_page` found the table of entry `(d, i)`, or took a frame for it. -/
inductive Table (use : ℕ → Use) (s : State) (d i : ℕ) (use' : ℕ → Use) (s' : State) : Prop where
  | found {t : ℕ} (ht : use t = .table d i) (hu : use' = use)
      (ha : ∀ g, s'.allocated g = s.allocated g)
  | taken {t : ℕ} (hnone : ∀ g, use g ≠ .table d i) (hfirst : s.FirstFree t) (hlt : t < 0x40000)
      (hu : use' = Function.update use t (.table d i))
      (ha : ∀ g, s'.allocated g = (s.take t).allocated g)

/-- Word `j` of frame `g` is none that paging has written: the frame is free, or a table in
which no entry is installed there. -/
def Unwritten (use : ℕ → Use) (s : State) (g j : ℕ) : Prop :=
  use g = .free ∨ ∃ d i, use g = .table d i ∧ s.maps d (i * 1024 + j) = none

/-- No such word looks like a present entry. -/
def CleanMemory (use : ℕ → Use) (s : State) : Prop :=
  ∀ g j, j < 1024 → Unwritten use s g j → (s.mem g j).toNat % 2 = 0

/-- The step leaves the words alone that paging has not written by its end, and draws no table
from a frame with old entries if none of these words is one. -/
structure Spares (use : ℕ → Use) (s : State) (use' : ℕ → Use) (s' : State) : Prop where
  back : ∀ g j, Unwritten use' s' g j → Unwritten use s g j
  words : ∀ g j, j < 1024 → Unwritten use' s' g j → s'.mem g j = s.mem g j
  clean : CleanMemory use s → s'.stale = s.stale

theorem Spares.refl (use : ℕ → Use) (s : State) : Spares use s use s :=
  ⟨fun _ _ h => h, fun _ _ _ _ => rfl, fun _ => rfl⟩

theorem Spares.cleanMemory {use use' : ℕ → Use} {s s' : State} (h : Spares use s use' s')
    (hs : CleanMemory use s) : CleanMemory use' s' := by
  intro g j hj hu
  rw [h.words g j hj hu]
  exact hs g j hj (h.back g j hu)

theorem Spares.trans {u₁ u₂ u₃ : ℕ → Use} {s₁ s₂ s₃ : State} (h₁ : Spares u₁ s₁ u₂ s₂)
    (h₂ : Spares u₂ s₂ u₃ s₃) : Spares u₁ s₁ u₃ s₃ where
  back g j h := h₁.back g j (h₂.back g j h)
  words g j hj h := (h₂.words g j hj h).trans (h₁.words g j hj (h₂.back g j h))
  clean h := (h₂.clean (h₁.cleanMemory h)).trans (h₁.clean h)

theorem Spares.of_mem {use : ℕ → Use} {s s' : State} (hmaps : s'.maps = s.maps)
    (hstale : s'.stale = s.stale)
    (hmem : ∀ g, use g = .free ∨ (∃ d i, use g = .table d i) → s'.mem g = s.mem g) :
    Spares use s use s' := by
  refine ⟨fun g j h => ?_, fun g j _ h => ?_, fun _ => hstale⟩
  · unfold Unwritten at h ⊢
    rwa [hmaps] at h
  · rw [hmem g (h.imp_right fun ⟨d, i, ht, _⟩ => ⟨d, i, ht⟩)]

theorem Spares.take {use : ℕ → Use} {s : State} {f : ℕ} {u : Use} (hf : use f = .free)
    (hu : u ≠ .free) (hut : ∀ d i, u ≠ .table d i) {s' : State} (hmaps : s'.maps = s.maps)
    (hstale : s'.stale = s.stale) (hmem : ∀ g, g ≠ f → s'.mem g = s.mem g) :
    Spares use s (Function.update use f u) s' := by
  have hne : ∀ g j, Unwritten (Function.update use f u) s' g j → g ≠ f := by
    rintro _ j h rfl
    rcases h with h | ⟨d, i, h, -⟩ <;> rw [Function.update_self] at h
    · exact hu h
    · exact hut d i h
  refine ⟨fun g j h => ?_, fun g j _ h => by rw [hmem g (hne g j h)], fun _ => hstale⟩
  have hg := hne g j h
  unfold Unwritten at h ⊢
  rwa [Function.update_of_ne hg, hmaps] at h

theorem State.dirty_eq_false {s : State} {f : ℕ}
    (h : ∀ j < 1024, (s.mem f j).toNat % 2 = 0) : s.dirty f = false := by
  rw [State.dirty, List.any_eq_false]
  intro j hj
  rw [h j (List.mem_range.mp hj)]
  decide

/-- The effect of a successful `map_page` of page `p` in directory `d` with entry `e`. -/
structure Mapped (use : ℕ → Use) (s : State) (d p e : ℕ) (use' : ℕ → Use) (s' : State) :
    Prop where
  table : Table use s d (p / 1024) use' s'
  maps : ∀ c q, s'.maps c q = if c = d ∧ q = p then some e else s.maps c q
  data : ∀ g, (use g).Data → s'.mem g = s.mem g
  vars : SameVars s s'
  stale : s'.stale = false → s.stale = false
  spares : Spares use s use' s'

/-- The labels after a step that may have added tables. -/
structure Extends (use use' : ℕ → Use) : Prop where
  kept : ∀ g, use g ≠ .free → use' g = use g
  fresh : ∀ g, use g = .free → use' g = .free ∨ ∃ d i, use' g = .table d i

theorem Extends.refl (use : ℕ → Use) : Extends use use := ⟨fun _ _ => rfl, fun _ h => Or.inl h⟩

theorem Extends.trans {u₁ u₂ u₃ : ℕ → Use} (h₁ : Extends u₁ u₂) (h₂ : Extends u₂ u₃) :
    Extends u₁ u₃ := by
  refine ⟨fun g hg => ?_, fun g hg => ?_⟩
  · rw [h₂.kept g (by rw [h₁.kept g hg]; exact hg), h₁.kept g hg]
  · rcases h₁.fresh g hg with h | ⟨d, i, h⟩
    · exact h₂.fresh g h
    · exact Or.inr ⟨d, i, by rw [h₂.kept g (by rw [h]; simp), h]⟩

theorem Extends.iff {use use' : ℕ → Use} (h : Extends use use') {v : Use} (hv : v ≠ .free)
    (hvt : ∀ d i, v ≠ .table d i) (g : ℕ) : use' g = v ↔ use g = v := by
  by_cases hg : use g = .free
  · rcases h.fresh g hg with hg' | ⟨d, i, hg'⟩
    · rw [hg, hg']
    · rw [hg, hg']
      exact ⟨fun e => absurd e.symm (hvt d i), fun e => absurd e.symm hv⟩
  · rw [h.kept g hg]

theorem Table.extends {use use' : ℕ → Use} {s s' : State} {d i : ℕ} (L : Layout)
    (hp : PageInv L use s) (h : Table use s d i use' s') : Extends use use' := by
  cases h with
  | found ht hu ha => subst hu; exact Extends.refl _
  | @taken t hnone hfirst hlt hu ha =>
      subst hu
      have hfree := hp.use_of_clear (by omega) hfirst.1
      refine ⟨fun g hg => ?_, fun g hg => ?_⟩
      · rw [Function.update_of_ne (by rintro rfl; exact hg hfree)]
      · by_cases hgt : g = t
        · subst hgt; exact Or.inr ⟨d, i, by simp⟩
        · rw [Function.update_of_ne hgt]; exact Or.inl hg

/-! ### Addresses -/

theorem dir_index (p : ℕ) : (p * 4096) >>> 22 = p / 1024 := by
  rw [Nat.shiftRight_eq_div_pow]; omega

theorem table_index (p : ℕ) : ((p * 4096) >>> 12) &&& 0x3FF = p % 1024 := by
  rw [Nat.shiftRight_eq_div_pow, show (0x3FF : ℕ) = 2 ^ 10 - 1 by norm_num, and_low_eq]
  omega

theorem entry_frame {e : ℕ} (he : e < 2 ^ 32) : e &&& 0xFFFFF000 = e / 4096 * 4096 := by
  rw [show (0xFFFFF000 : ℕ) = 2 ^ 32 - 2 ^ 12 by norm_num, and_high_eq (by norm_num) he]
  norm_num

theorem frame_or (f : ℕ) {fl : ℕ} (hfl : fl < 4096) : f * 4096 ||| fl = f * 4096 + fl := by
  rw [show f * 4096 = f * 2 ^ 12 by norm_num, mul_pow_or_eq_add _ (by omega)]

theorem direct_word {t j : ℕ} (ht : t < 0x40000) (hj : j < 1024) :
    u32 (KERNEL_BASE + t * 4096 + 4 * j) = KERNEL_BASE + t * 4096 + 4 * j :=
  u32_of_lt (by unfold KERNEL_BASE; omega)

/-! ### Writing the entry -/

theorem Layout.setEntry_run (L : Layout) {use : ℕ → Use} {s : State} (h : PageInv L use s)
    {t d p f fl : ℕ} (ht : use t = .table d (p / 1024)) (hfl : fl < 4096) :
    (do
      L.store (u32 (KERNEL_BASE + t * 4096 + 4 * (p % 1024))) (f * 4096 ||| fl)
      modify (·.install (KERNEL_BASE + d * 4096) (p * 4096) (f * 4096 ||| fl)) : Kernel Unit) s =
      .ok () ((s.write t (p % 1024) (f * 4096 + fl)).install (KERNEL_BASE + d * 4096) (p * 4096)
        (f * 4096 + fl)) := by
  have hlow := h.tableLow t _ _ ht
  have hj : p % 1024 < 1024 := Nat.mod_lt _ (by norm_num)
  rw [direct_word hlow hj, run_bind_ok (h.direct.store_direct _ hlow hj), frame_or f hfl]
  rfl

theorem PageInv.install {L : Layout} {use : ℕ → Use} {s : State} (h : PageInv L use s)
    {t d p f fl : ℕ} (ht : use t = .table d (p / 1024)) (hfl : fl < 4096) (hodd : fl % 2 = 1)
    (hf : use f = .page p ∨ use f = .priv d p) :
    PageInv L use ((s.write t (p % 1024) (f * 4096 + fl)).install (KERNEL_BASE + d * 4096)
      (p * 4096) (f * 4096 + fl)) := by
  have hflt : f < 0x80000 := h.range f (by rcases hf with hf | hf <;> rw [hf] <;> simp)
  have hdiv : (f * 4096 + fl) / 4096 = f := by omega
  exact h.setEntry ht (by omega) (by omega) (by rw [hdiv]; exact hf)

/-- What writing the entry adds to the effect of getting the table. -/
theorem Mapped.of_table {L : Layout} {use use' : ℕ → Use} {s s₁ : State} {t d p e : ℕ}
    (h : PageInv L use s) (hd : L.IsDir use d) (htab : Table use s d (p / 1024) use' s₁)
    (hmaps : s₁.maps = s.maps) (hmem : ∀ g, g ≠ d → s₁.mem g = s.mem g)
    (hvars : SameVars s s₁) (hstale : s₁.stale = false → s.stale = false)
    (hclean : CleanMemory use s → s₁.stale = s.stale) (ht : use' t = .table d (p / 1024)) :
    Mapped use s d p e use'
      ((s₁.write t (p % 1024) e).install (KERNEL_BASE + d * 4096) (p * 4096) e) := by
  have hext := htab.extends L h
  have hds := h.structural_of_isDir hd
  refine ⟨?_, fun c q => ?_, fun g hg => ?_, ?_, hstale,
    ⟨fun g j hw => ?_, fun g j hj hw => ?_, hclean⟩⟩
  · cases htab with
    | found h1 h2 h3 => exact .found h1 h2 h3
    | taken h1 h2 h3 h4 h5 => exact .taken h1 h2 h3 h4 h5
  · rw [State.maps_install, State.maps_write, hmaps]
  · have hgt : g ≠ t := by
      rintro rfl
      rw [hext.kept g (by intro e; rw [e] at hg; exact hg)] at ht
      rw [ht] at hg
      exact hg
    have hgd : g ≠ d := by
      rintro rfl
      revert hg hds
      cases use g <;> simp [Use.Data, Use.Structural]
    rw [State.mem_install, State.mem_write_ne_frame _ _ _ hgt, hmem g hgd]
  · exact ⟨hvars.domains, hvars.large, hvars.currentIndex, hvars.processLists⟩
  · by_cases hg : use g = .free
    · exact .inl hg
    · unfold Unwritten at hw ⊢
      rw [hext.kept g hg] at hw
      refine hw.imp_right ?_
      rintro ⟨c, i, hc, hnone⟩
      refine ⟨c, i, hc, ?_⟩
      rw [State.maps_install, State.maps_write, hmaps] at hnone
      split_ifs at hnone
      exact hnone
  · have hgd : g ≠ d := by
      rintro rfl
      have hfree : use g ≠ .free := fun e => by rw [e] at hds; exact hds
      rcases hw with hw | ⟨c, i, hw, -⟩ <;> rw [hext.kept g hfree] at hw
      · exact hfree hw
      · exact h.not_isDir_of_table hw hd
    rw [State.mem_install, State.mem_write, if_neg, hmem g hgd]
    rintro ⟨rfl, rfl⟩
    -- the word that is written has an entry installed
    rcases hw with hw | ⟨c, i, hw, hnone⟩ <;> rw [ht] at hw
    · cases hw
    · injection hw with hc hi
      rw [State.maps_install, if_pos ⟨hc.symm, by omega⟩] at hnone
      cases hnone

/-! ### `map_page` -/

section MapPage

variable {L : Layout} {use : ℕ → Use} {s : State}

theorem PageInv.load_pde (h : PageInv L use s) {d p : ℕ} (hd : L.IsDir use d)
    (hp : p < 0xC0000) :
    L.load (KERNEL_BASE + d * 4096 + 4 * (p / 1024)) s = .ok (s.mem d (p / 1024)).toNat s :=
  h.direct.load_direct (h.dir_low hd) (by omega)

/-- The address of the table taken from `[0x40000, 0x50000)` wraps to a place the kernel
directory does not map. -/
theorem PageInv.walk_wrapped (h : PageInv L use s) {t d i e j : ℕ} (h1 : 0x40000 ≤ t)
    (h2 : t < 0x50000) (hk : d = L.dirFrame → 64 ≤ i) (hj : j < 1024) :
    (((s.take t).noteTable (t * 4096)).write d i e).walk L.dirFrame
      (u32 (u32 (t * 4096 + 0xC0000000) + 4 * j)) = none := by
  have ha : u32 (t * 4096 + 0xC0000000) = (t - 0x40000) * 4096 := by
    unfold u32; omega
  have hb : u32 ((t - 0x40000) * 4096 + 4 * j) = (t - 0x40000) * 4096 + 4 * j :=
    u32_of_lt (by omega)
  rw [ha, hb]
  refine State.walk_of_pde_none ?_
  set k := ((t - 0x40000) * 4096 + 4 * j) / 2 ^ 22 with hkdef
  have hk64 : k < 64 := by omega
  have hmem : (((s.take t).noteTable (t * 4096)).write d i e).mem L.dirFrame k =
      s.mem L.dirFrame k := by
    by_cases hd : L.dirFrame = d
    · have := hk hd.symm
      rw [hd]
      exact State.mem_write_ne_index _ _ _ _ (by omega)
    · rw [State.mem_write_ne_frame _ _ _ hd]
      rfl
  rw [State.pde_congr hmem]
  cases hpde : s.pde L.dirFrame k with
  | none => rfl
  | some u =>
      have := h.heapTable u k ((h.pde _ _ (Or.inl rfl) (by omega) u).mp hpde)
      omega

/-- `map_page` installs the entry, or stops on a page table beyond 1 GB. -/
theorem Layout.mapPage_ends (h : PageInv L use s) {d p f fl m : ℕ} (hd : L.IsDir use d)
    (hp : p < 0xC0000) (hk : d = L.dirFrame → 0x10000 ≤ p)
    (hf : use f = .page p ∨ use f = .priv d p) (hfl : fl < 4096) (hodd : fl % 2 = 1)
    (hroom : s.pde d (p / 1024) = none → Room s.allocated 1 m) (hm : m ≤ 0x50000) :
    Ends (L.mapPage (KERNEL_BASE + d * 4096) (p * 4096) (f * 4096) fl) s
      (fun _ s' => ∃ use', Mapped use s d p (f * 4096 + fl) use' s' ∧ PageInv L use' s')
      (fun s' => 0x40000 < m ∧ Faulted L p s s') := by
  have hflt : f < 0x80000 := h.range f (by rcases hf with hf | hf <;> rw [hf] <;> simp)
  have hi : p / 1024 < 768 := by omega
  have hki : d = L.dirFrame → 64 ≤ p / 1024 := fun e => by have := hk e; omega
  unfold Layout.mapPage
  rw [if_neg (by unfold KERNEL_BASE; omega), if_neg (by omega)]
  simp only [dir_index, table_index]
  refine Ends.bind_ok (h.load_pde hd hp) ?_
  have hlt32 : (s.mem d (p / 1024)).toNat < 2 ^ 32 := (s.mem d (p / 1024)).isLt
  cases hpde : s.pde d (p / 1024) with
  | some t =>
      obtain ⟨hpres, ht⟩ := State.pde_eq_some_iff.mp hpde
      have htab := (h.pde d _ hd hi t).mp hpde
      rw [if_pos (by rw [and_one_eq]; exact hpres), entry_frame hlt32, ht,
        direct_address (h.tableLow t _ _ htab), pure_bind]
      refine Ends.of_ok (L.setEntry_run h htab hfl) ⟨use, ?_, h.install htab hfl hodd hf⟩
      exact Mapped.of_table h hd (.found htab rfl (fun _ => rfl)) rfl (fun _ _ => rfl)
        (SameVars.refl s) id (fun _ => rfl) htab
  | none =>
      have habs := State.pde_eq_none_iff.mp hpde
      obtain ⟨t, htm, hfirst⟩ := (hroom hpde).exists_first
      have hfree := h.use_of_clear (by omega) hfirst.1
      have hnot : ¬ (KERNEL_BASE + d * 4096 = L.kernelPageDir ∧ p / 1024 = 0) := by
        rintro ⟨he, h0⟩
        have := hki (by unfold Layout.kernelPageDir at he; omega)
        omega
      rw [if_neg (by rw [and_one_eq]; omega), if_neg hnot]
      have htake : L.getNextFreeKernelFrame s = .ok (t * 4096) (s.take t) := by
        rw [L.kernelFrame_eq h.image hfirst (by omega), takeFrame_low (by omega)]
      simp only [pure_bind]
      refine Ends.bind_ok htake ?_
      refine Ends.bind_ok (run_modify _ _) ?_
      have hdirect : L.DirectMap ((s.take t).noteTable (t * 4096)) :=
        h.direct.congr (fun _ _ => rfl) (fun _ _ => rfl)
      refine Ends.bind_ok (hdirect.store_direct _ (h.dir_low hd) (by omega)) ?_
      rw [frame_or t hfl]
      by_cases hlow : t < 0x40000
      · have hnew : ∀ g, use g ≠ .table d (p / 1024) := fun g hg => by
          have := (h.pde d _ hd hi g).mpr hg
          rw [hpde] at this; cases this
        have h' := h.addTable hfree hlow hd hi hpde hki hfl hodd
        have htab : Function.update use t (Use.table d (p / 1024)) t = .table d (p / 1024) :=
          Function.update_self ..
        have hft : f ≠ t := by
          rintro rfl
          rcases hf with hf | hf <;> rw [hfree] at hf <;> cases hf
        have hf' : Function.update use t (Use.table d (p / 1024)) f = .page p ∨
            Function.update use t (Use.table d (p / 1024)) f = .priv d p := by
          rw [Function.update_of_ne hft]; exact hf
        rw [direct_address hlow]
        refine Ends.of_ok (L.setEntry_run h' htab hfl) ⟨_, ?_, h'.install htab hfl hodd hf'⟩
        refine Mapped.of_table h hd (.taken hnew hfirst hlow rfl (fun _ => rfl)) rfl
          (fun g hg => State.mem_write_ne_frame _ _ _ hg) ⟨rfl, rfl, rfl, rfl⟩
          (fun hst => (Bool.or_eq_false_iff.mp hst).1) (fun hclean => ?_) htab
        have hdirty : (s.take t).dirty t = false :=
          State.dirty_eq_false fun j hj => hclean t j hj (.inl hfree)
        show (s.stale || (s.take t).dirty (t * 4096 / 4096)) = s.stale
        rw [Nat.mul_div_cancel _ (by norm_num), hdirty, Bool.or_false]
      · refine Ends.of_error (run_bind_error (L.store_fault _
          (h.walk_wrapped (by omega) (by omega) hki (Nat.mod_lt _ (by norm_num))))) ?_
        have hlost : (s.take t).allocated t = true := by
          rw [State.allocated_take]
          simp
        refine ⟨by omega, ?_, ⟨t, hfirst.1, hlost⟩, fun _ _ _ hm => Or.inl hm,
          ⟨rfl, rfl, rfl, rfl⟩⟩
        refine h.direct_of_mem (fun j _ => ?_) (fun g hg hgd => ?_)
        · by_cases hdd : L.dirFrame = d
          · rw [hdd]
            exact State.mem_write_ne_index _ _ _ _ (by omega)
          · rw [State.mem_write_ne_frame _ _ _ hdd]
            rfl
        · rw [State.mem_write_ne_frame _ _ _ ?_]
          · rfl
          · rintro rfl
            rcases hd with rfl | ⟨o, ho⟩
            · exact hgd rfl
            · rw [hg] at ho; cases ho

end MapPage

/-! ### Mapping a page twice -/

section MapBoth

variable {L : Layout} {use : ℕ → Use} {s : State}

theorem Table.room {use' : ℕ → Use} {s' : State} {d i n m : ℕ} (h : Table use s d i use' s')
    (hroom : Room s.allocated (n + 1) m) : Room s'.allocated n m := by
  cases h with
  | found ht hu ha =>
      have hsame : s'.allocated = s.allocated := funext ha
      rw [hsame]
      exact hroom.mono (by omega) le_rfl
  | taken hnone hfirst hlt hu ha =>
      exact hroom.take (fun g => by rw [ha, State.allocated_take])

theorem State.clear_of_take {f g : ℕ} (hg : (s.take f).allocated g = false) :
    s.allocated g = false := by
  rw [State.allocated_take, Bool.or_eq_false_iff] at hg
  exact hg.1

theorem Table.clear {use' : ℕ → Use} {s' : State} {d i g : ℕ} (h : Table use s d i use' s')
    (hg : s'.allocated g = false) : s.allocated g = false := by
  cases h with
  | found _ _ ha => rwa [ha] at hg
  | taken _ _ _ _ ha =>
      rw [ha] at hg
      exact State.clear_of_take hg

/-- The tables that page `p` still needs in directory `D` and in the kernel directory. -/
def State.newTables (s : State) (L : Layout) (D p : ℕ) : ℕ :=
  (if s.pde D (p / 1024) = none then 1 else 0) + if s.pde L.dirFrame (p / 1024) = none then 1 else 0

theorem State.newTables_le (s : State) (L : Layout) (D p : ℕ) : s.newTables L D p ≤ 2 := by
  unfold State.newTables
  split_ifs <;> omega

theorem State.room_newTables {D p m : ℕ} {L : Layout} (hroom : Room s.allocated 3 m) :
    s.newTables L D p ≠ 0 → Room s.allocated (1 + s.newTables L D p) m := fun _ =>
  hroom.mono (by have := s.newTables_le L D p; omega) le_rfl

theorem PageInv.pde_none (h : PageInv L use s) {d i : ℕ} (hd : L.IsDir use d) (hi : i < 768) :
    s.pde d i = none ↔ ∀ t, use t ≠ .table d i := by
  constructor
  · intro hnone t ht
    rw [(h.pde d i hd hi t).mpr ht] at hnone
    cases hnone
  · intro hnot
    cases hpde : s.pde d i with
    | none => rfl
    | some t => exact absurd ((h.pde d i hd hi t).mp hpde) (hnot t)

theorem Table.room_found {use' : ℕ → Use} {s' : State} {d i t n m : ℕ}
    (h : Table use s d i use' s') (ht : use t = .table d i) (hroom : Room s.allocated n m) :
    Room s'.allocated n m := by
  cases h with
  | found _ hu ha =>
      have hsame : s'.allocated = s.allocated := funext ha
      rwa [hsame]
  | taken hnone hfirst hlt hu ha => exact absurd ht (hnone t)

theorem PageInv.processFrame (h : PageInv L use s) {n m : ℕ}
    (hroom : Room s.allocated (n + 1) m) (hm : m ≤ 0x80000) :
    ∃ f < m, s.FirstFree f ∧ use f = .free ∧ f * 4096 ≠ 0 ∧
      getNextFreeProcessFrame s = .ok (f * 4096) (s.take f) := by
  obtain ⟨f, hlt, hfirst⟩ := hroom.exists_first
  have hfree := h.use_of_clear (by omega) hfirst.1
  refine ⟨f, hlt, hfirst, hfree, ?_, ?_⟩
  · have : ¬ f < L.kernelFrames := fun hk => by
      rw [h.kernel_of_lt hk] at hfree; cases hfree
    have : L.kernelFrames = L.dirFrame + 258 := rfl
    omega
  · rw [L.processFrame_eq h.image hfirst (by omega), takeFrame_low (by omega)]

/-- Frame `f` was taken for heap page `p` and mapped in directory `D` and in the kernel
directory. -/
structure Grown (L : Layout) (D p f : ℕ) (use : ℕ → Use) (s : State) (use' : ℕ → Use)
    (s' : State) : Prop where
  inv : PageInv L use' s'
  labels : Extends (Function.update use f (.page p)) use'
  tables : ∃ u₁ s₁, Table (Function.update use f (.page p)) (s.take f) D (p / 1024) u₁ s₁ ∧
    Table u₁ s₁ L.dirFrame (p / 1024) use' s'
  maps : ∀ c q, s'.maps c q =
    if (c = D ∨ c = L.dirFrame) ∧ q = p then some (f * 4096 + 3) else s.maps c q
  data : ∀ g, (use g).Data → s'.mem g = s.mem g
  vars : SameVars s s'
  stale : s'.stale = false → s.stale = false
  spares : Spares use s use' s'

/-- The two calls of `map_page` that every heap page goes through. -/
theorem PageInv.mapBoth {α : Type} {k : Kernel α} {Q : α → State → Prop} {E : State → Prop}
    (h : PageInv L use s) {D p f m : ℕ} {o : Owner} (hD : use D = .dir o) (hf : use f = .free)
    (hflt : f < 0x80000) (hlo : 0x10000 ≤ p) (hhi : p < 0xC0000)
    (hroom : s.newTables L D p ≠ 0 → Room s.allocated (1 + s.newTables L D p) m)
    (hm : m ≤ 0x50000) (hk : ∀ use' s', Grown L D p f use s use' s' → Ends k s' Q E)
    (hE : ∀ s', 0x40000 < m → Faulted L p s s' → E s') :
    Ends (do
      L.mapPage (KERNEL_BASE + D * 4096) (p * 4096) (f * 4096) PAGE_KERNEL
      L.mapPage L.kernelPageDir (p * 4096) (f * 4096) PAGE_KERNEL
      k) (s.take f) Q E := by
  have h₀ := h.takeData (u := .page p) hf hflt trivial
  set u₀ := Function.update use f (Use.page p) with hu₀
  have hDf : D ≠ f := by rintro rfl; rw [hD] at hf; cases hf
  have hD₀ : L.IsDir u₀ D := Or.inr ⟨o, by rw [hu₀, Function.update_of_ne hDf]; exact hD⟩
  have hDK : D ≠ L.dirFrame := by rintro rfl; rw [h.use_dirFrame] at hD; cases hD
  have hdata₀ : ∀ g, (use g).Data → (u₀ g).Data := fun g hg => by
    have hgf : g ≠ f := by rintro rfl; rw [hf] at hg; exact hg
    rw [hu₀, Function.update_of_ne hgf]; exact hg
  have hp₀ : u₀ f = .page p := Function.update_self ..
  have hi : p / 1024 < 768 := by omega
  have hroom₀ : s.newTables L D p ≠ 0 → Room (s.take f).allocated (s.newTables L D p) m := by
    intro hne
    have hleft := hroom hne
    rw [Nat.add_comm] at hleft
    exact hleft.take fun g => s.allocated_take f g
  have hfirst : (s.take f).pde D (p / 1024) = none → Room (s.take f).allocated 1 m := by
    intro hnone
    have hone : 1 ≤ s.newTables L D p := by
      unfold State.newTables
      rw [if_pos (show s.pde D (p / 1024) = none from hnone)]
      exact Nat.le_add_right _ _
    exact (hroom₀ (by omega)).mono hone le_rfl
  refine Ends.bind (Ends.mono (Layout.mapPage_ends h₀ hD₀ hhi (fun e => absurd e hDK)
    (Or.inl hp₀) (by norm_num [PAGE_KERNEL]) (by norm_num [PAGE_KERNEL])
    hfirst hm) (fun _ _ hq => hq) (fun s' ⟨hlt, hflt⟩ => ?_)) ?_
  · obtain ⟨g, hg, hg'⟩ := hflt.lost
    exact hE s' hlt ⟨hflt.direct, ⟨g, State.clear_of_take hg, hg'⟩, hflt.maps,
      (SameVars.take s f).trans hflt.vars⟩
  rintro _ s₁ ⟨u₁, hmap₁, h₁⟩
  have hext₁ := hmap₁.table.extends L h₀
  have hp₁ : u₁ f = .page p := by rw [hext₁.kept f (by rw [hp₀]; simp), hp₀]
  have hsecond : s₁.pde L.dirFrame (p / 1024) = none → Room s₁.allocated 1 m := by
    intro hnone
    have hlabel := (h₁.pde_none (Or.inl rfl) hi).mp hnone
    have hnone₀ : (s.take f).pde L.dirFrame (p / 1024) = none := by
      refine (h₀.pde_none (Or.inl rfl) hi).mpr fun t ht => hlabel t ?_
      rw [hext₁.kept t (by rw [ht]; simp), ht]
    have hK : (if s.pde L.dirFrame (p / 1024) = none then 1 else 0) = 1 := if_pos hnone₀
    by_cases hD' : s.pde D (p / 1024) = none
    · have htwo : s.newTables L D p = 2 := by
        unfold State.newTables
        rw [if_pos hD', hK]
      rw [htwo] at hroom₀
      exact hmap₁.table.room (hroom₀ (by norm_num))
    · have hone : s.newTables L D p = 1 := by
        unfold State.newTables
        rw [if_neg hD', hK]
      rw [hone] at hroom₀
      obtain ⟨t, ht⟩ := Option.ne_none_iff_exists'.mp hD'
      have hfound := (h₀.pde D _ hD₀ hi t).mp ht
      exact hmap₁.table.room_found hfound (hroom₀ one_ne_zero)
  refine Ends.bind (Ends.mono (Layout.mapPage_ends h₁ (Or.inl rfl) hhi (fun _ => hlo)
    (Or.inl hp₁) (by norm_num [PAGE_KERNEL]) (by norm_num [PAGE_KERNEL])
    hsecond hm) (fun _ _ hq => hq) (fun s' ⟨hlt, hflt⟩ => ?_)) ?_
  · obtain ⟨g, hg, hg'⟩ := hflt.lost
    have hclear := State.clear_of_take (hmap₁.table.clear hg)
    refine hE s' hlt ⟨hflt.direct, ⟨g, hclear, hg'⟩, fun c q e hm => ?_,
      (SameVars.take s f).trans (hmap₁.vars.trans hflt.vars)⟩
    rcases hflt.maps c q e hm with hm | hq
    · rw [hmap₁.maps] at hm
      split_ifs at hm with hcq
      · exact Or.inr hcq.2
      · exact Or.inl hm
    · exact Or.inr hq
  rintro _ s₂ ⟨u₂, hmap₂, h₂⟩
  have hspare : Spares use s u₀ (s.take f) :=
    Spares.take (u := .page p) hf (by simp) (by simp) rfl rfl fun _ _ => rfl
  refine hk u₂ s₂ ⟨h₂, hext₁.trans (hmap₂.table.extends L h₁), ⟨u₁, s₁, hmap₁.table, hmap₂.table⟩,
    fun c q => ?_, fun g hg => ?_, ?_, fun hst => hmap₁.stale (hmap₂.stale hst),
    hspare.trans (hmap₁.spares.trans hmap₂.spares)⟩
  · rw [hmap₂.maps, hmap₁.maps, PAGE_KERNEL]
    by_cases hq : q = p
    · by_cases hcK : c = L.dirFrame
      · simp [hcK, hq]
      · by_cases hcD : c = D <;> simp [hcK, hcD, hq]; rfl
    · simp [hq]; rfl
  · have hg₀ := hdata₀ g hg
    have hg₁ : (u₁ g).Data := by
      rw [hext₁.kept g (by intro e; rw [e] at hg₀; exact hg₀)]; exact hg₀
    rw [hmap₂.data g hg₁, hmap₁.data g hg₀]
    rfl
  · exact (SameVars.take s f).trans (hmap₁.vars.trans hmap₂.vars)

end MapBoth

/-! ### Clearing an entry -/

section ClearEntry

variable {L : Layout} {use : ℕ → Use} {s : State}

/-- Up to the lookup of the table both forms of `clearEntry` are the same. -/
theorem Layout.clearEntry_run (h : PageInv L use s) {t d p : ℕ}
    (ht : use t = .table d (p / 1024)) (freeFrame : Bool) :
    L.clearEntry (KERNEL_BASE + d * 4096) (p * 4096) freeFrame s =
      (do
        if freeFrame then do
          let e ← L.load (KERNEL_BASE + t * 4096 + 4 * (p % 1024))
          let _ ← clearFrame (e &&& 0xFFFFF000)
          pure ()
        L.store (KERNEL_BASE + t * 4096 + 4 * (p % 1024)) 0
        modify (·.uninstall (KERNEL_BASE + d * 4096) (p * 4096)) : Kernel Unit) s := by
  obtain ⟨hd, hi⟩ := h.tableDir t d _ ht
  have hlow := h.tableLow t _ _ ht
  have hj : p % 1024 < 1024 := Nat.mod_lt _ (by norm_num)
  have hlt32 : (s.mem d (p / 1024)).toNat < 2 ^ 32 := (s.mem d (p / 1024)).isLt
  obtain ⟨hpres, hframe⟩ := State.pde_eq_some_iff.mp ((h.pde d _ hd hi t).mpr ht)
  unfold Layout.clearEntry
  simp only [dir_index, table_index]
  rw [run_bind_ok (h.load_pde hd (by omega)), if_pos (by rw [and_one_eq]; omega),
    entry_frame hlt32, hframe, direct_address hlow, direct_word hlow hj]

theorem Layout.clearEntry_keep (h : PageInv L use s) {t d p : ℕ}
    (ht : use t = .table d (p / 1024)) :
    L.clearEntry (KERNEL_BASE + d * 4096) (p * 4096) false s =
      .ok () ((s.write t (p % 1024) 0).uninstall (KERNEL_BASE + d * 4096) (p * 4096)) := by
  have hlow := h.tableLow t _ _ ht
  rw [L.clearEntry_run h ht]
  simp only [Bool.false_eq_true, if_false]
  rw [run_bind_ok (h.direct.store_direct _ hlow (Nat.mod_lt _ (by norm_num)))]
  rfl

/-- Clearing the entry of an installed page and releasing its frame. -/
theorem Layout.clearEntry_free (h : PageInv L use s) {t d p e : ℕ}
    (ht : use t = .table d (p / 1024)) (hm : s.maps d p = some e) :
    L.clearEntry (KERNEL_BASE + d * 4096) (p * 4096) true s =
      .ok () (((s.write t (p % 1024) 0).uninstall (KERNEL_BASE + d * 4096) (p * 4096)).unmark
        (e / 4096)) := by
  have hlow := h.tableLow t _ _ ht
  have hj : p % 1024 < 1024 := Nat.mod_lt _ (by norm_num)
  have hflt : e / 4096 < 0x80000 := h.range _ (by
    rcases h.backed d p e hm with hu | hu <;> rw [hu] <;> simp)
  obtain ⟨_, _, t', ht', hval⟩ := h.pte d p e hm
  have htt : t' = t := by
    have h1 := (h.pde d _ (h.tableDir t d _ ht).1 (h.tableDir t d _ ht).2 t).mpr ht
    rw [(h.pde d _ (h.tableDir t d _ ht).1 (h.tableDir t d _ ht).2 t').mpr ht'] at h1
    exact Option.some.inj h1
  rw [htt] at hval
  have he32 : e < 2 ^ 32 := by rw [← hval]; exact (s.mem t (p % 1024)).isLt
  obtain ⟨w, hw⟩ := clearFrame_low hflt s
  have hdirect : L.DirectMap (s.unmark (e / 4096)) :=
    h.direct.congr (fun _ _ => rfl) (fun _ _ => rfl)
  rw [L.clearEntry_run h ht]
  simp only [if_true]
  rw [run_bind_ok (h.direct.load_direct hlow hj), hval, entry_frame he32, run_bind_ok hw,
    run_bind_ok (hdirect.store_direct _ hlow hj)]
  rfl

end ClearEntry

end RaxzusHeap
