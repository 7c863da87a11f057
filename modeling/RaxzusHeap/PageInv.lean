import RaxzusHeap.DirectMap

/-! # What every frame is used for

`PageInv L use s` labels each physical frame with its single use: free, part of the kernel
image, a page directory, the page table of one directory entry, the backing of one heap
page, or a private page of a process.  Since a label is a function of the frame, two uses
of one frame are excluded by construction, and every separation argument (two pages do not
share a frame, no table is a data page, …) is the comparison of two labels.

The invariant ties the labels to the bitmap and to the words in memory: a directory entry
below the kernel half is present exactly when its table carries the label of that entry,
and the ghost map `maps` of installed pages is what the MMU's walk finds.

The lemmas of this file say how the elementary steps change the labels: taking a frame for
data (`takeData`) or for a table (`addTable`), writing or clearing a table entry
(`setEntry`, `resetEntry`), releasing a data frame (`freeData`), and making a directory
(`addDir`). -/

namespace RaxzusHeap

open Imperative

/-- Whose page directory it is. -/
inductive Owner where
  | cls (d : SizeClass)
  | large
  | proc
deriving DecidableEq, Repr

/-- What a frame is used for. -/
inductive Use where
  | free
  | kernel
  | dir (o : Owner)
  | table (d i : ℕ)
  | page (p : ℕ)
  | priv (d p : ℕ)
deriving DecidableEq, Repr

/-- The frames that paging itself lives in. -/
def Use.Structural : Use → Prop
  | .kernel => True
  | .dir _ => True
  | .table _ _ => True
  | _ => False

/-- The frames that hold data. -/
def Use.Data : Use → Prop
  | .page _ => True
  | .priv _ _ => True
  | _ => False

/-- Frame `d` holds a page directory. -/
def Layout.IsDir (L : Layout) (use : ℕ → Use) (d : ℕ) : Prop :=
  d = L.dirFrame ∨ ∃ o, use d = .dir o

/-- The invariant of the paging structures. -/
structure PageInv (L : Layout) (use : ℕ → Use) (s : State) : Prop where
  direct : L.DirectMap s
  alloc : ∀ f < 0x100000, (s.allocated f = true ↔ use f ≠ .free)
  range : ∀ f, use f ≠ .free → f < 0x80000
  kernel : ∀ f, use f = .kernel ↔ f < L.kernelFrames
  dirLow : ∀ f o, use f = .dir o → f < 0x40000
  tableLow : ∀ f d i, use f = .table d i → f < 0x40000
  pde : ∀ d i, L.IsDir use d → i < 768 → ∀ t, s.pde d i = some t ↔ use t = .table d i
  tableDir : ∀ t d i, use t = .table d i → L.IsDir use d ∧ i < 768
  heapTable : ∀ t i, use t = .table L.dirFrame i → 64 ≤ i
  half : ∀ d o, use d = .dir o → ∀ i < 256, s.mem d (768 + i) = s.mem L.dirFrame (768 + i)
  pte : ∀ d p e, s.maps d p = some e → p < 0xC0000 ∧ e % 2 = 1 ∧
    ∃ t, use t = .table d (p / 1024) ∧ (s.mem t (p % 1024)).toNat = e
  backed : ∀ d p e, s.maps d p = some e → use (e / 4096) = .page p ∨ use (e / 4096) = .priv d p
  exact : s.stale = false → ∀ t d i j, use t = .table d i → j < 1024 →
    (s.mem t j).toNat % 2 = 1 → ∃ e, s.maps d (i * 1024 + j) = some e

namespace PageInv

variable {L : Layout} {use use' : ℕ → Use} {s s' : State}

theorem image (h : PageInv L use s) : L.ImageMarked s := by
  intro f hf
  have hK := L.high
  have : f < 1024 := lt_of_lt_of_le hf hK
  rw [h.alloc f (by omega), (h.kernel f).mpr hf]
  exact Use.noConfusion

theorem kernel_of_lt (h : PageInv L use s) {f : ℕ} (hf : f < L.kernelFrames) :
    use f = .kernel := (h.kernel f).mpr hf

theorem use_dirFrame (h : PageInv L use s) : use L.dirFrame = .kernel :=
  h.kernel_of_lt (by unfold Layout.kernelFrames; omega)

theorem use_reserved (h : PageInv L use s) {i : ℕ} (hi : i < 256) :
    use (L.dirFrame + 2 + i) = .kernel :=
  h.kernel_of_lt (by unfold Layout.kernelFrames; omega)

theorem dir_low (h : PageInv L use s) {d : ℕ} (hd : L.IsDir use d) : d < 0x40000 := by
  rcases hd with rfl | ⟨o, ho⟩
  · have := L.high; omega
  · exact h.dirLow d o ho

theorem structural_of_isDir (h : PageInv L use s) {d : ℕ} (hd : L.IsDir use d) :
    (use d).Structural := by
  rcases hd with rfl | ⟨o, ho⟩
  · rw [h.use_dirFrame]; trivial
  · rw [ho]; trivial

theorem use_of_clear (h : PageInv L use s) {f : ℕ} (hlt : f < 0x100000)
    (hf : s.allocated f = false) : use f = .free := by
  by_contra hne
  have := (h.alloc f hlt).mpr hne
  rw [hf] at this; cases this

theorem clear_of_free (h : PageInv L use s) {f : ℕ} (hlt : f < 0x100000) (hf : use f = .free) :
    s.allocated f = false := by
  by_contra hne
  exact (h.alloc f hlt).mp (by simpa using hne) hf

/-! ### The walk of an installed page -/

theorem walk_of_maps (h : PageInv L use s) {d p e off : ℕ} (hm : s.maps d p = some e)
    (hoff : off < 4096) : s.walk d (p * 4096 + off) = some e := by
  obtain ⟨hp, hodd, t, ht, hv⟩ := h.pte d p e hm
  obtain ⟨hd, hi⟩ := h.tableDir t d _ ht
  have h1 : (p * 4096 + off) / 2 ^ 22 = p / 1024 := by omega
  have h2 : (p * 4096 + off) / 4096 % 1024 = p % 1024 := by omega
  rw [State.walk_of_pde (by rw [h1]; exact (h.pde d _ hd hi t).mpr ht), h2, hv, if_pos hodd]

/-- Without stale entries every page that is present was installed. -/
theorem maps_of_walk (h : PageInv L use s) (hst : s.stale = false) {D va e : ℕ}
    (hD : L.IsDir use D) (hva : va < 0xC0000000) (hw : s.walk D va = some e) :
    s.maps D (va / 4096) = some e := by
  have hi : va / 2 ^ 22 < 768 := by omega
  unfold State.walk at hw
  cases hpde : s.pde D (va / 2 ^ 22) with
  | none =>
      rw [hpde] at hw
      cases hw
  | some t =>
      rw [hpde] at hw
      dsimp only at hw
      split_ifs at hw with hodd
      have ht := (h.pde D _ hD hi t).mp hpde
      obtain ⟨e', hm⟩ := h.exact hst t D _ _ ht (Nat.mod_lt _ (by norm_num)) hodd
      obtain ⟨-, -, u, hu, hval⟩ := h.pte _ _ _ hm
      have hpage : va / 2 ^ 22 * 1024 + va / 4096 % 1024 = va / 4096 := by omega
      have hindex : va / 4096 / 1024 = va / 2 ^ 22 := by omega
      rw [hpage] at hm hu hval
      rw [hindex] at hu
      -- a directory entry has one table
      have hut : u = t := by
        have h1 := (h.pde D _ hD hi u).mpr hu
        rw [hpde] at h1
        exact (Option.some.inj h1).symm
      rw [hut, Option.some.inj hw] at hval
      rw [hm, hval]

theorem walk_page (h : PageInv L use s) {d p e : ℕ} (hm : s.maps d p = some e) :
    s.walk d (p * 4096) = some e := by
  have hw := h.walk_of_maps hm (show 0 < 4096 by norm_num)
  rwa [Nat.add_zero] at hw

theorem peek_of_maps (h : PageInv L use s) {d p e off : ℕ} (hm : s.maps d p = some e)
    (hoff : off < 4096) :
    s.peek d (p * 4096 + off) = some (s.mem (e / 4096) (off / 4)).toNat := by
  rw [State.peek, h.walk_of_maps hm hoff, Option.map_some]
  have : (p * 4096 + off) % 4096 / 4 = off / 4 := by omega
  rw [this]

theorem data_of_maps (h : PageInv L use s) {d p e : ℕ} (hm : s.maps d p = some e) :
    (use (e / 4096)).Data := by
  rcases h.backed d p e hm with hu | hu <;> rw [hu] <;> trivial

/-! ### Steps that leave the paging structures alone -/

theorem isDir_congr (hs : ∀ g v, v.Structural → (use' g = v ↔ use g = v)) (d : ℕ) :
    L.IsDir use' d ↔ L.IsDir use d := by
  unfold Layout.IsDir
  simp only [hs d (.dir _) trivial]

/-- Data frames can be relabelled and rewritten at will. -/
theorem relabel (h : PageInv L use s) (hs : ∀ g v, v.Structural → (use' g = v ↔ use g = v))
    (halloc : ∀ f < 0x100000, (s'.allocated f = true ↔ use' f ≠ .free))
    (hrange : ∀ f, use' f ≠ .free → f < 0x80000)
    (hmem : ∀ g, (use g).Structural → s'.mem g = s.mem g) (hmaps : s'.maps = s.maps)
    (hstale : s'.stale = s.stale)
    (hbacked : ∀ d p e, s.maps d p = some e →
      use' (e / 4096) = .page p ∨ use' (e / 4096) = .priv d p) : PageInv L use' s' where
  direct := by
    refine h.direct.congr (fun i _ => ?_) (fun i hi => ?_)
    · rw [hmem _ (by rw [h.use_dirFrame]; trivial)]
    · rw [hmem _ (by rw [h.use_reserved hi]; trivial)]
  alloc := halloc
  range := hrange
  kernel f := by rw [hs f .kernel trivial]; exact h.kernel f
  dirLow f o hf := h.dirLow f o ((hs f (.dir o) trivial).mp hf)
  tableLow f d i hf := h.tableLow f d i ((hs f (.table d i) trivial).mp hf)
  pde d i hd hi t := by
    have hd' := (isDir_congr hs d).mp hd
    have hpde : s'.pde d i = s.pde d i :=
      State.pde_congr (by rw [hmem d (h.structural_of_isDir hd')])
    rw [hpde, h.pde d i hd' hi t, hs t (.table d i) trivial]
  tableDir t d i ht := by
    obtain ⟨hd, hi⟩ := h.tableDir t d i ((hs t (.table d i) trivial).mp ht)
    exact ⟨(isDir_congr hs d).mpr hd, hi⟩
  heapTable t i ht := h.heapTable t i ((hs t (.table L.dirFrame i) trivial).mp ht)
  half d o hd i hi := by
    have hd' := (hs d (.dir o) trivial).mp hd
    rw [hmem d (by rw [hd']; trivial), hmem _ (by rw [h.use_dirFrame]; trivial)]
    exact h.half d o hd' i hi
  pte d p e hm := by
    rw [hmaps] at hm
    obtain ⟨hp, hodd, t, ht, hv⟩ := h.pte d p e hm
    refine ⟨hp, hodd, t, (hs t (.table d (p / 1024)) trivial).mpr ht, ?_⟩
    rw [hmem t (by rw [ht]; trivial)]
    exact hv
  backed d p e hm := hbacked d p e (by rwa [hmaps] at hm)
  exact hst t d i j ht hj hodd := by
    rw [hmaps]
    have ht' := (hs t (.table d i) trivial).mp ht
    rw [hmem t (by rw [ht']; trivial)] at hodd
    exact h.exact (by rwa [hstale] at hst) t d i j ht' hj hodd

theorem writeData (h : PageInv L use s) {f : ℕ} (hf : ¬ (use f).Structural) (i v : ℕ) :
    PageInv L use (s.write f i v) := by
  refine h.relabel (fun _ _ _ => Iff.rfl) h.alloc h.range (fun g hg => ?_) rfl rfl h.backed
  exact s.mem_write_ne_frame i v (fun e => hf (e ▸ hg))

theorem structural_update {f : ℕ} {u : Use} (hf : ¬ (use f).Structural) (hu : ¬ u.Structural)
    (g : ℕ) (v : Use) (hv : v.Structural) :
    Function.update use f u g = v ↔ use g = v := by
  by_cases hg : g = f
  · subst hg
    rw [Function.update_self]
    constructor
    · intro e; rw [e] at hu; exact absurd hv hu
    · intro e; rw [e] at hf; exact absurd hv hf
  · rw [Function.update_of_ne hg]

theorem alloc_take (h : PageInv L use s) {f : ℕ} {u : Use} (hu : u ≠ .free) (g : ℕ)
    (hg : g < 0x100000) :
    (s.take f).allocated g = true ↔ Function.update use f u g ≠ .free := by
  rw [State.allocated_take, Bool.or_eq_true, decide_eq_true_eq, h.alloc g hg]
  by_cases hgf : g = f
  · subst hgf; simp [hu]
  · simp [hgf]

theorem range_update (h : PageInv L use s) {f : ℕ} (u : Use) (hlt : f < 0x80000) (g : ℕ)
    (hg : Function.update use f u g ≠ .free) : g < 0x80000 := by
  by_cases hgf : g = f
  · rw [hgf]; exact hlt
  · rw [Function.update_of_ne hgf] at hg; exact h.range g hg

theorem backed_update (h : PageInv L use s) {f : ℕ} (u : Use) (hf : ¬ (use f).Data) {d p e : ℕ}
    (hm : s.maps d p = some e) :
    Function.update use f u (e / 4096) = .page p ∨
      Function.update use f u (e / 4096) = .priv d p := by
  have hne : e / 4096 ≠ f := fun he => hf (he ▸ h.data_of_maps hm)
  rw [Function.update_of_ne hne]
  exact h.backed d p e hm

theorem takeData (h : PageInv L use s) {f : ℕ} {u : Use} (hf : use f = .free)
    (hlt : f < 0x80000) (hu : u.Data) : PageInv L (Function.update use f u) (s.take f) := by
  have hus : ¬ u.Structural := by cases u <;> simp_all [Use.Data, Use.Structural]
  have hune : u ≠ .free := by rintro rfl; exact hu
  exact h.relabel (structural_update (by rw [hf]; exact id) hus) (h.alloc_take hune)
    (h.range_update u hlt) (fun _ _ => rfl) rfl rfl
    (fun d p e hm => h.backed_update u (by rw [hf]; exact id) hm)

theorem freeData (h : PageInv L use s) {f : ℕ} (hf : (use f).Data)
    (hnone : ∀ d p e, s.maps d p = some e → e / 4096 ≠ f) :
    PageInv L (Function.update use f .free) (s.unmark f) := by
  have hfs : ¬ (use f).Structural := by
    revert hf; cases use f <;> simp [Use.Data, Use.Structural]
  have hlt : f < 0x80000 := h.range f (by intro e; rw [e] at hf; exact hf)
  refine h.relabel (structural_update hfs id) (fun g hg => ?_) (h.range_update _ hlt)
    (fun _ _ => rfl) rfl rfl (fun d p e hm => ?_)
  · rw [State.allocated_unmark, Bool.and_eq_true, h.alloc g hg]
    by_cases hgf : g = f
    · subst hgf; simp
    · simp [hgf]
  · rw [Function.update_of_ne (hnone d p e hm)]
    exact h.backed d p e hm

/-! ### Steps on directories and tables -/

theorem not_isDir_of_table (h : PageInv L use s) {t d i : ℕ} (ht : use t = .table d i) :
    ¬ L.IsDir use t := by
  rintro (rfl | ⟨o, ho⟩)
  · rw [h.use_dirFrame] at ht; cases ht
  · rw [ho] at ht; cases ht

theorem direct_of_mem (h : PageInv L use s)
    (hdir : ∀ i < 256, s'.mem L.dirFrame (768 + i) = s.mem L.dirFrame (768 + i))
    (hmem : ∀ g, use g = .kernel → g ≠ L.dirFrame → s'.mem g = s.mem g) : L.DirectMap s' :=
  h.direct.congr hdir (fun _ hi => hmem _ (h.use_reserved hi) (by omega))

/-- Writing or clearing the entry of page `p` in its table; `o` is what is then installed. -/
theorem putEntry (h : PageInv L use s) {t d p v : ℕ} {o : Option ℕ}
    (ht : use t = .table d (p / 1024))
    (hmem : s'.mem = (s.write t (p % 1024) v).mem) (halloc : ∀ f, s'.allocated f = s.allocated f)
    (hstale : s'.stale = s.stale)
    (hmaps : ∀ c q, s'.maps c q = if c = d ∧ q = p then o else s.maps c q) (hv : v < 2 ^ 32)
    (hsome : ∀ e, o = some e → e = v ∧ e % 2 = 1 ∧
      (use (e / 4096) = .page p ∨ use (e / 4096) = .priv d p))
    (hnone : o = none → v % 2 = 0) : PageInv L use s' := by
  have hother : ∀ g, g ≠ t → s'.mem g = s.mem g := fun g hg => by
    rw [hmem]; exact s.mem_write_ne_frame _ _ hg
  have hword : (s'.mem t (p % 1024)).toNat = v := by
    rw [hmem, State.mem_write_same, BitVec.toNat_ofNat, Nat.mod_eq_of_lt hv]
  have hindex : ∀ j, j ≠ p % 1024 → s'.mem t j = s.mem t j := fun j hj => by
    rw [hmem]; exact s.mem_write_ne_index _ _ _ hj
  have hdirs : ∀ d, L.IsDir use d → s'.mem d = s.mem d := fun c hc =>
    hother c (fun e => h.not_isDir_of_table ht (e ▸ hc))
  exact
    { direct := h.direct_of_mem (fun i _ => by rw [hdirs _ (Or.inl rfl)])
        (fun g hg _ => hother g (by rintro rfl; rw [hg] at ht; cases ht))
      alloc := fun f hf => by rw [halloc f]; exact h.alloc f hf
      range := h.range
      kernel := h.kernel
      dirLow := h.dirLow
      tableLow := h.tableLow
      pde := fun c i hc hi u => by
        have hpde : s'.pde c i = s.pde c i := State.pde_congr (by rw [hdirs c hc])
        rw [hpde]
        exact h.pde c i hc hi u
      tableDir := h.tableDir
      heapTable := h.heapTable
      half := fun c r hc i hi => by
        rw [hdirs c (Or.inr ⟨r, hc⟩), hdirs _ (Or.inl rfl)]
        exact h.half c r hc i hi
      pte := fun c q e hm => by
        rw [hmaps] at hm
        split_ifs at hm with hcq
        · obtain ⟨rfl, rfl⟩ := hcq
          obtain ⟨rfl, hodd, _⟩ := hsome e hm
          have hi := (h.tableDir t c _ ht).2
          exact ⟨by omega, hodd, t, ht, hword⟩
        · obtain ⟨hq, hodd, u, hu, hval⟩ := h.pte c q e hm
          refine ⟨hq, hodd, u, hu, ?_⟩
          by_cases hut : u = t
          · subst hut
            rw [ht] at hu
            injection hu with hcd hpq
            rw [hindex _ (fun hj => hcq ⟨hcd.symm, by omega⟩)]
            exact hval
          · rw [hother u hut]; exact hval
      backed := fun c q e hm => by
        rw [hmaps] at hm
        split_ifs at hm with hcq
        · obtain ⟨rfl, rfl⟩ := hcq
          exact (hsome e hm).2.2
        · exact h.backed c q e hm
      exact := fun hst u c i j hu hj hodd => by
        rw [hstale] at hst
        rw [hmaps]
        by_cases hut : u = t
        · subst hut
          rw [ht] at hu
          injection hu with hcd hpi
          by_cases hjp : j = p % 1024
          · subst hjp
            rw [hword] at hodd
            rw [if_pos ⟨hcd.symm, by omega⟩]
            cases ho : o with
            | none => rw [hnone ho] at hodd; cases hodd
            | some e => exact ⟨e, rfl⟩
          · rw [hindex j hjp] at hodd
            obtain ⟨e, he⟩ := h.exact hst u c i j (by rw [ht, hcd, hpi]) hj hodd
            rw [if_neg (by rintro ⟨_, rfl⟩; omega)]
            exact ⟨e, he⟩
        · rw [hother u hut] at hodd
          obtain ⟨e, he⟩ := h.exact hst u c i j hu hj hodd
          by_cases hcq : c = d ∧ i * 1024 + j = p
          · -- the table of this entry would be `t`
            obtain ⟨rfl, hp⟩ := hcq
            have hd := (h.tableDir t c _ ht)
            have hip : i = p / 1024 := by omega
            rw [hip] at hu
            have h1 := (h.pde c _ hd.1 hd.2 u).mpr hu
            rw [(h.pde c _ hd.1 hd.2 t).mpr ht] at h1
            exact absurd (Option.some.inj h1).symm hut
          · rw [if_neg hcq]
            exact ⟨e, he⟩ }

theorem setEntry (h : PageInv L use s) {t d p e : ℕ} (ht : use t = .table d (p / 1024))
    (he : e < 2 ^ 32) (hodd : e % 2 = 1)
    (hback : use (e / 4096) = .page p ∨ use (e / 4096) = .priv d p) :
    PageInv L use ((s.write t (p % 1024) e).install (KERNEL_BASE + d * 4096) (p * 4096) e) :=
  h.putEntry (o := some e) ht rfl (fun _ => rfl) rfl (State.maps_install _ d p e) he
    (fun _ ha => by cases ha; exact ⟨rfl, hodd, hback⟩) (fun ha => by cases ha)

theorem resetEntry (h : PageInv L use s) {t d p : ℕ} (ht : use t = .table d (p / 1024)) :
    PageInv L use ((s.write t (p % 1024) 0).uninstall (KERNEL_BASE + d * 4096) (p * 4096)) :=
  h.putEntry (o := none) ht rfl (fun _ => rfl) rfl (State.maps_uninstall _ d p) (by norm_num)
    (fun _ ha => by cases ha) (fun _ => rfl)

theorem not_dirty {f j : ℕ} (h : s.dirty f = false) (hj : j < 1024) :
    (s.mem f j).toNat % 2 ≠ 1 := by
  intro hodd
  have : s.dirty f = true := by
    rw [State.dirty, List.any_eq_true]
    exact ⟨j, List.mem_range.mpr hj, by simpa using hodd⟩
  rw [h] at this; cases this

theorem update_eq_iff {t : ℕ} {u : Use} (hfree : use t = .free) (hu : ∀ g, use g ≠ u) (g : ℕ)
    {v : Use} (hv : v ≠ .free) : Function.update use t u g = v ↔ use g = v ∨ (g = t ∧ v = u) := by
  by_cases hg : g = t
  · subst hg
    rw [Function.update_self, hfree]
    constructor
    · rintro rfl; exact Or.inr ⟨rfl, rfl⟩
    · rintro (e | ⟨_, rfl⟩)
      · exact absurd e.symm hv
      · rfl
  · rw [Function.update_of_ne hg]
    simp [hg]

/-- `map_page` takes the clear frame `t` for the missing table of directory entry `(d, i)`. -/
theorem addTable (h : PageInv L use s) {t d i fl : ℕ} (ht : use t = .free) (hlt : t < 0x40000)
    (hd : L.IsDir use d) (hi : i < 768) (hpde : s.pde d i = none) (hk : d = L.dirFrame → 64 ≤ i)
    (hfl : fl < 4096) (hodd : fl % 2 = 1) :
    PageInv L (Function.update use t (.table d i))
      (((s.take t).noteTable (t * 4096)).write d i (t * 4096 + fl)) := by
  set s' := ((s.take t).noteTable (t * 4096)).write d i (t * 4096 + fl) with hs'
  have hnew : ∀ g, use g ≠ .table d i := fun g hg => by
    have := (h.pde d i hd hi g).mpr hg
    rw [hpde] at this; cases this
  have hiff := fun g (v : Use) (hv : v ≠ .free) => update_eq_iff ht hnew g hv
  have hother : ∀ g, g ≠ d → s'.mem g = s.mem g := fun g hg => State.mem_write_ne_frame _ _ _ hg
  have hindex : ∀ j, j ≠ i → s'.mem d j = s.mem d j := fun j hj =>
    State.mem_write_ne_index _ _ _ _ hj
  have hword : (s'.mem d i).toNat = t * 4096 + fl := by
    rw [hs', State.mem_write_same, BitVec.toNat_ofNat, Nat.mod_eq_of_lt (by omega)]
  have hisDir : ∀ c, L.IsDir (Function.update use t (.table d i)) c ↔ L.IsDir use c := fun c => by
    unfold Layout.IsDir
    simp [hiff]
  have hds := h.structural_of_isDir hd
  have htd : t ≠ d := by rintro rfl; rw [ht] at hds; exact hds
  exact
    { direct := h.direct_of_mem
        (fun j _ => by
          by_cases hj : L.dirFrame = d
          · rw [hj]; exact hindex _ (by omega)
          · rw [hother _ hj])
        (fun g hg hgd => hother g (by
          rintro rfl
          rcases hd with rfl | ⟨o, ho⟩
          · exact hgd rfl
          · rw [hg] at ho; cases ho))
      alloc := h.alloc_take (by simp)
      range := h.range_update _ (by omega)
      kernel := fun f => by
        rw [hiff f .kernel (by simp)]
        simpa using h.kernel f
      dirLow := fun f o hf => by
        rw [hiff f _ (by simp)] at hf
        exact h.dirLow f o (by simpa using hf)
      tableLow := fun f c j hf => by
        rcases (hiff f _ (by simp)).mp hf with hf | ⟨rfl, _⟩
        · exact h.tableLow f c j hf
        · exact hlt
      pde := fun c j hc hj u => by
        rw [hiff u _ (by simp)]
        have hc := (hisDir c).mp hc
        by_cases hcj : c = d ∧ j = i
        · obtain ⟨rfl, rfl⟩ := hcj
          rw [State.pde_eq_some_iff, hword]
          constructor
          · rintro ⟨_, rfl⟩; exact Or.inr ⟨by omega, rfl⟩
          · rintro (hu | ⟨rfl, _⟩)
            · exact absurd hu (hnew u)
            · omega
        · have hmem : s'.mem c j = s.mem c j := by
            by_cases hcd : c = d
            · subst hcd; exact hindex j (fun hj => hcj ⟨rfl, hj⟩)
            · rw [hother c hcd]
          have hne : (Use.table c j = .table d i) = False := by
            simp only [Use.table.injEq, eq_iff_iff, iff_false]; exact hcj
          have hpde : s'.pde c j = s.pde c j := State.pde_congr hmem
          rw [hpde, h.pde c j hc hj u, hne]
          simp
      tableDir := fun u c j hu => by
        rw [hisDir]
        rcases (hiff u _ (by simp)).mp hu with hu | ⟨_, hcj⟩
        · exact h.tableDir u c j hu
        · cases hcj; exact ⟨hd, hi⟩
      heapTable := fun u j hu => by
        rcases (hiff u _ (by simp)).mp hu with hu | ⟨_, hcj⟩
        · exact h.heapTable u j hu
        · cases hcj; exact hk rfl
      half := fun c o hc j hj => by
        rw [hiff c _ (by simp)] at hc
        have hc : use c = .dir o := by simpa using hc
        have hsame : ∀ b, s'.mem b (768 + j) = s.mem b (768 + j) := fun b => by
          by_cases hb : b = d
          · rw [hb]; exact hindex _ (by omega)
          · rw [hother b hb]
        rw [hsame, hsame]
        exact h.half c o hc j hj
      pte := fun c q e hm => by
        obtain ⟨hq, he, u, hu, hval⟩ := h.pte c q e hm
        refine ⟨hq, he, u, (hiff u _ (by simp)).mpr (Or.inl hu), ?_⟩
        have hud : u ≠ d := by
          rintro rfl
          exact h.not_isDir_of_table hu hd
        rw [hother u hud]
        exact hval
      backed := fun c q e hm => h.backed_update _ (by rw [ht]; exact id) hm
      exact := fun hst u c j k hu hk hodd => by
        obtain ⟨hst, hclean⟩ : s.stale = false ∧ s.dirty t = false := by
          have hst : (s.stale || s.dirty (t * 4096 / 4096)) = false := hst
          rw [Nat.mul_div_cancel _ (by norm_num), Bool.or_eq_false_iff] at hst
          exact hst
        rcases (hiff u _ (by simp)).mp hu with hold | ⟨rfl, _⟩
        · have hud : u ≠ d := fun e => h.not_isDir_of_table hold (e ▸ hd)
          rw [hother u hud] at hodd
          exact h.exact hst u c j k hold hk hodd
        · -- a clean frame has no present entry
          rw [hother u htd] at hodd
          exact absurd hodd (not_dirty hclean hk) }

/-- A clear frame becomes a page directory once its lower part is zero and its kernel half
is copied. -/
theorem addDir (h : PageInv L use s) {t : ℕ} {o : Owner} (ht : use t = .free) (hlt : t < 0x40000)
    (halloc : ∀ f, s'.allocated f = (s.take t).allocated f)
    (hmem : ∀ g, g ≠ t → s'.mem g = s.mem g) (hzero : ∀ i < 768, (s'.mem t i).toNat = 0)
    (hhalf : ∀ i < 256, s'.mem t (768 + i) = s.mem L.dirFrame (768 + i))
    (hmaps : s'.maps = s.maps) (hstale : s'.stale = s.stale) :
    PageInv L (Function.update use t (.dir o)) s' := by
  have hiff : ∀ g (v : Use), v ≠ .free → v ≠ .dir o →
      (Function.update use t (.dir o) g = v ↔ use g = v) := fun g v hv hvo => by
    by_cases hg : g = t
    · subst hg
      rw [Function.update_self, ht]
      exact ⟨fun e => absurd e.symm hvo, fun e => absurd e.symm hv⟩
    · rw [Function.update_of_ne hg]
  have hstruct : ∀ g, use g ≠ .free → s'.mem g = s.mem g := fun g hg =>
    hmem g (by rintro rfl; exact hg ht)
  have hdir : s'.mem L.dirFrame = s.mem L.dirFrame := hstruct _ (by rw [h.use_dirFrame]; simp)
  have hisDir : ∀ c, L.IsDir (Function.update use t (.dir o)) c ↔ L.IsDir use c ∨ c = t := by
    intro c
    unfold Layout.IsDir
    by_cases hc : c = t
    · subst hc
      simp
    · simp [hc]
  -- no table hangs off the new directory
  have hnone : ∀ u i, use u ≠ .table t i := fun u i hu => by
    have := h.structural_of_isDir (h.tableDir u t i hu).1
    rw [ht] at this
    exact this
  exact
    { direct := h.direct_of_mem (fun _ _ => by rw [hdir])
        (fun g hg _ => hstruct g (by rw [hg]; simp))
      alloc := fun f hf => by rw [halloc f]; exact h.alloc_take (by simp) f hf
      range := h.range_update _ (by omega)
      kernel := fun f => by
        rw [hiff f .kernel (by simp) (by simp)]
        exact h.kernel f
      dirLow := fun f r hf => by
        by_cases hft : f = t
        · rw [hft]; exact hlt
        · rw [Function.update_of_ne hft] at hf; exact h.dirLow f r hf
      tableLow := fun f c j hf => h.tableLow f c j ((hiff f _ (by simp) (by simp)).mp hf)
      pde := fun c j hc hj u => by
        rw [hiff u _ (by simp) (by simp)]
        rcases (hisDir c).mp hc with hc | rfl
        · have hcs := h.structural_of_isDir hc
          have hpde : s'.pde c j = s.pde c j := State.pde_congr (by
            rw [hstruct c (by intro e; rw [e] at hcs; exact hcs)])
          rw [hpde]
          exact h.pde c j hc hj u
        · have hpde : s'.pde c j = none := State.pde_eq_none_iff.mpr (by rw [hzero j hj])
          rw [hpde]
          exact ⟨fun e => (by cases e), fun e => absurd e (hnone u j)⟩
      tableDir := fun u c j hu => by
        obtain ⟨hc, hj⟩ := h.tableDir u c j ((hiff u _ (by simp) (by simp)).mp hu)
        exact ⟨(hisDir c).mpr (Or.inl hc), hj⟩
      heapTable := fun u j hu => h.heapTable u j ((hiff u _ (by simp) (by simp)).mp hu)
      half := fun c r hc j hj => by
        rw [hdir]
        by_cases hct : c = t
        · rw [hct]; exact hhalf j hj
        · rw [Function.update_of_ne hct] at hc
          rw [hmem c hct]
          exact h.half c r hc j hj
      pte := fun c q e hm => by
        rw [hmaps] at hm
        obtain ⟨hq, he, u, hu, hval⟩ := h.pte c q e hm
        refine ⟨hq, he, u, (hiff u _ (by simp) (by simp)).mpr hu, ?_⟩
        rw [hstruct u (by rw [hu]; simp)]
        exact hval
      backed := fun c q e hm => by
        rw [hmaps] at hm
        exact h.backed_update _ (by rw [ht]; exact id) hm
      exact := fun hst u c j k hu hk hodd => by
        have hu := (hiff u _ (by simp) (by simp)).mp hu
        rw [hstruct u (by rw [hu]; simp)] at hodd
        rw [hmaps]
        exact h.exact (by rwa [hstale] at hst) u c j k hu hk hodd }

end PageInv

end RaxzusHeap
