import RaxzusHeap.AddressSpaces
import RaxzusHeap.FrameAllocator
import RaxzusHeap.KernelFrames

/-! # Runs of the paging code

From `init_paging` and `init_pmm` on, `map_page`, `create_process_page_directory`, the frame
searches and stores of the kernel's clients come in any order.  A `PagingRecord` keeps which
frames were handed out for a directory or a table and which ones the paging code wrote.

Neither `map_page` nor `create_process_page_directory` looks at the address that
`get_next_free_kernel_frame` returned.  As long as that frame is one the direct map shows,
only directories and tables are written (`paging_sound`); behind the first gigabyte the
address wraps, and a directory is written over whatever is mapped there
(`directory_over_data`). -/

namespace RaxzusHeap

open Imperative FirstFit

/-! ### Calls -/

/-- A call of the paging code, or what its clients do in between: take a frame, give one back,
store a word in a frame of theirs. -/
inductive PagingOp where
  | mapPage (dir page frame flags : ℕ)
  | makeDirectory
  | takeFrame
  | clearFrame (frame : ℕ)
  | store (frame index value : ℕ)
deriving DecidableEq, Repr

/-- The call that is made. -/
def Layout.pagingCall (L : Layout) : PagingOp → Kernel ℕ
  | .mapPage dir page frame flags => do
      L.mapPage dir (page * 4096) (frame * 4096) flags
      pure 0
  | .makeDirectory => L.createProcessPageDirectory
  | .takeFrame => getNextFreeProcessFrame
  | .clearFrame frame => RaxzusHeap.clearFrame (frame * 4096)
  | .store frame index value => do
      modify (·.write frame index value)
      pure 0

/-- The state after a call, also when it stopped the machine. -/
def Layout.paged (L : Layout) (s : State) (op : PagingOp) : State := final (L.pagingCall op s)

/-- The allocator hands out frame `t` for the next directory or table. -/
def Layout.Hands (L : Layout) (s : State) (t : ℕ) : Prop :=
  t ≠ 0 ∧ ∃ s', L.getNextFreeKernelFrame s = .ok (t * 4096) s'

/-- `map_page` finds no table for the page and asks the allocator for one. -/
def Layout.AsksTable (L : Layout) (s : State) : PagingOp → Prop
  | .mapPage dir page frame _ => KERNEL_BASE ≤ dir ∧ frame * 4096 < KERNEL_BASE ∧
      ¬ (dir = L.kernelPageDir ∧ page / 1024 = 0) ∧
      ∃ e, L.load (dir + 4 * (page / 1024)) s = .ok e s ∧ e % 2 = 0
  | _ => False

/-- Frames whose contents differ. -/
def State.rewritten (s s' : State) : Set ℕ := {g | s'.mem g ≠ s.mem g}

/-! ### Runs -/

/-- The directories made so far, the frames handed out for directories and for tables, and the
frames written by the paging code. -/
structure PagingRecord where
  dirs : Set ℕ
  forDirs : Set ℕ
  forTables : Set ℕ
  written : Set ℕ

/-- After booting: `init_pmm` sets the kernel directory and the tables of the image aside. -/
def PagingRecord.boot (L : Layout) (s s' : State) : PagingRecord where
  dirs := {L.kernelPageDir}
  forDirs := {L.dirFrame}
  forTables := {t | L.dirFrame < t ∧ t < L.kernelFrames}
  written := s.rewritten s'

/-- What one call in state `s` adds. -/
def PagingRecord.after (r : PagingRecord) (L : Layout) (s : State) : PagingOp → PagingRecord
  | .mapPage dir page frame flags =>
      { r with
        forTables := r.forTables ∪ {t | L.AsksTable s (.mapPage dir page frame flags) ∧ L.Hands s t}
        written := r.written ∪ s.rewritten (L.paged s (.mapPage dir page frame flags)) }
  | .makeDirectory =>
      { r with
        dirs := r.dirs ∪ {a | ∃ s', L.pagingCall .makeDirectory s = .ok a s'}
        forDirs := r.forDirs ∪ {D | L.Hands s D}
        written := r.written ∪ s.rewritten (L.paged s .makeDirectory) }
  | _ => r

/-- Pages below the kernel half are mapped, in directories made before and with the present flag;
clients leave the frames of directories and tables alone. -/
def PagingRecord.Allows (r : PagingRecord) (L : Layout) : PagingOp → Prop
  | .mapPage dir page _ flags => dir ∈ r.dirs ∧ page < 0xC0000 ∧ flags < 4096 ∧ flags % 2 = 1
  | .clearFrame frame =>
      L.kernelFrames ≤ frame ∧ frame < 0x100000 ∧ frame ∉ r.forDirs ∧ frame ∉ r.forTables
  | .store frame _ _ => frame ∉ r.forDirs ∧ frame ∉ r.forTables
  | _ => True

/-- Runs whose calls meet `G` in the state they are made in. -/
inductive PagingRun (L : Layout) (G : State → PagingOp → Prop) : PagingRecord → State → Prop
  | boot {mem s s'} (hp : L.initPaging (State.powerOn mem) = .ok () s) (hm : L.initPmm s = .ok () s') :
      PagingRun L G (.boot L (State.powerOn mem) s') s'
  | call {r s} (run : PagingRun L G r s) (op : PagingOp) (allowed : r.Allows L op) (guard : G s op) :
      PagingRun L G (r.after L s op) (L.paged s op)

/-- Directories and tables lie in frames that were handed out for them, frame 0 is never one,
nothing else was written, and a `map_page` that finds no frame leaves memory as it is. -/
structure PagingSound (L : Layout) (r : PagingRecord) (s : State) : Prop where
  directories : ∀ a ∈ r.dirs, ∃ D ∈ r.forDirs, D ≠ 0 ∧ a = KERNEL_BASE + D * 4096
  tables : ∀ a ∈ r.dirs, ∀ D, a = KERNEL_BASE + D * 4096 → ∀ i < 1024, ∀ t,
    s.pde D i = some t → t ∈ r.forTables ∧ t ≠ 0
  writes : r.written ⊆ r.forDirs ∪ r.forTables
  exhausted : ∀ op, r.Allows L op → L.AsksTable s op → L.getNextFreeKernelFrame s = .ok 0 s →
    (L.paged s op).mem = s.mem

/-- Whenever a directory or a table is needed, a frame that the direct map shows is clear. -/
def ShownFrameLeft (L : Layout) (s : State) (op : PagingOp) : Prop :=
  op = .makeDirectory ∨ L.AsksTable s op →
    ∃ f, L.kernelFrames ≤ f ∧ f < 0x40000 ∧ s.allocated f = false

/-! ### What the calls do to memory -/

section Calls

variable {L : Layout} {dirs : Set ℕ} {s s₁ : State} {d i fl t : ℕ}

theorem Layout.kernelFrame_first (himg : L.ImageMarked s) (hf : s.FirstFree t) (hlt : t < 0x80000) :
    L.getNextFreeKernelFrame s = .ok (t * 4096) (s.take t) := by
  rw [L.kernelFrame_eq himg hf (by omega), takeFrame_low hlt]

theorem Layout.paged_of_ok {op : PagingOp} {a : ℕ} {s' : State}
    (h : L.pagingCall op s = .ok a s') : L.paged s op = s' := by
  rw [Layout.paged, h, final_ok]

theorem Layout.paged_mapPage {dir page frame : ℕ} {s' : State}
    (h : L.mapPage dir (page * 4096) (frame * 4096) fl s = .ok () s') :
    L.paged s (.mapPage dir page frame fl) = s' := by
  have hrun : L.pagingCall (.mapPage dir page frame fl) s = .ok 0 s' := run_bind_ok h
  exact Layout.paged_of_ok hrun

theorem Layout.ImageMarked.pos (himg : L.ImageMarked s) (hclear : s.allocated t = false) :
    L.kernelFrames ≤ t ∧ t ≠ 0 := by
  have hge : L.kernelFrames ≤ t := by
    by_contra hlt
    rw [himg t (by omega)] at hclear
    cases hclear
  have hpos : 258 ≤ L.kernelFrames := Nat.le_add_left _ _
  exact ⟨hge, by omega⟩

theorem Layout.hands_first (himg : L.ImageMarked s) (hf : s.FirstFree t) (hlt : t < 0x80000) :
    {g | L.Hands s g} = {t} := by
  have hrun := Layout.kernelFrame_first himg hf hlt
  ext g
  constructor
  · rintro ⟨-, s', hr⟩
    rw [hrun] at hr
    injection hr with haddr
    exact Set.mem_singleton_iff.mpr (by omega)
  · rintro rfl
    exact ⟨(himg.pos hf.1).2, _, hrun⟩

theorem TablesOwned.asksTable_iff (h : TablesOwned L dirs s) (hd : d ∈ dirs) {page frame : ℕ}
    (hp : page < 0x100000) (hf : frame < 0xC0000) :
    L.AsksTable s (.mapPage (KERNEL_BASE + d * 4096) page frame fl) ↔
      s.pde d (page / 1024) = none ∧ ¬ (d = L.dirFrame ∧ page / 1024 = 0) := by
  have hload := h.direct.load_direct (h.dirFrame d hd).1 (show page / 1024 < 1024 by omega)
  have hsame : KERNEL_BASE + d * 4096 = L.kernelPageDir ↔ d = L.dirFrame := by
    unfold Layout.kernelPageDir
    omega
  rw [State.pde_eq_none_iff]
  constructor
  · rintro ⟨-, -, hne, e, hr, heven⟩
    rw [hload] at hr
    cases hr
    exact ⟨heven, by rwa [hsame] at hne⟩
  · rintro ⟨heven, hne⟩
    refine ⟨Nat.le_add_right _ _, ?_, by rwa [hsame], _, hload, heven⟩
    unfold KERNEL_BASE
    omega

theorem Supplied.mem_ne (h : Supplied L dirs s d i fl t s₁) {g : ℕ} (hg : g ≠ d) :
    s₁.mem g = s.mem g := by
  cases h with
  | present ht hs => rw [hs]
  | added hnone hlow hdir hnew hspare hmem hmark hkept =>
      rw [hmem]
      exact State.mem_write_ne_frame _ _ _ hg

theorem Supplied.pde_cases (h : Supplied L dirs s d i fl t s₁) (hfl : fl < 4096)
    (hodd : fl % 2 = 1) {c j u : ℕ} (hu : s₁.pde c j = some u) : s.pde c j = some u ∨ u = t := by
  cases h with
  | present ht hs =>
      rw [hs] at hu
      exact .inl hu
  | added hnone hlow hdir hnew hspare hmem hmark hkept =>
      rw [State.pde_congr (congrFun (congrFun hmem c) j), State.pde_write _ (by omega) (by omega)]
        at hu
      split_ifs at hu
      · cases hu
        exact .inr (by omega)
      · exact .inl hu

theorem Layout.makeDirectory_run (h : L.DirectMap s) (himg : L.ImageMarked s) (ht : s.FirstFree t)
    (hlow : t < 0x40000) :
    ∃ s', L.createProcessPageDirectory s = .ok (KERNEL_BASE + t * 4096) s' ∧
      ClearedUpTo L t 256 (s.take t) s' := by
  obtain ⟨s', hrun, hc⟩ := Layout.clearDirectory_spec (L := L) (s := s.take t) (D := t)
    ⟨h.dir, h.table⟩ hlow (himg.pos ht.1).1
  refine ⟨s', ?_, hc⟩
  unfold Layout.createProcessPageDirectory
  rw [run_bind_ok (Layout.kernelFrame_first himg ht (by omega)), direct_address hlow, run_bind_ok hrun]
  rfl

theorem takeFrame_mem {f a : ℕ} {s' : State} (h : takeFrame f s = .ok a s') : s'.mem = s.mem := by
  unfold takeFrame setFrame at h
  split_ifs at h <;> cases h <;> rfl

theorem clearFrame_mem {a w : ℕ} {s' : State} (h : clearFrame a s = .ok w s') : s'.mem = s.mem := by
  unfold clearFrame at h
  split_ifs at h <;> cases h <;> rfl

theorem clearFrame_ok (a : ℕ) (s : State) : ∃ w s', clearFrame a s = .ok w s' := by
  unfold clearFrame
  split_ifs
  · exact ⟨_, _, rfl⟩
  · exact ⟨_, _, rfl⟩

theorem clearFrame_other {f g w : ℕ} {s' : State} (h : clearFrame (f * 4096) s = .ok w s')
    (hne : g ≠ f) : s'.allocated g = s.allocated g := by
  by_cases hlow : f < 0x80000
  · obtain ⟨w', hr⟩ := clearFrame_low hlow s
    rw [hr] at h
    cases h
    simp [State.allocated_unmark, hne]
  · exact clearFrame_high (Nat.le_of_not_lt hlow) h g

end Calls

/-! ### The invariant -/

/-- What the calls keep while a shown frame is left whenever one is needed: the directories are
those in the frames handed out for directories, and they own their tables. -/
structure PagingInv (L : Layout) (r : PagingRecord) (s : State) : Prop where
  owned : TablesOwned L r.forDirs s
  located : ∀ a ∈ r.dirs, ∃ D ∈ r.forDirs, a = KERNEL_BASE + D * 4096
  tables : ∀ D ∈ r.forDirs, ∀ i < 1024, ∀ t, s.pde D i = some t → t ∈ r.forTables
  spare : L.dirFrame + 1 ∈ r.forTables
  nonzero : 0 ∉ r.forDirs ∧ 0 ∉ r.forTables
  writes : r.written ⊆ r.forDirs ∪ r.forTables
  high : ∀ f, 0x80000 ≤ f → f < 0x100000 → s.allocated f = false

namespace PagingInv

variable {L : Layout} {r : PagingRecord} {s s' : State}

/-- The frames from 2 GB on are never marked, so the search never comes back empty. -/
theorem not_exhausted (h : PagingInv L r s) : L.getNextFreeKernelFrame s ≠ .ok 0 s := by
  have hK : L.kernelFrames ≤ 1024 := L.high
  intro hr
  obtain ⟨hr', hnone⟩ | ⟨f, s', hr', hlt, hf⟩ := L.kernelFrame_cases s
  · have hset := hnone 0x80000 (by omega) (by norm_num) (by omega)
    rw [h.high 0x80000 le_rfl (by norm_num)] at hset
    cases hset
  · rw [hr'] at hr
    injection hr with hzero
    have hge := hf.ge
    have hpos : 258 ≤ L.kernelFrames := Nat.le_add_left _ _
    omega

theorem sound (h : PagingInv L r s) : PagingSound L r s where
  directories a ha := by
    obtain ⟨D, hD, heq⟩ := h.located a ha
    exact ⟨D, hD, fun h0 => h.nonzero.1 (h0 ▸ hD), heq⟩
  tables a ha D heq i hi t ht := by
    obtain ⟨D', hD', heq'⟩ := h.located a ha
    obtain rfl : D' = D := by omega
    have hmem := h.tables D' hD' i hi t ht
    exact ⟨hmem, fun h0 => h.nonzero.2 (h0 ▸ hmem)⟩
  writes := h.writes
  exhausted _ _ _ hr := absurd hr h.not_exhausted

theorem keep (h : PagingInv L r s) (howned : TablesOwned L r.forDirs s')
    (hpde : ∀ c ∈ r.forDirs, ∀ k, s'.pde c k = s.pde c k)
    (hhigh : ∀ f, 0x80000 ≤ f → f < 0x100000 → s'.allocated f = false) : PagingInv L r s' where
  owned := howned
  located := h.located
  tables D hD i hi t ht := h.tables D hD i hi t (by rwa [hpde D hD i] at ht)
  spare := h.spare
  nonzero := h.nonzero
  writes := h.writes
  high := hhigh

theorem addTables (h : PagingInv L r s) {T W : Set ℕ} (howned : TablesOwned L r.forDirs s')
    (htables : ∀ D ∈ r.forDirs, ∀ i < 1024, ∀ t, s'.pde D i = some t → t ∈ r.forTables ∪ T)
    (hT : 0 ∉ T) (hW : W ⊆ r.forDirs ∪ (r.forTables ∪ T))
    (hhigh : ∀ f, 0x80000 ≤ f → f < 0x100000 → s'.allocated f = false) :
    PagingInv L { r with forTables := r.forTables ∪ T, written := r.written ∪ W } s' where
  owned := howned
  located := h.located
  tables := htables
  spare := .inl h.spare
  nonzero := ⟨h.nonzero.1, fun h0 => h0.elim h.nonzero.2 hT⟩
  writes := Set.union_subset (h.writes.trans (Set.union_subset_union_right _ Set.subset_union_left))
    hW
  high := hhigh

/-! ### `map_page` -/

section MapPage

variable {D page frame fl : ℕ}

theorem paged_high (hf : 0xC0000 ≤ frame) (dir : ℕ) :
    L.paged s (.mapPage dir page frame fl) = s := by
  have hrun : L.mapPage dir (page * 4096) (frame * 4096) fl s = .ok () s := by
    unfold Layout.mapPage
    split_ifs with h1 h2
    · rfl
    · rfl
    · omega
  exact Layout.paged_mapPage hrun

theorem mapPage (h : PagingInv L r s) (hD : D ∈ r.forDirs) (hp : page < 0xC0000) (hfl : fl < 4096)
    (hodd : fl % 2 = 1)
    (hleft : ShownFrameLeft L s (.mapPage (KERNEL_BASE + D * 4096) page frame fl)) :
    PagingInv L (r.after L s (.mapPage (KERNEL_BASE + D * 4096) page frame fl))
      (L.paged s (.mapPage (KERNEL_BASE + D * 4096) page frame fl)) := by
  have hzero : ∀ op, 0 ∉ {t | L.AsksTable s op ∧ L.Hands s t} := fun op hmem => hmem.2.1 rfl
  by_cases hf : 0xC0000 ≤ frame
  · rw [PagingRecord.after, paged_high hf]
    refine h.addTables h.owned (fun c hc i hi t ht => .inl (h.tables c hc i hi t ht)) (hzero _) ?_
      h.high
    intro g hg
    exact absurd rfl hg
  · have hasks : L.AsksTable s (.mapPage (KERNEL_BASE + D * 4096) page frame fl) ↔
        s.pde D (page / 1024) = none ∧ ¬ (D = L.dirFrame ∧ page / 1024 = 0) :=
      h.owned.asksTable_iff hD (by omega) (by omega)
    have hroom : (s.pde D (page / 1024)).isSome ∨ (D = L.dirFrame ∧ page / 1024 = 0) ∨
        ∃ g < 0x40000, s.allocated g = false := by
      by_cases hnone : s.pde D (page / 1024) = none
      · by_cases hk : D = L.dirFrame ∧ page / 1024 = 0
        · exact .inr (.inl hk)
        · obtain ⟨g, -, hlt, hclear⟩ := hleft (.inr (hasks.mpr ⟨hnone, hk⟩))
          exact .inr (.inr ⟨g, hlt, hclear⟩)
      · exact .inl (Option.isSome_iff_ne_none.mpr hnone)
    obtain ⟨t, s₁, hsup, hsource, hmarks, hrun⟩ := h.owned.mapPage_run hD hp (f := frame) (by omega)
      hfl hroom
    obtain ⟨h₁, ht, -⟩ := h.owned.supplied hD (show page / 1024 < 768 by omega) hfl hodd hsup
    have h₂ := h₁.setEntry hD (by omega) ht (page % 1024) (frame * 4096 + fl)
    have hlow := (h₁.tableFrame D hD _ (by omega) t ht).1
    have hpaged : L.paged s (.mapPage (KERNEL_BASE + D * 4096) page frame fl) =
        (s₁.write t (page % 1024) (frame * 4096 + fl)).install (KERNEL_BASE + D * 4096)
          (page * 4096) (frame * 4096 + fl) := Layout.paged_mapPage hrun
    -- where the table comes from
    have hsrc : t ∈ r.forTables ∪
        {g | L.AsksTable s (.mapPage (KERNEL_BASE + D * 4096) page frame fl) ∧ L.Hands s g} := by
      cases hpde : s.pde D (page / 1024) with
      | some u =>
          cases hsup with
          | present hpres hs => exact .inl (h.tables D hD _ (by omega) t hpres)
          | added hnone =>
              rw [hpde] at hnone
              cases hnone
      | none =>
          have hfrom := hsource hpde
          split_ifs at hfrom with hk
          · rw [hfrom]
            exact .inl h.spare
          · have hhands : t ∈ {g | L.Hands s g} := by
              rw [Layout.hands_first h.owned.image hfrom (by omega)]
              rfl
            exact .inr ⟨hasks.mpr ⟨hpde, hk⟩, hhands⟩
    have hpde₂ : ∀ c ∈ r.forDirs, ∀ k,
        (s₁.write t (page % 1024) (frame * 4096 + fl)).pde c k = s₁.pde c k := fun c hc k =>
      State.pde_congr (by rw [State.mem_write_ne_frame _ _ _ (h₁.ne_dir hD (by omega) ht hc)])
    rw [PagingRecord.after, hpaged]
    refine h.addTables ?_ (fun c hc i hi u hu => ?_) (hzero _) (fun g hg => ?_) (fun g h1 h2 => ?_)
    · exact h₂.transfer (h₂.direct.congr (fun _ _ => rfl) (fun _ _ => rfl)) (fun g hg => hg)
        (fun _ _ _ => rfl)
    · rw [State.pde_install, hpde₂ c hc] at hu
      rcases hsup.pde_cases hfl hodd hu with hold | rfl
      · exact .inl (h.tables c hc i hi u hold)
      · exact hsrc
    · -- only the directory and the table change
      by_cases hgD : g = D
      · rw [hgD]
        exact .inl hD
      · by_cases hgt : g = t
        · rw [hgt]
          exact .inr hsrc
        · refine absurd ?_ hg
          rw [State.mem_install, State.mem_write_ne_frame _ _ _ hgt]
          exact hsup.mem_ne hgD
    · have hold := h.high g h1 h2
      by_contra hne
      rcases hmarks g (by simpa using hne) with hset | hgt
      · rw [hold] at hset
        cases hset
      · omega

end MapPage

/-! ### The other calls -/

theorem makeDirectory (h : PagingInv L r s) (hleft : ShownFrameLeft L s .makeDirectory) :
    PagingInv L (r.after L s .makeDirectory) (L.paged s .makeDirectory) := by
  obtain ⟨f, -, hlow, hclear⟩ := hleft (.inl rfl)
  obtain ⟨t, hle, ht⟩ := exists_first hclear
  obtain ⟨hge, hpos⟩ := h.owned.image.pos ht.1
  obtain ⟨s', hrun, hc⟩ := Layout.makeDirectory_run h.owned.direct h.owned.image ht (by omega)
  have hrun' : L.pagingCall .makeDirectory s = .ok (KERNEL_BASE + t * 4096) s' := hrun
  have hdirs : {a | ∃ s'', L.pagingCall .makeDirectory s = .ok a s''} = {KERNEL_BASE + t * 4096} := by
    ext a
    constructor
    · rintro ⟨s'', hr⟩
      rw [hrun'] at hr
      injection hr with heq
      exact heq.symm
    · rintro rfl
      exact ⟨s', hrun'⟩
  rw [PagingRecord.after, Layout.paged_of_ok hrun', hdirs,
    Layout.hands_first h.owned.image ht (by omega), Set.union_singleton, Set.union_singleton]
  have howned := h.owned.addDirectory (by omega) ht.1 hc.only.allocated hc.others hc.zero hc.copied
  have hnot : ∀ c ∈ r.forDirs, c ≠ t := by
    rintro c hin rfl
    have hset := (h.owned.dirFrame c hin).2
    rw [ht.1] at hset
    cases hset
  exact
    { owned := howned
      located := by
        rintro a (rfl | ha)
        · exact ⟨t, .inl rfl, rfl⟩
        · obtain ⟨D, hD, heq⟩ := h.located a ha
          exact ⟨D, .inr hD, heq⟩
      tables := by
        rintro D (rfl | hD) i hi u hu
        · -- the tables of the new directory are those of the kernel half
          by_cases hlt : i < 768
          · rw [State.pde_eq_some_iff, hc.zero i hlt] at hu
            cases hu.1
          · have hsame : s'.pde D i = s.pde L.dirFrame i := by
              have hcopy := hc.copied (i - 768) (by omega)
              rw [show 768 + (i - 768) = i by omega] at hcopy
              unfold State.pde
              rw [hcopy]
              rfl
            rw [hsame] at hu
            exact h.tables _ h.owned.kernel i hi u hu
        · have hsame : s'.pde D i = s.pde D i := State.pde_congr (by
            rw [hc.others D (hnot D hD)]
            rfl)
          rw [hsame] at hu
          exact h.tables D hD i hi u hu
      spare := h.spare
      nonzero := by
        refine ⟨?_, h.nonzero.2⟩
        rintro (h0 | hin)
        · exact hpos h0.symm
        · exact h.nonzero.1 hin
      writes := by
        refine Set.union_subset (h.writes.trans ?_) fun g hg => ?_
        · exact Set.union_subset_union_left _ (Set.subset_insert _ _)
        · by_cases hgt : g = t
          · exact .inl (.inl hgt)
          · exact absurd (hc.others g hgt) hg
      high := fun g h1 h2 => by
        rw [hc.only.allocated, State.allocated_take, h.high g h1 h2, Bool.false_or,
          decide_eq_false_iff_not]
        omega }

theorem store (h : PagingInv L r s) {frame : ℕ} (hd : frame ∉ r.forDirs) (ht : frame ∉ r.forTables)
    (i v : ℕ) : PagingInv L r (s.write frame i v) := by
  have hne : ∀ c ∈ r.forDirs, c ≠ frame := by
    rintro c hc rfl
    exact hd hc
  have hpde : ∀ c ∈ r.forDirs, ∀ k, (s.write frame i v).pde c k = s.pde c k := fun c hc k =>
    State.pde_congr (by rw [State.mem_write_ne_frame _ _ _ (hne c hc)])
  refine h.keep (h.owned.transfer ?_ (fun _ hg => hg) hpde) hpde h.high
  refine h.owned.direct.congr (fun k _ => ?_) (fun k hk => ?_)
  · rw [State.mem_write_ne_frame _ _ _ (hne _ h.owned.kernel)]
  · have hres := h.tables _ h.owned.kernel _ (by omega) _ (h.owned.pde_kernel hk)
    refine State.mem_write_ne_frame _ _ _ ?_
    rintro heq
    exact ht (heq ▸ hres)

theorem sameMem (h : PagingInv L r s) (hmem : s'.mem = s.mem) (himg : L.ImageMarked s')
    (hdirs : ∀ c ∈ r.forDirs, s'.allocated c = true)
    (htables : ∀ c ∈ r.forDirs, ∀ k < 1024, ∀ u, s.pde c k = some u → s'.allocated u = true)
    (hhigh : ∀ f, 0x80000 ≤ f → f < 0x100000 → s'.allocated f = false) : PagingInv L r s' := by
  have hpde : ∀ c ∈ r.forDirs, ∀ k, s'.pde c k = s.pde c k := fun c _ k =>
    State.pde_congr (by rw [hmem])
  refine h.keep (h.owned.keep ?_ himg hdirs htables hpde) hpde hhigh
  exact h.owned.direct.congr (fun _ _ => by rw [hmem]) (fun _ _ => by rw [hmem])

theorem takeFrame (h : PagingInv L r s) : PagingInv L r (L.paged s .takeFrame) := by
  have hpmm : PmmInv L [] s := ⟨h.owned.image, h.high, by simp⟩
  obtain ⟨a, s', -, hr, -⟩ := L.searches_first_fit s h.owned.image
  have hcall : L.pagingCall .takeFrame s = .ok a s' := hr
  have hop : L.pmmCall .processFrame s = .ok a s' := hr
  obtain ⟨f, -, -, -, htake, -⟩ := hpmm.asks (fun _ he => by cases he) hop
  have hafter := hpmm.call (fun _ he => by cases he) hop
  have hkept : ∀ g, s.allocated g = true → s'.allocated g = true := fun g hg =>
    ((stable_allocated g).processWordLoop _ _).ok hr hg
  rw [Layout.paged_of_ok hcall]
  exact h.sameMem (takeFrame_mem htake) hafter.image
    (fun c hc => hkept c (h.owned.dirFrame c hc).2)
    (fun c hc k hk u hu => hkept u (h.owned.tableFrame c hc k hk u hu).2) hafter.high

theorem clearFrame (h : PagingInv L r s) {f : ℕ} (hge : L.kernelFrames ≤ f) (hlt : f < 0x100000)
    (hd : f ∉ r.forDirs) (ht : f ∉ r.forTables) :
    PagingInv L r (L.paged s (.clearFrame f)) := by
  have hpmm : PmmInv L [f * 4096] s :=
    ⟨h.owned.image, h.high, fun b hb => ⟨f, by simpa using hb, hge, hlt⟩⟩
  obtain ⟨w, s', hr⟩ := clearFrame_ok (f * 4096) s
  have hcall : L.pagingCall (.clearFrame f) s = .ok w s' := hr
  have hop : L.pmmCall (.clear (f * 4096)) s = .ok w s' := hr
  have hafter := hpmm.call (fun b hb => by cases hb; exact List.mem_singleton.mpr rfl) hop
  have hkept : ∀ g, g ≠ f → s.allocated g = true → s'.allocated g = true := fun g hne hg => by
    rw [clearFrame_other hr hne, hg]
  rw [Layout.paged_of_ok hcall]
  refine h.sameMem (clearFrame_mem hr) hafter.image (fun c hc => ?_) (fun c hc k hk u hu => ?_)
    hafter.high
  · exact hkept c (by rintro rfl; exact hd hc) (h.owned.dirFrame c hc).2
  · have hin := h.tables c hc k hk u hu
    exact hkept u (by rintro rfl; exact ht hin) (h.owned.tableFrame c hc k hk u hu).2

end PagingInv

/-! ### Booting -/

theorem keeps_bootStore_other {f i g : ℕ} (hf : f < 1024) (hi : i < 1024) (hg : g ≠ f) (v : ℕ)
    (m : ℕ → Word) : Keeps (fun s => s.mem g = m) (bootStore (KERNEL_BASE + f * 4096 + 4 * i) v) := by
  intro s hs
  rw [bootStore_run v hf hi s]
  exact (State.mem_write_ne_frame s i v hg).trans hs

/-- `init_paging` writes the kernel directory and the tables of the image only. -/
theorem Layout.initPaging_others {L : Layout} {s s' : State} (hr : L.initPaging s = .ok () s')
    {g : ℕ} (hg : g < L.dirFrame ∨ L.kernelFrames ≤ g) : s'.mem g = s.mem g := by
  have hhigh := L.high
  obtain ⟨s₁, s₂, hrun₁, hrun₂, -, -, hrest⟩ := L.direct_map_exact s
  unfold Layout.kernelFrames at hg
  have hrun : L.initPaging s = .ok () s₂ := by
    unfold Layout.initPaging
    rw [run_bind_ok hrun₁, hrun₂]
  rw [hrun] at hr
  cases hr
  have htable : L.kernelPageTable = KERNEL_BASE + (L.dirFrame + 1) * 4096 := by
    unfold Layout.kernelPageTable Layout.kernelPageDir
    omega
  have hsetup : Keeps (fun t => t.mem g = s.mem g) L.setupEntries := by
    unfold Layout.setupEntries
    refine Keeps.times_lt fun i hi => ?_
    rw [L.kernelPageDir_eq, htable]
    exact (keeps_bootStore_other (by omega) hi (by omega) 0 _).bind fun _ =>
      keeps_bootStore_other (by omega) hi (by omega) 0 _
  exact (hrest g (by omega) (by omega)).trans (hsetup.ok hrun₁ rfl)

theorem PagingInv.boot {L : Layout} {mem : ℕ → ℕ → Word} {s s' : State}
    (hp : L.initPaging (State.powerOn mem) = .ok () s) (hm : L.initPmm s = .ok () s') :
    PagingInv L (.boot L (State.powerOn mem) s') s' := by
  have hhigh := L.high
  have hlow := L.low
  obtain ⟨s₁, s₂, hrun₁, hrun₂, h, -, -⟩ := Booting.start L mem
  rw [hrun₁] at hp
  cases hp
  obtain ⟨s₃, hrun₃, hpmm, -⟩ := L.initPmm_spec s
  rw [hrun₂] at hm hrun₃
  cases hm
  cases hrun₃
  have huse : ∀ f, L.imageUse f = .kernel ∨ L.imageUse f = .free := fun f =>
    (L.imageUse_cases f).imp And.left And.left
  have hdirs : {d | L.IsDir L.imageUse d} = {L.dirFrame} := by
    ext d
    constructor
    · rintro (rfl | ⟨o, ho⟩)
      · rfl
      · rcases huse d with hu | hu <;> rw [hu] at ho <;> cases ho
    · rintro rfl
      exact .inl rfl
  have howned := h.heap.inv.tablesOwned
  rw [hdirs] at howned
  exact
    { owned := howned
      located := by
        rintro a rfl
        exact ⟨L.dirFrame, rfl, rfl⟩
      tables := by
        rintro D rfl i hi t ht
        by_cases hlt : i < 768
        · have hu := (h.heap.inv.pde L.dirFrame i (.inl rfl) hlt t).mp ht
          rcases huse t with hu' | hu' <;> rw [hu'] at hu <;> cases hu
        · have hker := howned.pde_kernel (show i - 768 < 256 by omega)
          rw [show 768 + (i - 768) = i by omega, ht] at hker
          rw [Option.some.inj hker]
          exact ⟨by omega, by unfold Layout.kernelFrames; omega⟩
      spare := ⟨by omega, by unfold Layout.kernelFrames; omega⟩
      nonzero := by
        refine ⟨?_, fun h0 => absurd h0.1 (Nat.not_lt_zero _)⟩
        intro h0
        have heq : 0 = L.dirFrame := h0
        omega
      writes := by
        intro g hg
        by_contra hnot
        have hout : g < L.dirFrame ∨ L.kernelFrames ≤ g := by
          by_contra hin
          push Not at hin
          rcases Nat.eq_or_lt_of_le hin.1 with heq | hlt
          · exact hnot (.inl heq.symm)
          · exact hnot (.inr ⟨hlt, hin.2⟩)
        refine hg ?_
        rw [hpmm.mem]
        exact Layout.initPaging_others hrun₁ hout
      high := fun f h1 h2 => by
        rw [h.used f h2, decide_eq_false_iff_not]
        unfold Layout.kernelFrames
        omega }

/-! ### The property of the runs -/

section Runs

variable {L : Layout} {r : PagingRecord} {s : State}

theorem PagingInv.call (h : PagingInv L r s) {op : PagingOp} (allowed : r.Allows L op)
    (hleft : ShownFrameLeft L s op) : PagingInv L (r.after L s op) (L.paged s op) := by
  cases op with
  | mapPage dir page frame flags =>
      obtain ⟨hdir, hp, hfl, hodd⟩ := allowed
      obtain ⟨D, hD, rfl⟩ := h.located dir hdir
      exact h.mapPage hD hp hfl hodd hleft
  | makeDirectory => exact h.makeDirectory hleft
  | takeFrame => exact h.takeFrame
  | clearFrame frame =>
      obtain ⟨hge, hlt, hd, ht⟩ := allowed
      exact h.clearFrame hge hlt hd ht
  | store frame index value =>
      obtain ⟨hd, ht⟩ := allowed
      exact h.store hd ht index value

theorem PagingRun.inv (run : PagingRun L (ShownFrameLeft L) r s) : PagingInv L r s := by
  induction run with
  | boot hp hm => exact .boot hp hm
  | call _ op allowed hleft ih => exact ih.call allowed hleft

/-- As long as a frame that the direct map shows is clear whenever a directory or a table is
needed, every directory and every table lies in a frame handed out for it, and the paging code
writes no other frame. -/
theorem paging_sound (run : PagingRun L (ShownFrameLeft L) r s) : PagingSound L r s :=
  run.inv.sound

end Runs

/-- A directory made right after booting. -/
theorem paging_sound_directory : ∃ r s,
    PagingRun Layout.lowest (ShownFrameLeft Layout.lowest) r s ∧
      KERNEL_BASE + 514 * 4096 ∈ r.dirs ∧ PagingSound Layout.lowest r s := by
  obtain ⟨s₁, s₂, hrun₁, hrun₂, h, -⟩ := Booting.start Layout.lowest fun _ _ => 0
  have himg := h.heap.inv.image
  have hfirst : s₂.FirstFree 514 := h.used.first (by norm_num [Layout.kernelFrames, Layout.lowest])
  obtain ⟨s₃, hrun₃, -⟩ := Layout.makeDirectory_run h.heap.inv.direct himg hfirst (by norm_num)
  have run : PagingRun Layout.lowest (ShownFrameLeft Layout.lowest) _ _ :=
    .call (.boot hrun₁ hrun₂) .makeDirectory trivial
      fun _ => ⟨514, (himg.pos hfirst.1).1, by norm_num, hfirst.1⟩
  exact ⟨_, _, run, .inr ⟨s₃, hrun₃⟩, paging_sound run⟩

/-! ### Behind the first gigabyte -/

/-- Frame 514 belongs to a client and is shown at `0x10000000`; the frames below `m` are in
use. -/
structure DataPage (r : PagingRecord) (m : ℕ) (s : State) : Prop where
  run : PagingRun Layout.lowest (fun _ _ => True) r s
  used : s.UsedBelow m
  direct : Layout.lowest.DirectMap s
  table : s.pde 256 64 = some 515
  entry : (s.mem 515 0).toNat = 514 * 4096 + 3
  zero : (s.mem 514 768).toNat = 0
  notDir : 514 ∉ r.forDirs
  notTable : 514 ∉ r.forTables

/-- A client takes the first frame and maps it in the kernel directory. -/
theorem exists_dataPage : ∃ r s, DataPage r 516 s := by
  obtain ⟨s₁, s₂, hrun₁, hrun₂, h, -⟩ := Booting.start Layout.lowest fun _ _ => 0
  have hboot := PagingInv.boot hrun₁ hrun₂
  have hused : s₂.UsedBelow 514 := h.used
  have htake : Layout.lowest.pagingCall .takeFrame s₂ = .ok (514 * 4096) (s₂.take 514) := by
    have hframe := Layout.lowest.processFrame_eq hboot.owned.image (hused.first (by norm_num))
      (by norm_num)
    rw [takeFrame_low (by norm_num)] at hframe
    exact hframe
  have h₁ := hboot.takeFrame
  rw [Layout.paged_of_ok htake] at h₁
  have hused₁ := hused.take
  have hempty : (s₂.take 514).pde 256 (0x10000 / 1024) = none := by
    cases hpde : (s₂.take 514).pde 256 (0x10000 / 1024) with
    | none => rfl
    | some t =>
        have ht := (h.heap.inv.pde 256 64 (.inl rfl) (by norm_num) t).mp hpde
        rcases Layout.lowest.imageUse_cases t with ⟨hu, _⟩ | ⟨hu, _⟩ <;> rw [hu] at ht <;> cases ht
  obtain ⟨t, s₃, hsup, hsource, hmarks, hrun⟩ := h₁.owned.mapPage_run (d := 256) (p := 0x10000)
    (f := 514) rfl (by norm_num) (by norm_num) (show 3 < 4096 by norm_num)
    (.inr (.inr ⟨515, by norm_num, by rw [hused₁ 515 (by norm_num)]; decide⟩))
  have hnot : ¬ (256 = Layout.lowest.dirFrame ∧ 0x10000 / 1024 = 0) := by
    rintro ⟨-, h0⟩
    norm_num at h0
  have hfirst := hsource hempty
  rw [if_neg hnot] at hfirst
  obtain rfl : t = 515 := hused₁.eq_of_first (by norm_num) hfirst
  obtain ⟨h₃, ht, -⟩ := h₁.owned.supplied (d := 256) rfl (by norm_num) (by norm_num) (by norm_num)
    hsup
  have hleft : ShownFrameLeft Layout.lowest (s₂.take 514)
      (.mapPage (KERNEL_BASE + 256 * 4096) 0x10000 514 3) := fun _ =>
    ⟨515, by norm_num [Layout.kernelFrames, Layout.lowest], by norm_num, hfirst.1⟩
  have h₄ := h₁.mapPage (D := 256) rfl (by norm_num) (by norm_num) (by norm_num) hleft
  rw [Layout.paged_mapPage hrun] at h₄
  have run : PagingRun Layout.lowest (fun _ _ => True) _ _ :=
    .call (.call (.boot hrun₁ hrun₂) .takeFrame trivial trivial)
      (.mapPage (KERNEL_BASE + 256 * 4096) 0x10000 514 3)
      ⟨rfl, by norm_num, by norm_num, by norm_num⟩ trivial
  rw [Layout.paged_of_ok htake, Layout.paged_mapPage hrun] at run
  have hused₃ : s₃.UsedBelow 516 := by
    cases hsup with
    | present hpres => rw [hempty] at hpres; cases hpres
    | added hnone hlow hdir hnew hspare hmem hmark hkept =>
        intro g hg
        rw [← hused₁.take g hg, State.allocated_take, Bool.eq_iff_iff]
        simp only [Bool.or_eq_true, decide_eq_true_eq]
        exact ⟨hmarks g, fun hor => hor.elim (hkept g) fun heq => heq ▸ hmark⟩
  have hzero : s₂.mem 514 = fun _ => 0 := by
    obtain ⟨s', hrun', hpmm, -⟩ := Layout.lowest.initPmm_spec s₁
    rw [hrun₂] at hrun'
    cases hrun'
    rw [hpmm.mem, Layout.initPaging_others hrun₁
      (.inr (by norm_num [Layout.kernelFrames, Layout.lowest]))]
    rfl
  refine ⟨_, _, ⟨run, hused₃, h₄.owned.direct, ?_, ?_, ?_, ?_, ?_⟩⟩
  · rw [State.pde_install, State.pde_write_ne _ _ _ _ (by norm_num)]
    exact ht
  · rw [State.mem_install, show 0x10000 % 1024 = 0 by norm_num, State.toNat_write _ (by norm_num)]
  · rw [State.mem_install, State.mem_write_ne_frame _ _ _ (by norm_num), hsup.mem_ne (by norm_num),
      State.mem_take, hzero]
    rfl
  · intro hin
    have heq : 514 = 256 := hin
    norm_num at heq
  · rintro (⟨-, hlt⟩ | ⟨-, hhands⟩)
    · norm_num [Layout.kernelFrames, Layout.lowest] at hlt
    · have hin : 514 ∈ {g | Layout.lowest.Hands (s₂.take 514) g} := hhands
      rw [Layout.hands_first h₁.owned.image hfirst (by norm_num)] at hin
      have heq : 514 = 515 := hin
      norm_num at heq

namespace DataPage

variable {r : PagingRecord} {m : ℕ} {s : State}

theorem image (h : DataPage r m s) (hm : 514 ≤ m) : Layout.lowest.ImageMarked s :=
  h.used.image (by simpa [Layout.kernelFrames, Layout.lowest] using hm)

theorem takeFrame (h : DataPage r m s) (h1 : 516 ≤ m) (h2 : m < 0x80000) :
    DataPage r (m + 1) (s.take m) := by
  have hrun : Layout.lowest.pagingCall .takeFrame s = .ok (m * 4096) (s.take m) := by
    have hframe := Layout.lowest.processFrame_eq (h.image (by omega)) (h.used.first (by omega))
      (by omega)
    rw [takeFrame_low h2] at hframe
    exact hframe
  have run := PagingRun.call h.run .takeFrame trivial trivial
  rw [Layout.paged_of_ok hrun] at run
  exact ⟨run, h.used.take, ⟨h.direct.dir, h.direct.table⟩, h.table, h.entry, h.zero, h.notDir,
    h.notTable⟩

theorem takeFrames (h : DataPage r m s) (h1 : 516 ≤ m) :
    ∀ n, m + n ≤ 0x80000 → ∃ s', DataPage r (m + n) s'
  | 0, _ => ⟨s, h⟩
  | n + 1, hn => by
      obtain ⟨s', h'⟩ := takeFrames h h1 n (by omega)
      exact ⟨_, h'.takeFrame (by omega) (by omega)⟩

theorem walk (h : DataPage r m s) {t : State} (ht : ∀ g, g ≠ 514 → t.mem g = s.mem g) {i : ℕ}
    (hi : i < 1024) : t.walk 256 (0x10000000 + 4 * i) = some (514 * 4096 + 3) := by
  have hdir : (0x10000000 + 4 * i) / 2 ^ 22 = 64 := by omega
  have hpage : (0x10000000 + 4 * i) / 4096 % 1024 = 0 := by omega
  have hpde : t.pde 256 ((0x10000000 + 4 * i) / 2 ^ 22) = some 515 := by
    rw [hdir, ← h.table]
    exact State.pde_congr (by rw [ht 256 (by norm_num)])
  rw [State.walk_of_pde hpde, hpage, ht 515 (by norm_num), h.entry]
  rfl

/-- The next directory is written over the client's page. -/
theorem overwrites (h : DataPage r 0x50000 s) :
    ∃ s', Layout.lowest.pagingCall .makeDirectory s = .ok 0x10000000 s' ∧
      s'.mem 514 ≠ s.mem 514 := by
  have hframe : Layout.lowest.getNextFreeKernelFrame s = .ok (0x50000 * 4096) (s.take 0x50000) :=
    Layout.kernelFrame_first (h.image (by norm_num)) (h.used.first (by norm_num)) (by norm_num)
  have hdirect : Layout.lowest.DirectMap (s.take 0x50000) := ⟨h.direct.dir, h.direct.table⟩
  have hbehind : Layout.lowest.kernelFrames ≤ 514 := le_rfl
  have haddr : u32 (0x50000 * 4096 + 0xC0000000) = 0x10000000 := by decide
  obtain ⟨s', hrun, hc⟩ : ∃ s', Layout.lowest.clearDirectory 0x10000000 (s.take 0x50000) =
      .ok () s' ∧ ClearedUpTo Layout.lowest 514 256 (s.take 0x50000) s' := by
    apply Layout.clearDirectory_shown (by decide)
    · intro t ht i hi v
      have hindex : (0x10000000 + 4 * i) % 4096 / 4 = i := by omega
      rw [Layout.lowest.store_of_walk v (h.walk ht hi), hindex]
    · intro t ht i hi
      rw [Layout.kernelPageDir_eq]
      exact (hdirect.of_others hbehind ht).load_direct (by decide) hi
  refine ⟨s', ?_, fun hsame => ?_⟩
  · show Layout.lowest.createProcessPageDirectory s = _
    unfold Layout.createProcessPageDirectory
    rw [run_bind_ok hframe]
    simp only [haddr]
    rw [run_bind_ok hrun]
    rfl
  · -- the first entry of the kernel half is present
    have hcopy := hc.copied 0 (by norm_num)
    have hword := h.direct.dir 0 (by norm_num)
    have hzero := h.zero
    rw [← hsame, hcopy, State.mem_take, hword] at hzero
    norm_num [Layout.lowest] at hzero

end DataPage

/-- When the frames below 1.25 GB are in use, the directory of the next process is written into
memory that a client was given. -/
theorem directory_over_data : ∃ r s, PagingRun Layout.lowest (fun _ _ => True) r s ∧
    514 ∈ r.written ∧ 514 ∉ r.forDirs ∪ r.forTables ∧ 0x10000000 ∈ r.dirs ∧
    ¬ PagingSound Layout.lowest r s := by
  obtain ⟨r, s₀, h₀⟩ := exists_dataPage
  obtain ⟨s, h⟩ := h₀.takeFrames le_rfl (0x50000 - 516) (by norm_num)
  obtain ⟨s', hrun, hne⟩ := h.overwrites
  have run := PagingRun.call h.run .makeDirectory trivial trivial
  have hframe := Layout.hands_first (h.image (by norm_num)) (h.used.first (by norm_num))
    (by norm_num)
  have hwritten : 514 ∈ (r.after Layout.lowest s .makeDirectory).written := by
    refine .inr ?_
    rw [Layout.paged_of_ok hrun]
    exact hne
  have hnot : 514 ∉ (r.after Layout.lowest s .makeDirectory).forDirs ∪
      (r.after Layout.lowest s .makeDirectory).forTables := by
    rintro ((hdir | hhands) | htable)
    · exact h.notDir hdir
    · rw [hframe] at hhands
      have heq : 514 = 516 + (0x50000 - 516) := hhands
      norm_num at heq
    · exact h.notTable htable
  exact ⟨_, _, run, hwritten, hnot, .inr ⟨s', hrun⟩, fun hsound => hnot (hsound.writes hwritten)⟩

end RaxzusHeap
