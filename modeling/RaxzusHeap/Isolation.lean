import RaxzusHeap.KernelHalf

/-! # What a directory reaches below the kernel half

Every domain and every process has a directory of its own so that it reaches its own memory
only.  That needs more than installing the right entries: `map_page` takes a frame for a new
table as it is, and whatever the frame held before is a table entry from then on.

As long as no table was drawn from a frame that still held a word with the present bit set,
the MMU finds exactly what `map_page` installed, and no two directories share a frame
(`directories_isolated`).  Memory that is not zero at power-on is enough for the opposite
(`stale_page_reached`). -/

namespace RaxzusHeap

open Imperative FirstFit

/-- The lower half of every directory made so far is isolated: a present page was installed,
with the entry found there, and no frame is seen through two of the directories. -/
structure Isolated (s : State) (procs : List Process) : Prop where
  located : ∀ a, DirectoryAddr s procs a → ∃ D, a = KERNEL_BASE + D * 4096
  installed : ∀ D, DirectoryAddr s procs (KERNEL_BASE + D * 4096) → ∀ va < 0xC0000000, ∀ e,
    s.walk D va = some e → s.maps D (va / 4096) = some e
  apart : ∀ D D', DirectoryAddr s procs (KERNEL_BASE + D * 4096) →
    DirectoryAddr s procs (KERNEL_BASE + D' * 4096) → D ≠ D' →
    ∀ va < 0xC0000000, ∀ va' < 0xC0000000, ∀ e e', s.walk D va = some e →
      s.walk D' va' = some e' → e / 4096 ≠ e' / 4096

/-! ### The walk finds what was installed -/

/-- Two directories other than the kernel's have no frame in common. -/
theorem HeapPages.maps_apart {L : Layout} {use : ℕ → Use} {s : State} (h : HeapPages L use s)
    {D D' p p' e e' : ℕ} {o o' : Owner} (hD : use D = .dir o) (hD' : use D' = .dir o')
    (hne : D ≠ D') (hm : s.maps D p = some e) (hm' : s.maps D' p' = some e') :
    e / 4096 ≠ e' / 4096 := by
  have hown : ∀ {C c q x}, use C = .dir c → s.maps C q = some x → use (x / 4096) = .page q →
      use C = .dir (homeOf q) := by
    intro C c q x hC hx hq
    rcases h.owner C q x hx hq with rfl | hhome
    · rw [h.inv.use_dirFrame] at hC
      cases hC
    · exact hhome
  intro hsame
  rcases h.inv.backed D p e hm with hu | hu <;> rcases h.inv.backed D' p' e' hm' with hu' | hu'
  · have hp : p = p' := by
      have hboth := hu
      rw [hsame, hu'] at hboth
      injection hboth with hpp
      exact hpp.symm
    subst hp
    exact hne (h.dir_unique (hown hD hm hu) (hown hD' hm' hu') (homeOf_ne_proc p))
  · rw [hsame, hu'] at hu
    cases hu
  · rw [hsame, hu'] at hu
    cases hu
  · rw [hsame, hu'] at hu
    injection hu with hDD
    exact hne hDD.symm

/-- The kernel's invariant gives isolation while no table holds stale entries. -/
theorem KernelInv.isolated {L : Layout} {use : ℕ → Use} {live ranges : ℕ → Option ℕ}
    {procs : List Process} {s : State} (h : KernelInv L use live ranges procs s)
    (hst : s.stale = false) : Isolated s procs := by
  have hdir : ∀ {D}, DirectoryAddr s procs (KERNEL_BASE + D * 4096) → ∃ o, use D = .dir o := by
    intro D ha
    obtain ⟨D', o, heq, hD'⟩ := h.directory ha
    obtain rfl : D = D' := by omega
    exact ⟨o, hD'⟩
  have hmaps : ∀ {D}, DirectoryAddr s procs (KERNEL_BASE + D * 4096) → ∀ va < 0xC0000000, ∀ e,
      s.walk D va = some e → s.maps D (va / 4096) = some e := fun ha va hva e hw =>
    h.heap.pages.inv.maps_of_walk hst (Or.inr (hdir ha)) hva hw
  refine ⟨fun a ha => ?_, fun D ha => hmaps ha,
    fun D D' ha ha' hne va hva va' hva' e e' hw hw' => ?_⟩
  · obtain ⟨D, -, heq, -⟩ := h.directory ha
    exact ⟨D, heq⟩
  · obtain ⟨o, hD⟩ := hdir ha
    obtain ⟨o', hD'⟩ := hdir ha'
    exact h.heap.pages.maps_apart hD hD' hne (hmaps ha va hva e hw) (hmaps ha' va' hva' e' hw')

/-! ### Runs -/

/-- Fifteen frames below 1.25 GB are clear before the call, which stays in its regions. -/
structure CreationFits (c : CreateCall) : Prop where
  region : ∀ d, d = .heap128 ∨ d = .heap4k → (c.before.domains d).nextFreeBlock = 0 →
    (c.before.domains d).nextVirtAddr < d.virtBase + 0x10000000
  room : Room c.before.allocated 15 0x50000

section Runs

variable {L : Layout} {live : ℕ → Option ℕ} {procs : List Process} {s : State}

/-- Such runs keep the invariant of the kernel. -/
theorem KernelRun.fits (run : KernelRun L (CallFits L) CreationFits live procs s) :
    (∃ use ranges, KernelInv L use live ranges procs s) ∧ Room s.allocated 3 0x50000 ∧
      SizesFit live := by
  induction run with
  | @boot mem t h =>
      obtain ⟨use, m, t', hrun, hb⟩ := L.boot_spec mem
      rw [hrun] at h
      cases h
      have hlow := hb.bounded
      exact ⟨⟨use, noLive, hb.kernelInv⟩, hlow.low.room, hlow.fit⟩
  | heap run legal own hr hG ih =>
      obtain ⟨⟨use, ranges, h⟩, hroom, hfit⟩ := ih
      obtain ⟨use', ranges', h', he, hfit'⟩ := HeapInv.callFits (c := ⟨_, _, _, _, _⟩) h.heap hroom
        hfit legal hr hG
      exact ⟨⟨use', ranges', h.heapCall he h' hfit own⟩, hG.room, hfit'⟩
  | @create live procs s func isUser r s' run hr hC ih =>
      obtain ⟨⟨use, ranges, h⟩, -, hfit⟩ := ih
      obtain ⟨l, -, -, hends⟩ := h.createProcess (n := 3) le_rfl hC.room hC.region func isUser
      obtain ⟨x, use', live', rfl, h', hc, hleft⟩ := hends.ok hr
      have hlive : liveCreated live (some x) = live' := hc.blocks.symm
      rw [hlive]
      refine ⟨⟨use', ranges, h'⟩, hleft, ?_⟩
      rw [← hlive]
      exact (hfit.update _ (by norm_num [PCB_SIZE])).update _ (by norm_num)

/-- After every run in which no table was drawn from a frame with a present entry, every
directory of a domain or a process reaches its own pages and frames only. -/
theorem directories_isolated (run : KernelRun L (CallFits L) CreationFits live procs s)
    (hclean : s.stale = false) : Isolated s procs := by
  obtain ⟨⟨use, ranges, h⟩, -, -⟩ := run.fits
  exact h.isolated hclean

/-- Whatever free memory contained: in every run the kernel directory maps nothing below the heap,
so that a null pointer, a field of one, and the operand of `push 0` in `isr_wrapper_0` fault; and
below the kernel a process maps nothing outside the tables of its code and its stack. -/
theorem nothing_mapped_outside (run : KernelRun L (CallFits L) CreationFits live procs s) :
    (∀ va < 0x10000000, s.walk L.dirFrame va = none) ∧
      ∀ x ∈ procs, ∀ D, x.pageDir = KERNEL_BASE + D * 4096 → ∀ va < 0xC0000000,
        va / 2 ^ 22 ≠ PROC_CODE_VIRT / 2 ^ 22 → va / 2 ^ 22 ≠ PROC_STACK_VIRT / 2 ^ 22 →
          s.walk D va = none := by
  obtain ⟨⟨use, ranges, h⟩, -, -⟩ := run.fits
  refine ⟨fun va hva => h.heap.pages.walk_low hva, fun x hx D hD va hva hcode hstack => ?_⟩
  obtain ⟨D', home⟩ := (h.home x hx).memory
  have same : D' = D := by
    have := home.pageDir
    omega
  subst same
  apply State.walk_of_pde_none
  cases hpde : s.pde D' (va / 2 ^ 22) with
  | none => rfl
  | some t =>
      have table := (h.heap.pages.inv.pde D' _ (.inr ⟨_, home.dir⟩) (by omega) t).mp hpde
      rcases home.tables t _ table with e | e
      · exact absurd e hstack
      · exact absurd e hcode

end Runs

/-! ### Memory at power-on -/

/-- The kernel has stock for more calls, and neither a table nor a free frame holds an entry that
`map_page` did not install. -/
structure Unspoilt (L : Layout) (c k : ℕ) (live : ℕ → Option ℕ) (procs : List Process) (s : State) :
    Prop where
  stock : Stocked L c 0 k live s
  kernel : ∃ use ranges, KernelInv L use live ranges procs s ∧ CleanMemory use s
  clean : s.stale = false
  listed : s.processLists = 0 → s.currentIndex = 0

namespace Unspoilt

variable {L : Layout} {c k : ℕ} {live : ℕ → Option ℕ} {procs : List Process} {s : State}

theorem booted : ∃ s, Layout.highest.boot (State.powerOn fun _ _ => 0) = .ok () s ∧
    Unspoilt Layout.highest 65280 200000 noLive [] s := by
  obtain ⟨use, m, s, hboot, hb, hmem, hstale⟩ := Layout.boot_clean
  exact ⟨s, hboot, hb.stocked.mono le_rfl (Nat.zero_le _) le_rfl, ⟨use, noLive, hb.kernelInv, hmem⟩,
    hstale, fun _ => hb.noList.1⟩

theorem region (h : Unspoilt L (c + 1) k live procs s) (d : SizeClass) :
    (s.domains d).nextVirtAddr < d.virtBase + 0x10000000 := by
  have := h.stock.region d
  omega

/-- A process more. -/
theorem create (h : Unspoilt L (c + 1) (k + 15) live procs s) (func : ℕ) :
    ∃ x s', L.createProcess func false s = .ok (some x) s' ∧
      CreationFits ⟨s, func, false, some x, s'⟩ ∧
      Unspoilt L c k (liveCreated live (some x)) (procs ++ [x]) s' := by
  obtain ⟨use, ranges, hk, hmem⟩ := h.kernel
  have hroom : RoomBelow 0x40000 15 s :=
    h.stock.frames.room.anti (k + 15) 15 s (Nat.le_add_left _ _)
  obtain ⟨l, hl, -, hends⟩ := hk.createProcess (n := 0) (m := 0x40000) (by norm_num)
    (hroom.anti 15 12 s (by norm_num)) (fun d _ _ => h.region d) func false
  have hcosts := ((frameCount_ample L).createProcess func false).ends
    (h.stock.frames.anti (k := k + 11) (by omega))
  obtain ⟨r, s', hr, ⟨x, use', live', rfl, h', hc, -⟩, hleft⟩ :=
    ((hends.and hcosts).mono (fun _ _ hq => hq) fun _ hE => by
      rcases hE.1 with hlt | ⟨hu, -⟩ | ⟨hindex, rfl⟩
      · exact lt_irrefl _ hlt
      · cases hu
      · exact hindex (h.listed hl.of_nil)).exists_ok
  have hlive : liveCreated live (some x) = live' := hc.blocks.symm
  refine ⟨x, s', hr, ⟨fun d _ _ => h.region d, hroom.mono le_rfl (by norm_num)⟩, ?_⟩
  rw [hlive]
  have hfit : SizesFit live' := by
    rw [← hlive]
    exact (h.stock.heap.fit.update _ (by norm_num [PCB_SIZE])).update _ (by norm_num)
  refine ⟨⟨⟨⟨use', ranges, h'.heap⟩, hleft.low, hfit⟩, hleft, fun d => ?_, ?_⟩,
    ⟨use', ranges, h', hc.spares.cleanMemory hmem⟩, (hc.spares.clean hmem).trans h.clean,
    fun h0 => ?_⟩
  · have := hc.cursor d
    have := h.stock.region d
    omega
  · have := h'.heap.large.cursor_le
    omega
  · have hlist := hc.list
    rw [h0] at hlist
    have hnil := hlist.eq_nil
    split_ifs at hnil
    exact absurd hnil (by simp)

theorem kmalloc (h : Unspoilt L (c + 1) (k + 3) live procs s) {d : SizeClass} {n : ℕ}
    (hclass : classOf n = some d) :
    ∃ a s', L.kmalloc n s = .ok a s' ∧ CallFits L ⟨live, s, .kmalloc n, a, s'⟩ ∧
      Unspoilt L c k (liveAfter live (.kmalloc n) a) procs s' := by
  obtain ⟨use, ranges, hk, hmem⟩ := h.kernel
  obtain ⟨a, s', hr, hG, -, hstock⟩ := h.stock.kmalloc_small hclass
  obtain ⟨use', ranges', h', he, -⟩ := HeapInv.callWithin (c := ⟨live, s, .kmalloc n, a, s'⟩)
    hk.heap h.stock.heap.low h.stock.heap.fit trivial hr hG
  obtain ⟨-, hpop⟩ := he.of_small (d := d) (n := n) (by simp [HeapOp.small, hclass])
  obtain ⟨hindex, hlists⟩ := he.processVars
  have hk' := hk.heapCall he h' h.stock.heap.fit fun p hp => by cases hp
  exact ⟨a, s', hr, hG.callFits, hstock,
    ⟨use', ranges', hk', hpop.spares.cleanMemory hmem⟩, (hpop.spares.clean hmem).trans h.clean,
    fun h0 => by rw [hindex]; exact h.listed (by rw [← hlists]; exact h0)⟩

theorem two_processes : ∃ s₀ x s₁ a s₂ y s₃ live,
    Layout.highest.boot (State.powerOn fun _ _ => 0) = .ok () s₀ ∧
      Layout.highest.createProcess 0xC0101000 false s₀ = .ok (some x) s₁ ∧
      Layout.highest.kmalloc 64 s₁ = .ok a s₂ ∧
      Layout.highest.createProcess 0xC0102000 false s₂ = .ok (some y) s₃ ∧
      KernelRun Layout.highest (CallFits Layout.highest) CreationFits live [x, y] s₃ ∧
      s₃.stale = false := by
  obtain ⟨s₀, hboot, h₀⟩ := booted
  obtain ⟨x, s₁, hr₁, hC₁, h₁⟩ := create (c := 65279) (k := 199985) h₀ 0xC0101000
  obtain ⟨a, s₂, hr₂, hG₂, h₂⟩ := kmalloc (c := 65278) (k := 199982) h₁ (d := .heap64) (n := 64)
    (by decide)
  obtain ⟨y, s₃, hr₃, hC₃, h₃⟩ := create (c := 65277) (k := 199967) h₂ 0xC0102000
  have run₁ := (KernelRun.boot (G := CallFits Layout.highest) hboot).create hr₁ hC₁
  have run₂ := run₁.heap (show Legal _ (.kmalloc 64) from trivial)
    (fun p hp => by cases hp) hr₂ hG₂
  exact ⟨s₀, x, s₁, a, s₂, y, s₃, _, hboot, hr₁, hr₂, hr₃, run₂.create hr₃ hC₃, h₃.clean⟩

end Unspoilt

/-- With two processes, neither the kernel nor one of them has the first page. -/
theorem nothing_mapped_outside_null : ∃ s₀ x s₁ a s₂ y s₃,
    Layout.highest.boot (State.powerOn fun _ _ => 0) = .ok () s₀ ∧
      Layout.highest.createProcess 0xC0101000 false s₀ = .ok (some x) s₁ ∧
      Layout.highest.kmalloc 64 s₁ = .ok a s₂ ∧
      Layout.highest.createProcess 0xC0102000 false s₂ = .ok (some y) s₃ ∧
      s₃.walk Layout.highest.dirFrame 0 = none ∧
      ∀ z ∈ [x, y], ∀ D, z.pageDir = KERNEL_BASE + D * 4096 → s₃.walk D 0 = none := by
  obtain ⟨s₀, x, s₁, a, s₂, y, s₃, live, hboot, hr₁, hr₂, hr₃, run, -⟩ := Unspoilt.two_processes
  obtain ⟨hkernel, hprocs⟩ := nothing_mapped_outside run
  exact ⟨s₀, x, s₁, a, s₂, y, s₃, hboot, hr₁, hr₂, hr₃, hkernel 0 (by norm_num),
    fun z hz D hD => hprocs z hz D hD 0 (by norm_num) (by decide) (by decide)⟩

/-- With zero memory two processes are isolated from each other and from the domains. -/
theorem directories_isolated_zero : ∃ s₀ x s₁ a s₂ y s₃,
    Layout.highest.boot (State.powerOn fun _ _ => 0) = .ok () s₀ ∧
      Layout.highest.createProcess 0xC0101000 false s₀ = .ok (some x) s₁ ∧
      Layout.highest.kmalloc 64 s₁ = .ok a s₂ ∧
      Layout.highest.createProcess 0xC0102000 false s₂ = .ok (some y) s₃ ∧
      Isolated s₃ [x, y] := by
  obtain ⟨s₀, x, s₁, a, s₂, y, s₃, live, hboot, hr₁, hr₂, hr₃, run, hclean⟩ :=
    Unspoilt.two_processes
  exact ⟨s₀, x, s₁, a, s₂, y, s₃, hboot, hr₁, hr₂, hr₃, directories_isolated run hclean⟩

/-- With a 1 in every word at power-on, the directory of `heap_64` shows the page behind the
premapped ones, which nobody installed: it is the first frame of the kernel image. -/
theorem stale_page_reached : ∃ s D,
    Layout.highest.boot (State.powerOn fun _ _ => 1) = .ok () s ∧
    (s.domains .heap64).pageDirectory = KERNEL_BASE + D * 4096 ∧
    s.walk D 0x10100000 = some 1 ∧ s.maps D 0x10100 = none ∧ ¬ Isolated s [] := by
  obtain ⟨use, m, s, hboot, hb, hwords, -⟩ := Layout.highest.boot_words fun _ _ => 1
  have hdom := hb.heap.dom .heap64
  have hpages := hb.heap.pages
  obtain ⟨D, hD⟩ := hdom.home
  have hcursor : (s.domains .heap64).nextVirtAddr = 0x10100000 := hb.cursor .heap64
  have haddr : (s.domains .heap64).pageDirectory = KERNEL_BASE + D * 4096 :=
    hpages.dirs (.cls .heap64) D hD (by simp)
  -- the table of the first page
  obtain ⟨f, hf⟩ := (hdom.backed 0x10000 le_rfl (by norm_num [SizeClass.virtBase])).mpr
    (by rw [hcursor]; norm_num)
  obtain ⟨D', hD', hmap⟩ := hpages.homeMap f _ hf
  obtain rfl := hpages.dir_unique hD' hD (homeOf_ne_proc _)
  obtain ⟨-, -, t, ht, -⟩ := hpages.inv.pte _ _ _ hmap
  have hge : 1024 ≤ t := by
    by_contra hlt
    rw [hpages.inv.kernel_of_lt (show t < 1024 by omega)] at ht
    cases ht
  have hnone : s.maps D' 0x10100 = none := by
    by_contra hne
    obtain ⟨e, he⟩ := Option.ne_none_iff_exists'.mp hne
    rcases hpages.inv.backed _ _ _ he with hu | hu
    · have := (hdom.backed 0x10100 (by norm_num [SizeClass.virtBase])
        (by norm_num [SizeClass.virtBase])).mp ⟨_, hu⟩
      rw [hcursor] at this
      omega
    · have := hpages.priv _ _ _ hu
      rw [hD] at this
      cases this
  have hword : s.mem t 256 = 1 := hwords t 256 hge (by norm_num) (.inr ⟨D', _, ht, hnone⟩)
  have hpde : s.pde D' (0x10100000 / 2 ^ 22) = some t :=
    (hpages.inv.pde D' _ (Or.inr ⟨_, hD⟩) (by norm_num) t).mpr ht
  have hwalk : s.walk D' 0x10100000 = some 1 := by
    rw [State.walk_of_pde hpde, hword]
    decide
  refine ⟨s, D', hboot, haddr, hwalk, hnone, fun hiso => ?_⟩
  have hinst := hiso.installed D' (Or.inl ⟨.heap64, haddr.symm⟩) 0x10100000 (by norm_num) 1 hwalk
  rw [hnone] at hinst
  cases hinst

end RaxzusHeap
