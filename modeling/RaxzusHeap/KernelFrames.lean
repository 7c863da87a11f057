import RaxzusHeap.AddressSpaces
import RaxzusHeap.KernelRuns

/-! # Frames beyond the direct map

Directories and page tables are reached through the direct map, which shows the first
gigabyte of physical memory, but `get_next_free_kernel_frame` searches all four.  It returns
an address that the direct map shows, or 0, exactly while a frame below 1 GB is clear or no
frame at all is (`kernel_frame_mapped_iff`).

`Filling` uses the lower frames up: as long as frames are left some size class has a block
to give, and there are only so many blocks.  The last frames go to one range of the large
domain (`Carving`), which needs new tables for its first page only; so the machine does not
stop on a table beyond 1 GB before the bitmap is full there (`kernel_frame_beyond_map`). -/

namespace RaxzusHeap

open Imperative FirstFit

/-! ### What the search returns -/

/-- No frame from `a` on is clear in `[lo, hi)`. -/
def State.NoneClear (s : State) (a lo hi : ℕ) : Prop :=
  ∀ g, lo ≤ g → g < hi → a ≤ g → s.allocated g = true

/-- Frame `f` is the first clear one from `a` on, looking from `lo`. -/
structure State.FirstClear (s : State) (a lo f : ℕ) : Prop where
  ge : a ≤ f
  clear : s.allocated f = false
  none : s.NoneClear a lo f

section Search

variable {a lo mid hi f index : ℕ} {s : State}

theorem State.NoneClear.append (h : s.NoneClear a lo mid) (h' : s.NoneClear a mid hi) :
    s.NoneClear a lo hi := by
  intro g h1 h2 hg
  by_cases hlt : g < mid
  · exact h g h1 hlt hg
  · exact h' g (by omega) h2 hg

theorem State.FirstClear.prepend (h : s.FirstClear a mid f) (h' : s.NoneClear a lo mid) :
    s.FirstClear a lo f := ⟨h.ge, h.clear, h'.append h.none⟩

/-- The bit loop finds no clear frame from `a` on, or it returns the first one. -/
theorem kernelBitLoop_cases (hi : index < 32768) : ∀ n b, b + n = 32 →
    (kernelBitLoop (a * 4096) index n b (1#32 <<< b) s = .ok none s ∧
      s.NoneClear a (index * 32 + b) ((index + 1) * 32)) ∨
    ∃ f s', kernelBitLoop (a * 4096) index n b (1#32 <<< b) s = .ok (some (f * 4096)) s' ∧
      f < (index + 1) * 32 ∧ s.FirstClear a (index * 32 + b) f
  | 0, b, hn => .inl ⟨rfl, fun g h1 h2 => by omega⟩
  | n + 1, b, hn => by
      have htest := @bit_test s index b (by omega)
      have hshift : (1#32 <<< b) <<< 1 = 1#32 <<< (b + 1) := (BitVec.shiftLeft_add 1#32 b 1).symm
      have hnext := kernelBitLoop_cases hi n (b + 1) (by omega)
      rw [kernelBitLoop]
      simp only [frame_address hi (show b < 32 by omega)]
      rw [run_bind_ok (run_get s), hshift]
      have hskip : ∀ _ : s.NoneClear a (index * 32 + b) (index * 32 + (b + 1)),
          (kernelBitLoop (a * 4096) index n (b + 1) (1#32 <<< (b + 1)) s = .ok none s ∧
            s.NoneClear a (index * 32 + b) ((index + 1) * 32)) ∨
          ∃ f s', kernelBitLoop (a * 4096) index n (b + 1) (1#32 <<< (b + 1)) s =
              .ok (some (f * 4096)) s' ∧
            f < (index + 1) * 32 ∧ s.FirstClear a (index * 32 + b) f := by
        intro hb
        refine hnext.imp (fun h => ⟨h.1, hb.append h.2⟩) ?_
        rintro ⟨f, s', hrun, hlt, hf⟩
        exact ⟨f, s', hrun, hlt, hf.prepend hb⟩
      split_ifs with hclear hlow
      · -- the frame lies before `a`
        exact hskip fun g h1 h2 hg => by omega
      · obtain ⟨s', hs'⟩ := takeFrame_ok (index * 32 + b) s
        refine .inr ⟨index * 32 + b, s', ?_, by omega, by omega, htest.mp hclear,
          fun g h1 h2 => by omega⟩
        have hrun : (do let x ← takeFrame (index * 32 + b); pure (some x) : Kernel (Option ℕ)) s =
            .ok (some ((index * 32 + b) * 4096)) s' := by
          rw [run_bind_ok hs']
          rfl
        rw [← hrun]
        simp only [takeFrame, bind_assoc, pure_bind]
      · apply hskip
        intro g h1 h2 _
        obtain rfl : g = index * 32 + b := by omega
        cases h : s.allocated (index * 32 + b) with
        | true => rfl
        | false => exact absurd (htest.mpr h) hclear

/-- The word loop finds no clear frame from `a` on, or it returns the first one. -/
theorem kernelWordLoop_cases : ∀ n index, index + n = bitmapSize →
    (kernelWordLoop (a * 4096) n index s = .ok 0 s ∧ s.NoneClear a (index * 32) 0x100000) ∨
    ∃ f s', kernelWordLoop (a * 4096) n index s = .ok (f * 4096) s' ∧
      f < 0x100000 ∧ s.FirstClear a (index * 32) f
  | 0, index, hn => by
      simp only [bitmapSize] at hn
      exact .inl ⟨rfl, fun g h1 h2 => by omega⟩
  | n + 1, index, hn => by
      have hnext := kernelWordLoop_cases n (index + 1) (by omega)
      simp only [bitmapSize] at hn
      have hskip : ∀ _ : s.NoneClear a (index * 32) ((index + 1) * 32),
          (kernelWordLoop (a * 4096) n (index + 1) s = .ok 0 s ∧
            s.NoneClear a (index * 32) 0x100000) ∨
          ∃ f s', kernelWordLoop (a * 4096) n (index + 1) s = .ok (f * 4096) s' ∧
            f < 0x100000 ∧ s.FirstClear a (index * 32) f := by
        intro hword
        refine hnext.imp (fun h => ⟨h.1, hword.append h.2⟩) ?_
        rintro ⟨f, s', hrun, hlt, hf⟩
        exact ⟨f, s', hrun, hlt, hf.prepend hword⟩
      rw [kernelWordLoop, run_bind_ok (run_get s)]
      split_ifs with hfull
      · apply hskip
        intro g h1 h2 _
        have := word_full.mp hfull (g - index * 32) (by omega)
        rwa [show index * 32 + (g - index * 32) = g by omega] at this
      · have hbit := @kernelBitLoop_cases a index s (by omega) 32 0 (by norm_num)
        rw [show (1#32 <<< 0 : Word) = 1 by decide, Nat.add_zero] at hbit
        obtain ⟨hrun, hnone⟩ | ⟨f, s', hrun, hlt, hf⟩ := hbit
        · rw [run_bind_ok hrun]
          exact hskip hnone
        · rw [run_bind_ok hrun]
          exact .inr ⟨f, s', rfl, by omega, hf⟩

end Search

/-- `get_next_free_kernel_frame` returns 0 when every frame behind the image is marked, and
else the first one that is not. -/
theorem Layout.kernelFrame_cases (L : Layout) (s : State) :
    (L.getNextFreeKernelFrame s = .ok 0 s ∧
      s.NoneClear L.kernelFrames L.kernelFrames 0x100000) ∨
    ∃ f s', L.getNextFreeKernelFrame s = .ok (f * 4096) s' ∧
      f < 0x100000 ∧ s.FirstClear L.kernelFrames L.kernelFrames f := by
  have hK : L.kernelFrames ≤ 1024 := L.high
  have hbefore : s.NoneClear L.kernelFrames L.kernelFrames
      (L.kernelFrames * 4096 / 4096 / 32 * 32) := fun g h1 h2 => by omega
  have hstart : ∀ hi, s.NoneClear L.kernelFrames (L.kernelFrames * 4096 / 4096 / 32 * 32) hi →
      s.NoneClear L.kernelFrames L.kernelFrames hi := fun hi h => hbefore.append h
  have hloop := @kernelWordLoop_cases L.kernelFrames s
    (bitmapSize - L.kernelFrames * 4096 / 4096 / 32) (L.kernelFrames * 4096 / 4096 / 32)
    (by simp only [bitmapSize]; omega)
  unfold Layout.getNextFreeKernelFrame
  simp only [L.safeStart_eq]
  refine hloop.imp (fun h => ⟨h.1, hstart _ h.2⟩) ?_
  rintro ⟨f, s', hrun, hlt, hf⟩
  exact ⟨f, s', hrun, hlt, hf.ge, hf.clear, hstart _ hf.none⟩

/-- No frame, or one at whose address plus `KERNEL_BASE` the direct map shows that frame. -/
def DirectlyMapped (L : Layout) (s : State) (phys : ℕ) : Prop :=
  phys = 0 ∨ phys < 0x40000000 ∧ u32 (phys + 0xC0000000) = KERNEL_BASE + phys / 4096 * 4096 ∧
    (L.DirectMap s → ∀ i < 1024, s.peek L.dirFrame (u32 (phys + 0xC0000000) + 4 * i) =
      some (s.mem (phys / 4096) i).toNat)

/-- A frame below 1 GB is clear, or no frame at all. -/
def LowFrameLeft (L : Layout) (s : State) : Prop :=
  (∃ f, L.kernelFrames ≤ f ∧ f < 0x40000 ∧ s.allocated f = false) ∨
    ∀ f, L.kernelFrames ≤ f → f < 0x100000 → s.allocated f = true

/-- In every state, whatever happened before: the frame handed out for a directory or a table
is one that the direct map shows exactly when a frame below 1 GB is left or none at all. -/
theorem kernel_frame_mapped_iff (L : Layout) (s : State) :
    ∃ phys s', L.getNextFreeKernelFrame s = .ok phys s' ∧
      (DirectlyMapped L s phys ↔ LowFrameLeft L s) := by
  obtain ⟨hrun, hall⟩ | ⟨f, s', hrun, hlt, hf⟩ := L.kernelFrame_cases s
  · exact ⟨0, s, hrun, iff_of_true (.inl rfl) (.inr fun g hg hlt => hall g hg hlt hg)⟩
  · refine ⟨f * 4096, s', hrun, ?_⟩
    have hpos : 258 ≤ L.kernelFrames := Nat.le_add_left _ _
    have hge := hf.ge
    constructor
    · rintro (h0 | ⟨hlow, -⟩)
      · omega
      · exact .inl ⟨f, hge, by omega, hf.clear⟩
    · rintro (⟨g, hg, hlow, hfree⟩ | hnone)
      · have hfg : f ≤ g := by
          by_contra h
          rw [hf.none g hg (by omega) hg] at hfree
          cases hfree
        have hlow' : f < 0x40000 := by omega
        have hdiv : f * 4096 / 4096 = f := by omega
        refine .inr ⟨by omega, ?_, fun hdirect i hi => ?_⟩
        · rw [direct_address hlow', hdiv]
        · rw [direct_address hlow', hdiv]
          exact (L.load_ok (hdirect.load_direct hlow' hi)).2
      · have hset := hnone f hge hlt
        rw [hf.clear] at hset
        cases hset

/-! ### Using the frames below 1 GB up -/

/-- After a run in which only the size classes were asked for blocks, and not the one of the
process blocks: `S` holds the blocks, the frames below `m` are in use. -/
structure Crowding (L : Layout) (live : ℕ → Option ℕ) (S : Finset ℕ) (m : ℕ) (s : State) :
    Prop where
  run : KernelRun L (fun _ => True) (fun _ => True) live [] s
  heap : ∃ use, HeapInv L use live noLive s
  used : s.UsedBelow m
  cursor : s.large.nextVirtAddr = LARGE_VIRT_BASE
  head : s.large.nextFreeVirt = 0
  spare : (s.domains .heap128).nextFreeBlock ≠ 0
  noList : s.currentIndex = 0 ∧ s.processLists = 0
  mem : ∀ p, p ∈ S ↔ live p ≠ none

theorem HeapInv.block_of_live {L : Layout} {use : ℕ → Use} {live : ℕ → Option ℕ} {s : State}
    (h : HeapInv L use live noLive s) {p n : ℕ} (hp : live p = some n) :
    ∃ d : SizeClass, d.IsBlock (s.domains d).nextVirtAddr p := by
  rcases window_cases (h.heap p n hp) with hge | ⟨d, h1, h2⟩
  · obtain ⟨-, N, hN, -⟩ := h.large.header p n hp hge
    cases hN
  · exact ⟨d, ((h.dom d).live p n hp h1 h2).1⟩

/-- The pages of all regions but that of the process blocks. -/
def otherPage (p : ℕ) : ℕ := if p < 0x10000 then 0x10000 + p else 0x20000 + p

/-- With all other regions full there is a frame for each of their pages. -/
theorem HeapInv.frames_of_full {L : Layout} {use : ℕ → Use} {live ranges : ℕ → Option ℕ}
    {s : State} {m : ℕ} (h : HeapInv L use live ranges s) (hu : s.UsedBelow m)
    (hfull : ∀ d : SizeClass, d ≠ .heap128 →
      d.virtBase + 0x10000000 ≤ (s.domains d).nextVirtAddr) : 0x60000 ≤ m := by
  have hframe : ∀ p, ∃ f, p < 0x60000 → use f = .page (otherPage p) := by
    intro p
    by_cases hp : p < 0x60000
    · have hpage : 0x10000 ≤ otherPage p ∧ otherPage p < 0x80000 ∧
          ¬ (0x20000 ≤ otherPage p ∧ otherPage p < 0x30000) := by
        unfold otherPage
        split_ifs <;> omega
      rcases window_cases (p := otherPage p * 4096) (by omega) with hge | ⟨d, h1, h2⟩
      · omega
      · have hd : d ≠ .heap128 := by
          rintro rfl
          simp only [SizeClass.virtBase] at h1 h2
          omega
        have hcursor := hfull d hd
        obtain ⟨f, hf⟩ := ((h.dom d).backed _ h1 h2).mpr (by omega)
        exact ⟨f, fun _ => hf⟩
    · exact ⟨0, fun h => absurd h hp⟩
  choose frame hframe using hframe
  have hlow : ∀ p ∈ Finset.range 0x60000, frame p ∈ Finset.range m := by
    intro p hp
    have hf := hframe p (Finset.mem_range.mp hp)
    have hlt := h.pages.inv.range (frame p) (by rw [hf]; simp)
    have hset := (h.pages.inv.alloc (frame p) (by omega)).mpr (by rw [hf]; simp)
    rw [hu (frame p) (by omega)] at hset
    exact Finset.mem_range.mpr (by simpa using hset)
  have hinj : Set.InjOn frame (Finset.range 0x60000 : Finset ℕ) := by
    intro p hp q hq hpq
    have h1 := hframe p (Finset.mem_range.mp (Finset.mem_coe.mp hp))
    rw [hpq, hframe q (Finset.mem_range.mp (Finset.mem_coe.mp hq))] at h1
    injection h1 with heq
    unfold otherPage at heq
    split_ifs at heq <;> omega
  have hcard := Finset.card_le_card_of_injOn frame hlow hinj
  rwa [Finset.card_range, Finset.card_range] at hcard

theorem DomainInv.head_ne {L : Layout} {use : ℕ → Use} {live : ℕ → Option ℕ} {d : SizeClass}
    {s : State} (h : DomainInv L use live d s) {b : ℕ}
    (hb : d.IsBlock (s.domains d).nextVirtAddr b) (hfree : live b = none) :
    (s.domains d).nextFreeBlock ≠ 0 := by
  intro hnil
  obtain ⟨l, hl, hmem⟩ := h.chain
  rw [hnil] at hl
  have hin := (hmem b).mpr ⟨hb, hfree⟩
  rw [hl.eq_nil] at hin
  cases hin

theorem classOf_blockSize (d : SizeClass) : classOf d.blockSize = some d := by
  cases d <;> decide

namespace Crowding

variable {L : Layout} {live : ℕ → Option ℕ} {S : Finset ℕ} {m : ℕ} {s : State}

theorem card_le (h : Crowding L live S m s) : S.card ≤ 0x1C00000 := by
  obtain ⟨use, hheap⟩ := h.heap
  have hsub : S ⊆ (Finset.range 0x1C00000).image fun j => 0x10000000 + j * 64 := by
    intro p hp
    obtain ⟨n, hn⟩ := Option.ne_none_iff_exists'.mp ((h.mem p).mp hp)
    obtain ⟨d, h1, h2, h3⟩ := hheap.block_of_live hn
    have hle := (hheap.dom d).cursor_le
    refine Finset.mem_image.mpr ⟨(p - 0x10000000) / 64, ?_⟩
    rw [Finset.mem_range]
    cases d <;> simp only [SizeClass.virtBase, SizeClass.blockSize] at h1 h2 h3 hle <;> omega
  have hcard := (Finset.card_le_card hsub).trans Finset.card_image_le
  rwa [Finset.card_range] at hcard

/-- While three frames are left some class has a block to give. -/
theorem next (h : Crowding L live S m s) (hm : m + 3 ≤ 0x40000) :
    ∃ live' S' m' s', Crowding L live' S' m' s' ∧ S'.card = S.card + 1 ∧ m' ≤ m + 3 := by
  obtain ⟨use, hheap⟩ := h.heap
  obtain ⟨d, hne, hd⟩ : ∃ d : SizeClass, d ≠ .heap128 ∧ ((s.domains d).nextFreeBlock = 0 →
      (s.domains d).nextVirtAddr < d.virtBase + 0x10000000) := by
    by_contra hno
    push Not at hno
    have hfull := hheap.frames_of_full h.used fun d hd => (hno d hd).2
    omega
  have hroom : Room s.allocated 3 0x40000 := h.used.room (by norm_num) hm
  obtain ⟨a, s', hr, use', h', hpop⟩ := ((hheap.domainAlloc d le_rfl (by norm_num)
    fun hnil => ⟨hd hnil, hroom⟩).mono (fun _ _ hq => hq)
    (fun _ hE => absurd hE.1 (lt_irrefl _))).exists_ok
  have hbase := d.virtBase_bounds
  have ha : a ≠ 0 := by
    have := hpop.block.1
    omega
  have hop : (HeapOp.kmalloc d.blockSize).small = some (d, d.blockSize) := by
    simp [HeapOp.small, classOf_blockSize]
  have hlive : liveAfter live (.kmalloc d.blockSize) a =
      Function.update live a (some d.blockSize) := liveAfter_small hop ha
  have hr' : L.heapCall (.kmalloc d.blockSize) s = .ok a s' := by
    rw [Layout.heapCall, L.kmalloc_small (classOf_blockSize d)]
    exact hr
  have hlegal : Legal live (.kmalloc d.blockSize) := trivial
  have hrun := h.run.heap hlegal (fun p hp => by cases hp) hr' trivial
  rw [hlive] at hrun
  obtain ⟨m', hm', hused⟩ : ∃ m' ≤ m + 3, s'.UsedBelow m' := by
    cases hpop.growth with
    | inl hfast => exact ⟨m, by omega, h.used.congr hfast.2.2.1⟩
    | inr hslow =>
        obtain ⟨_, s₁, hx, halloc, _⟩ := hslow
        obtain ⟨m', hm', _, hu⟩ := h.used.expanded (by omega) hx
        exact ⟨m', hm', hu.congr halloc⟩
  have hnotin : a ∉ S := by
    rw [h.mem, hpop.fresh]
    simp
  refine ⟨_, insert a S, m', s', ⟨hrun, ⟨use', h'⟩, hused, ?_, ?_, ?_, ?_, fun p => ?_⟩,
    Finset.card_insert_of_notMem hnotin, hm'⟩
  · rw [hpop.others.large, h.cursor]
  · rw [hpop.others.large, h.head]
  · rw [hpop.others.domains _ hne.symm]
    exact h.spare
  · rw [hpop.others.currentIndex, hpop.others.processLists]
    exact h.noList
  · rw [Finset.mem_insert, h.mem]
    by_cases hpa : p = a
    · rw [hpa, Function.update_self]
      simp
    · rw [Function.update_of_ne hpa]
      simp [hpa]

/-- Such a run goes on until only a few frames below 1 GB are left. -/
theorem exists_run (L : Layout) : ∃ live S m s, Crowding L live S m s ∧
    0x3FFF0 ≤ m ∧ m < 0x3FFF3 := by
  have hmany : ∀ k, ∃ live S m s, Crowding L live S m s ∧ m < 0x3FFF3 ∧
      (S.card = k ∨ 0x3FFF0 ≤ m) := by
    intro k
    induction k with
    | zero =>
        obtain ⟨use, m, s, hboot, hb⟩ := L.boot_spec fun _ _ => 0
        have hfew := hb.few
        have hspare : (s.domains .heap128).nextFreeBlock ≠ 0 := by
          refine (hb.heap.dom _).head_ne (b := SizeClass.heap128.virtBase) ⟨le_rfl, ?_, ?_⟩ rfl
          · rw [hb.cursor]
            omega
          · rw [Nat.sub_self, Nat.zero_mod]
        exact ⟨noLive, ∅, m, s, ⟨.boot hboot, ⟨use, hb.heap⟩, hb.used, hb.largeCursor, hb.largeHead,
          hspare, hb.noList, fun p => by simp [noLive]⟩, by omega, .inl rfl⟩
    | succ k ih =>
        obtain ⟨live, S, m, s, h, hlt, hk⟩ := ih
        by_cases hge : 0x3FFF0 ≤ m
        · exact ⟨live, S, m, s, h, hlt, .inr hge⟩
        · obtain ⟨live', S', m', s', h', hcard, hm'⟩ := h.next (by omega)
          refine ⟨live', S', m', s', h', by omega, .inl ?_⟩
          rw [hcard, hk.resolve_right hge]
  obtain ⟨live, S, m, s, h, hlt, hk⟩ := hmany 0x1C00001
  refine ⟨live, S, m, s, h, hk.resolve_left fun hcard => ?_, hlt⟩
  have := h.card_le
  omega

end Crowding

/-! ### The last frames below 1 GB -/

/-- The mapping loop for a range at the start of the window of the large domain, `i` pages
in. -/
structure Carving (L : Layout) (D i m : ℕ) (use : ℕ → Use) (s : State) : Prop where
  pages : HeapPages L use s
  dir : use D = .dir .large
  used : s.UsedBelow m
  mapped : ∀ p, 0x80000 ≤ p → (Backed use p ↔ p < 0x80000 + i)

namespace Carving

variable {L : Layout} {D i m : ℕ} {use : ℕ → Use} {s : State}

theorem pos (h : Carving L D i m use s) : 0 < m := by
  have hset := h.pages.inv.image 0 (by simp only [Layout.kernelFrames]; omega)
  rw [h.used 0 (by norm_num)] at hset
  simpa using hset

/-- The tables of the first page serve the next 1023. -/
theorem largeMapPage_ok (h : Carving L D i m use s) (h0 : 0 < i) (hi : i < 1024)
    (hm : m < 0x80000) : ∃ s', L.largeMapPage (0x80000 * 4096) i s = .ok true s' := by
  have hinv := h.pages.inv
  obtain ⟨f, hf⟩ := (h.mapped 0x80000 le_rfl).mpr (by omega)
  obtain ⟨-, -, u, hu, -⟩ := hinv.pte _ _ _ (h.pages.kernelMap f _ hf)
  obtain ⟨D', hD', hmap⟩ := h.pages.homeMap f _ hf
  rw [homeOf_large le_rfl] at hD'
  obtain rfl := h.pages.dir_unique hD' h.dir (by simp)
  obtain ⟨-, -, t, ht, -⟩ := hinv.pte _ _ _ hmap
  have hindex : (0x80000 + i) / 1024 = 0x80000 / 1024 := by omega
  have hframe : getNextFreeProcessFrame s = .ok (m * 4096) (s.take m) := by
    rw [L.processFrame_eq hinv.image (h.used.first (by omega)) (by omega), takeFrame_low hm]
  have hne : m * 4096 ≠ 0 := by
    have := h.pos
    omega
  have hva : u32 (0x80000 * 4096 + u32 (i * 4096)) = (0x80000 + i) * 4096 := by
    rw [u32_of_lt (n := i * 4096) (by omega), u32_of_lt (by omega), Nat.add_mul]
  have hdir : s.large.pageDirectory = KERNEL_BASE + D' * 4096 := h.pages.dirs .large D' hD' (by simp)
  -- first the directory of the domain, then the kernel directory
  have hpde : (s.take m).pde D' ((0x80000 + i) / 1024) = some t := by
    rw [hindex]
    exact (hinv.pde D' _ (Or.inr ⟨_, hD'⟩) (by norm_num) t).mpr ht
  have hdirect : L.DirectMap (s.take m) := hinv.direct.congr (fun _ _ => rfl) (fun _ _ => rfl)
  have hflags : PAGE_KERNEL < 4096 := by norm_num [PAGE_KERNEL]
  have hrun := hdirect.mapPage_present (hinv.dirLow D' _ hD') (by omega) (f := m) (by omega)
    hflags hpde (hinv.tableLow t _ _ ht)
  set s₁ := ((s.take m).write t ((0x80000 + i) % 1024) (m * 4096 + PAGE_KERNEL)).install
    (KERNEL_BASE + D' * 4096) ((0x80000 + i) * 4096) (m * 4096 + PAGE_KERNEL) with hs₁
  have hother : ∀ g, g ≠ t → s₁.mem g = s.mem g := fun g hg => State.mem_write_ne_frame _ _ _ hg
  have htK : L.dirFrame ≠ t := by
    intro he
    rw [← he, hinv.use_dirFrame] at ht
    cases ht
  have hdirect₁ : L.DirectMap s₁ := hinv.direct_of_mem (fun _ _ => by rw [hother _ htK])
    (fun g hg _ => hother g (by rintro rfl; rw [hg] at ht; cases ht))
  have hpde₁ : s₁.pde L.dirFrame ((0x80000 + i) / 1024) = some u := by
    have hsame : s₁.pde L.dirFrame ((0x80000 + i) / 1024) =
        s.pde L.dirFrame ((0x80000 + i) / 1024) := State.pde_congr (by rw [hother _ htK])
    rw [hsame, hindex]
    exact (hinv.pde L.dirFrame _ (Or.inl rfl) (by norm_num) u).mpr hu
  have hrun₁ := hdirect₁.mapPage_present (hinv.dir_low (Or.inl rfl)) (by omega) (f := m)
    (by omega) hflags hpde₁ (hinv.tableLow u _ _ hu)
  unfold Layout.largeMapPage
  rw [run_bind_ok hframe, if_neg hne, run_bind_ok (run_get _)]
  simp only [hva]
  rw [show (s.take m).large.pageDirectory = KERNEL_BASE + D' * 4096 from hdir, run_bind_ok hrun,
    Layout.kernelPageDir_eq, run_bind_ok hrun₁]
  exact ⟨_, rfl⟩

/-- One turn; only the first one takes frames for tables. -/
theorem next (h : Carving L D i m use s) (hi : i < 1024) (hm : m + 3 ≤ 0x50000)
    (hfirst : i = 0 → m + 3 ≤ 0x40000) :
    ∃ use' m' s', L.largeMapPage (0x80000 * 4096) i s = .ok true s' ∧
      Carving L D (i + 1) m' use' s' ∧ m < m' ∧ m' ≤ m + 3 := by
  have hnew : ¬ Backed use (0x80000 + i) := by
    rw [h.mapped _ (by omega)]
    exact lt_irrefl _
  obtain ⟨b, s', hr, rfl, f, use', hfree, hf, ha⟩ : ∃ b s',
      L.largeMapPage (0x80000 * 4096) i s = .ok b s' ∧ b = true ∧
      ∃ f use', s.FirstFree f ∧ use f = .free ∧ Added L D (0x80000 + i) f use s use' s' := by
    by_cases h0 : i = 0
    · have hends := L.largeMapPage_ends h.pages (i := i) h.dir (by omega) (by omega) hnew
        (h.used.room (by norm_num) (hfirst h0)) (by norm_num)
      exact (hends.mono (fun _ _ hq => hq) (fun _ hE => absurd hE.1 (lt_irrefl _))).exists_ok
    · have hends := L.largeMapPage_ends h.pages (i := i) h.dir (by omega) (by omega) hnew
        (h.used.room (by norm_num) hm) le_rfl
      obtain ⟨s', hr⟩ := h.largeMapPage_ok (by omega) hi (by omega)
      exact ⟨true, s', hr, hends.ok hr⟩
  obtain ⟨m', hm', hlt, hused⟩ := h.used.added (by omega) hfree ha
  refine ⟨use', m', s', hr, ⟨ha.pages, ?_, hused, fun p hp => ?_⟩, hlt, hm'⟩
  · rw [HeapPages.kept_of_grown hf ha.grown D (by rw [h.dir]; simp), h.dir]
  · rw [ha.backed, h.mapped p hp]
    omega

end Carving

/-- The frames below 1 GB are used up, while process blocks are left. -/
structure LowFull (L : Layout) (live : ℕ → Option ℕ) (m : ℕ) (s : State) : Prop where
  heap : ∃ use ranges, HeapInv L use live ranges s
  used : s.UsedBelow m
  ge : 0x40000 ≤ m
  lt : m < 0x4FFF0
  spare : (s.domains .heap128).nextFreeBlock ≠ 0
  noList : s.currentIndex = 0 ∧ s.processLists = 0

/-- Twenty pages of the large domain take the last frames below 1 GB. -/
theorem Crowding.last {L : Layout} {live : ℕ → Option ℕ} {S : Finset ℕ} {m : ℕ} {s : State}
    (h : Crowding L live S m s) (h1 : 0x3FFF0 ≤ m) (h2 : m < 0x3FFF3) :
    ∃ m' a s', L.kmalloc 81916 s = .ok a s' ∧
      LowFull L (liveAfter live (.kmalloc 81916) a) m' s' := by
  obtain ⟨use, hheap⟩ := h.heap
  obtain ⟨D, hD⟩ := hheap.large.home
  set s₁ := s.setLarge fun r => { r with nextVirtAddr := u32 (r.nextVirtAddr + u32 (20 * 4096)) }
    with hs₁
  have htake : L.largeTakeSlot 20 s = .ok (0x80000 * 4096) s₁ := by
    unfold Layout.largeTakeSlot takeCursor
    rw [run_bind_ok (run_get _), if_neg (not_not.mpr h.head), run_bind_ok (run_get _),
      run_bind_ok (modifyLarge_run _ _), h.cursor]
    rfl
  have hstart : Carving L D 0 m use s₁ :=
    { pages := hheap.pages.setLarge rfl
      dir := hD
      used := h.used.congr (State.allocated_congr fun _ _ => rfl)
      mapped := fun p hp => by
        rw [hheap.large.backed p hp]
        constructor
        · rintro ⟨q, N, hq, -⟩
          cases hq
        · intro hlt
          omega }
  obtain ⟨b, t, hloop, rfl, use', m', hcarve, hm1, hm2⟩ := iterate_rule
    (fun i mapped => if mapped then L.largeMapPage (0x80000 * 4096) i else pure false)
    (fun i b t => b = true ∧ ∃ use' m', Carving L D i m' use' t ∧ m + i ≤ m' ∧ m' ≤ m + 3 * i)
    (n := 20) (a := true) (s := s₁) ⟨rfl, use, m, hstart, le_rfl, le_rfl⟩
    (fun i b t hi ⟨hb, u, n, hn, hn1, hn2⟩ => by
      obtain ⟨u', n', t', hr, hn', h3, h4⟩ := hn.next (by omega) (by omega) (by omega)
      rw [hb, if_pos rfl]
      exact ⟨true, t', hr, rfl, u', n', hn', by omega, by omega⟩)
  obtain ⟨s', hstore, -, hst⟩ := hcarve.pages.store (a := 0x80000 * 4096) (v := 20)
    ((hcarve.mapped _ (by omega)).mpr (by omega)) (by norm_num)
  have hpages : largePages 81916 = 20 := by decide
  have hrun : L.kmallocLarge 81916 s = .ok (u32 (0x80000 * 4096 + 4)) s' := by
    unfold Layout.kmallocLarge
    rw [if_neg (by norm_num), hpages, run_bind_ok htake, run_bind_ok hloop, if_pos rfl,
      run_bind_ok hstore]
    rfl
  have hused : s'.UsedBelow m' := hcarve.used.congr hst.alloc
  -- the call keeps the invariant of the heap, since frames below 1.25 GB are left
  have hends := hheap.largeAlloc (n := 81916) (m := 0x50000) le_rfl (by norm_num)
    (by rw [hpages]; norm_num) (fun _ => by rw [hpages, h.cursor]; decide)
    (fun t => Room t.allocated 3 0x50000) (fun t t' hsub hr => Room.of_less hr hsub)
    (fun _ _ _ _ hr => hr)
  obtain ⟨q, use₂, ha, hc, hheap'⟩ := hends.ok hrun (hused.room (by norm_num) (by omega))
  have hlarge : (HeapOp.kmalloc 81916).large = some 81916 := rfl
  have hlive := @liveAfter_large live _ _ (u32 (0x80000 * 4096 + 4)) hlarge (by decide)
  refine ⟨m', u32 (0x80000 * 4096 + 4), s', by rw [L.kmalloc_large (by decide), hrun], ?_⟩
  exact
    { heap := ⟨use₂, _, by rw [hlive]; exact hheap'⟩
      used := hused
      ge := by omega
      lt := by omega
      spare := by rw [hc.vars.domains]; exact h.spare
      noList := by rw [hc.vars.currentIndex, hc.vars.processLists]; exact h.noList }

/-- A run of `kmalloc` alone after which the next directory or table goes to a frame that the
direct map does not show. -/
theorem kernel_frame_beyond_map : ∃ live s phys s',
    KernelRun Layout.lowest (fun _ => True) (fun _ => True) live [] s ∧
    Layout.lowest.getNextFreeKernelFrame s = .ok phys s' ∧
    0x40000000 ≤ phys ∧ ¬ DirectlyMapped Layout.lowest s phys := by
  obtain ⟨live, S, m, s, h, h1, h2⟩ := Crowding.exists_run Layout.lowest
  obtain ⟨m', a, s', hr, hfull⟩ := h.last h1 h2
  obtain ⟨use, ranges, hheap⟩ := hfull.heap
  have hge := hfull.ge
  have hlt := hfull.lt
  have hlegal : Legal live (.kmalloc 81916) := trivial
  have hrun := h.run.heap hlegal (fun p hp => by cases hp) hr trivial
  have hframe : Layout.lowest.getNextFreeKernelFrame s' = .ok (m' * 4096) (s'.take m') := by
    rw [Layout.lowest.kernelFrame_eq hheap.pages.inv.image (hfull.used.first (by omega)) (by omega),
      takeFrame_low (by omega)]
  refine ⟨_, s', m' * 4096, s'.take m', hrun, hframe, by omega, ?_⟩
  rintro (h0 | ⟨hlow, -⟩) <;> omega

end RaxzusHeap
