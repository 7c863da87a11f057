import RaxzusHeap.LargeSpace
import RaxzusHeap.Coherence

/-! # Physical frames of the large domain

In a run of the large domain the frames that are marked in addition to those marked at its
start are the page tables it made, the frames of the pages of live allocations, and one frame
for the first page of each slot (`large_frames_accounted`).  A frame goes back to the bitmap
only when the last entry that `map_page` installed for it has been cleared.  What a table held
before it became one is an entry as well, and may show a clear frame (`stale_frame_clear`). -/

namespace RaxzusHeap

open Imperative FirstFit Linked

/-- Pages that keep a frame: all pages of a live allocation, the first page of a slot. -/
inductive HeldPage (L : Layout) (live : ℕ → Option ℕ) (slots : List ℕ) (s : State) : ℕ → Prop
  | live {a n N p} (h : live (a + 4) = some n) (hN : s.peek L.dirFrame a = some N)
      (h1 : a ≤ p * 4096) (h2 : p * 4096 < a + 4096 * N) : HeldPage L live slots s p
  | slot {p} (h : p * 4096 ∈ slots) : HeldPage L live slots s p

/-- Frame `f` serves as a page table. -/
def IsTableFrame (L : Layout) (s : State) (f : ℕ) : Prop :=
  ∃ D i, IsDirectory L s D ∧ i < 1024 ∧ s.pde D i = some f

/-- `n` frames, marked in `s`, are exactly those that `s'` no longer marks. -/
def FramesReleased (s s' : State) (n : ℕ) : Prop :=
  ∃ S : Finset ℕ, S.card = n ∧ ∀ f < 0x100000, (f ∈ S → s.allocated f = true) ∧
    (s'.allocated f = true ↔ s.allocated f = true ∧ f ∉ S)

section Runs

variable {L : Layout} {use use₀ : ℕ → Use} {live ranges : ℕ → Option ℕ} {s s₀ : State}
  {slots : List ℕ}

namespace LargeHeap

/-- The pages that keep a frame are those with one. -/
theorem heldPage_iff (h : LargeHeap L use live ranges s) (hl : IsLifo L s slots) (p : ℕ) :
    HeldPage L live slots s p ↔ 0x80000 ≤ p ∧ Backed use p := by
  constructor
  · intro hp
    cases hp with
    | @live a n N _ hlive hN h1 h2 =>
        obtain ⟨q, rfl, hq⟩ := (h.range_iff hl a N).mp (.live hlive hN)
        have hlo := (h.heap.large.within q N hq).1
        refine ⟨by omega, (h.heap.large.backed p (by omega)).mpr ⟨q, N, hq, by omega, ?_⟩⟩
        rw [held_live hlive]
        omega
    | slot hmem =>
        obtain ⟨_, ⟨N, hN⟩, _⟩ := (h.mem_slots hl _).mp hmem
        rw [Nat.mul_div_cancel p (by norm_num)] at hN
        exact ⟨(h.heap.large.within p N hN).1, h.heap.large.backed_first hN⟩
  · rintro ⟨hlo, hp⟩
    obtain ⟨q, N, hq, h1, h2⟩ := (h.heap.large.backed p hlo).mp hp
    cases hlive : live (q * 4096 + 4) with
    | some n =>
        rw [held_live hlive] at h2
        have hrange := (h.range_iff hl _ N).mpr ⟨q, rfl, hq⟩
        cases hrange with
        | live _ hN => exact .live hlive hN (by omega) (by omega)
        | slot hmem _ =>
            have hnone := ((h.mem_slots hl _).mp hmem).2.2
            rw [hlive] at hnone
            cases hnone
    | none =>
        rw [held_slot hlive] at h2
        have hpq : p = q := by omega
        subst hpq
        have hmod : p * 4096 % 4096 = 0 := Nat.mul_mod_left p 4096
        have hdiv : p * 4096 / 4096 = p := Nat.mul_div_cancel p (by norm_num)
        exact .slot ((h.mem_slots hl _).mpr ⟨hmod, by rw [hdiv]; exact ⟨N, hq⟩, hlive⟩)

end LargeHeap

theorem HeapInv.tableFrame (h : HeapInv L use live ranges s) {f : ℕ} (hf : IsTableFrame L s f) :
    (use f).Structural :=
  h.structural (Or.inr hf)

theorem HeapInv.isTableFrame (h : HeapInv L use live ranges s) {f d i : ℕ}
    (hproc : ∀ D, use D ≠ .dir .proc) (hf : use f = .table d i) : IsTableFrame L s f := by
  obtain ⟨hd, hi⟩ := h.pages.inv.tableDir f d i hf
  refine ⟨d, i, ?_, by omega, (h.pages.inv.pde d i hd hi f).mpr hf⟩
  cases hd with
  | inl hK => exact Or.inl hK
  | inr ho =>
      obtain ⟨o, ho⟩ := ho
      have hne : o ≠ .proc := by
        rintro rfl
        exact hproc d ho
      exact Or.inr ⟨o, hne, h.pages.dir_unique ho (h.home hne) hne⟩

/-- The frames marked since the start of the run that are no page tables are those of large
pages. -/
theorem LargeHeap.marked_iff (h : LargeHeap L use live ranges s)
    (h₀ : LargeHeap L use₀ noLive noLive s₀) (hlabels : LargeLabels use₀ use) {f : ℕ}
    (hf : f < 0x100000) :
    (s.allocated f = true ∧ s₀.allocated f = false ∧ ¬ IsTableFrame L s f) ↔
      ∃ p, 0x80000 ≤ p ∧ use f = .page p := by
  have halloc := h.heap.pages.inv.alloc f hf
  have halloc₀ := h₀.heap.pages.inv.alloc f hf
  constructor
  · rintro ⟨hs, hs₀, htab⟩
    have hne := halloc.mp hs
    have hfree : use₀ f = .free := h₀.heap.pages.inv.use_of_clear hf hs₀
    rcases hlabels.fresh f with h1 | h1 | ⟨d, i, h1⟩ | h1
    · rw [h1] at hne
      exact absurd hfree hne
    · exact absurd h1 hne
    · exact absurd (h.heap.isTableFrame h.noProc h1) htab
    · exact h1
  · rintro ⟨p, hp, hu⟩
    refine ⟨halloc.mpr (by rw [hu]; simp), ?_, ?_⟩
    · cases hs₀ : s₀.allocated f with
      | false => rfl
      | true =>
          have hkept := hlabels.kept f (halloc₀.mp hs₀) (fun q hq hq₀ => by
            obtain ⟨_, _, hnone, _⟩ := (h₀.heap.large.backed q hq).mp ⟨f, hq₀⟩
            cases hnone)
          rw [hu] at hkept
          obtain ⟨_, _, hnone, _⟩ := (h₀.heap.large.backed p hp).mp ⟨f, hkept.symm⟩
          cases hnone
    · intro htab
      have hstruct := h.heap.tableFrame htab
      rw [hu] at hstruct
      exact hstruct

theorem HeapTrace.largeLabels {calls : List HeapCall} (h₀ : LargeHeap L use₀ noLive noLive s₀)
    (trace : HeapTrace L (LargeOnly L) noLive s₀ calls live s) :
    ∃ use ranges, LargeHeap L use live ranges s ∧ LargeLabels use₀ use := by
  induction trace with
  | nil => exact ⟨use₀, noLive, h₀, fun _ _ _ => rfl, fun _ => Or.inl rfl, fun _ _ _ _ ht => ht⟩
  | @snoc calls lv t op a t' tr legal hr guard ih =>
      obtain ⟨use₁, ranges₁, h₁, hlabels⟩ := ih
      obtain ⟨use₂, ranges₂, h₂, he⟩ :=
        LargeHeap.call (c := ⟨lv, t, op, a, t'⟩) h₁ legal hr guard
      exact ⟨use₂, ranges₂, h₂, hlabels.trans (he.largeLabels guard.op)⟩

/-- `kfree_large` of `N` pages releases the frames of all but the first. -/
theorem LargeHeap.released (h : LargeHeap L use live ranges s) {p n N : ℕ} {s' : State}
    (hp : live p = some n) (hN : s.peek L.dirFrame (p - 4) = some N)
    (hr : L.kfreeLarge p s = .ok () s') : FramesReleased s s' (N - 1) := by
  have hheader := h.heap.large.header p n hp (h.large p n hp)
  obtain ⟨q, M, use', t, rfl, hrun, hret, h', _⟩ := h.kfreeLarge_ok hp
  rw [hrun] at hr
  cases hr
  obtain ⟨_, K, hK, _, hpeek⟩ := hheader
  have hdiv4 : (q * 4096 + 4) / 4096 = q := by omega
  rw [hdiv4] at hK hpeek
  rw [Nat.add_sub_cancel, hpeek] at hN
  cases hN
  have hM : M = N := Option.some.inj (hret.range.symm.trans hK)
  subst hM
  obtain ⟨hlo, hpos, _⟩ := h.heap.large.within q M hK
  -- the frames of the pages that are unmapped
  have hframe : ∀ i, i < M - 1 → ∃ f, use f = .page (q + 1 + i) := by
    intro i hi
    apply (h.heap.large.backed _ (by omega)).mpr
    exact ⟨q, M, hK, by omega, by rw [held_live hp]; omega⟩
  choose! frame hframe using hframe
  have hinj : Set.InjOn frame ↑(Finset.range (M - 1)) := by
    intro i hi j hj hij
    have hi' := hframe i (Finset.mem_range.mp hi)
    have hj' := hframe j (Finset.mem_range.mp hj)
    rw [hij, hj'] at hi'
    injection hi' with hpage
    omega
  refine ⟨(Finset.range (M - 1)).image frame, ?_, ?_⟩
  · rw [Finset.card_image_of_injOn hinj, Finset.card_range]
  · intro f hf
    have halloc := h.heap.pages.inv.alloc f hf
    have halloc' := h'.heap.pages.inv.alloc f hf
    by_cases hin : f ∈ (Finset.range (M - 1)).image frame
    · obtain ⟨i, hi, rfl⟩ := Finset.mem_image.mp hin
      have hu := hframe i (Finset.mem_range.mp hi)
      have hlt := Finset.mem_range.mp hi
      have hfree := hret.freed _ _ hu (by omega) (by omega)
      refine ⟨fun _ => halloc.mpr (by rw [hu]; simp), ?_⟩
      rw [halloc', hfree]
      simp [hin]
    · refine ⟨fun hmem => absurd hmem hin, ?_⟩
      have hkept : use' f = use f := by
        apply hret.kept
        intro x hx
        by_contra hout
        have hfx : use (frame (x - (q + 1))) = .page x := by
          have := hframe (x - (q + 1)) (by omega)
          rwa [show q + 1 + (x - (q + 1)) = x by omega] at this
        refine hin (Finset.mem_image.mpr ⟨x - (q + 1), Finset.mem_range.mpr (by omega), ?_⟩)
        exact h.heap.pages.frame_unique hfx hx
      rw [halloc', hkept, halloc]
      simp [hin]

theorem LargeHeap.reuse_released (h : LargeHeap L use live ranges s) {N a : ℕ} {s' : State}
    (hN : 1 ≤ N) (hreuse : L.Reuses s N) (hr : L.largeTakeSlot N s = .ok a s') :
    ∃ f, s.walk L.dirFrame s.large.nextFreeVirt = some (f * 4096 ||| PAGE_KERNEL) ∧
      s.allocated f = true ∧ ∀ g, s'.allocated g = (s.allocated g && !decide (g = f)) := by
  obtain ⟨q, use₁, ranges₁, s₁, hrun, htook⟩ := h.heap.large.takeSlot h.heap.pages hN
    (fun hnot => absurd hreuse hnot)
  rw [hrun] at hr
  cases hr
  cases htook.slot with
  | fresh _ _ _ hmoved =>
      have hsame := htook.reuse hreuse
      omega
  | @reused K f hq hK _ _ _ hf _ _ ha =>
      have hlt := h.heap.pages.inv.range f (by rw [hf]; simp)
      refine ⟨f, ?_, (h.heap.pages.inv.alloc f (by omega)).mpr (by rw [hf]; simp), ?_⟩
      · rw [hq, show f * 4096 ||| PAGE_KERNEL = f * 4096 + 3 from frame_or f (by decide)]
        exact h.heap.pages.inv.walk_page (h.heap.pages.kernelMap f q hf)
      · intro g
        rw [ha, State.allocated_unmark]

/-- A frame that an installed entry of a directory names is marked, and as long as no table
was drawn from a frame with stale entries, so is every frame that the MMU finds. -/
theorem HeapInv.mapped_marked (h : HeapInv L use live ranges s) {D : ℕ} (hD : IsDirectory L s D) :
    (∀ p e, s.maps D p = some e → s.walk D (p * 4096) = some e ∧
      s.allocated (e / 4096) = true) ∧
    (s.stale = false → ∀ va < 0xC0000000, ∀ e, s.walk D va = some e →
      s.allocated (e / 4096) = true) := by
  have hmarked : ∀ p e, s.maps D p = some e → s.allocated (e / 4096) = true := by
    intro p e hm
    have hdata := h.pages.inv.data_of_maps hm
    have hne : use (e / 4096) ≠ .free := by
      intro hfree
      rw [hfree] at hdata
      exact hdata
    have hlt := h.pages.inv.range _ hne
    exact (h.pages.inv.alloc _ (by omega)).mpr hne
  refine ⟨fun p e hm => ⟨h.pages.inv.walk_page hm, hmarked p e hm⟩, ?_⟩
  intro hst va hva e hw
  exact hmarked _ _ (h.pages.inv.maps_of_walk hst (h.isDir hD) hva hw)

/-- The frames marked since booting, page tables apart, are those of the pages of live
allocations and one for each slot, and no two of these pages share a frame; `kfree_large` of
`N` pages releases `N - 1` frames; reusing a slot releases the one it kept; and a frame that
is still mapped is marked. -/
theorem large_frames_accounted {mem : ℕ → ℕ → Word} {calls : List HeapCall}
    (hboot : L.boot (State.powerOn mem) = .ok () s₀)
    (trace : HeapTrace L (LargeOnly L) noLive s₀ calls live s) :
    ∃ slots, IsLifo L s slots ∧ slots.Nodup ∧
      (∀ f < 0x100000, (s.allocated f = true ∧ s₀.allocated f = false ∧ ¬ IsTableFrame L s f) ↔
        ∃ p, HeldPage L live slots s p ∧
          s.walk L.dirFrame (p * 4096) = some (f * 4096 ||| PAGE_KERNEL)) ∧
      (∀ p p' f, HeldPage L live slots s p → HeldPage L live slots s p' →
        s.walk L.dirFrame (p * 4096) = some (f * 4096 ||| PAGE_KERNEL) →
        s.walk L.dirFrame (p' * 4096) = some (f * 4096 ||| PAGE_KERNEL) → p = p') ∧
      (∀ p, HeldPage L live slots s p →
        ∃ f, s.walk L.dirFrame (p * 4096) = some (f * 4096 ||| PAGE_KERNEL)) ∧
      (∀ p n N s', live p = some n → s.peek L.dirFrame (p - 4) = some N →
        L.kfreeLarge p s = .ok () s' → FramesReleased s s' (N - 1)) ∧
      (∀ N a s', 1 ≤ N → L.Reuses s N → L.largeTakeSlot N s = .ok a s' →
        ∃ f, s.walk L.dirFrame s.large.nextFreeVirt = some (f * 4096 ||| PAGE_KERNEL) ∧
          s.allocated f = true ∧ ∀ g, s'.allocated g = (s.allocated g && !decide (g = f))) ∧
      ∀ D, D = L.dirFrame ∨ D = s.dirOf .large →
        (∀ p e, s.maps D p = some e → s.walk D (p * 4096) = some e ∧
          s.allocated (e / 4096) = true) ∧
        (s.stale = false → ∀ va < 0xC0000000, ∀ e, s.walk D va = some e →
          s.allocated (e / 4096) = true) := by
  obtain ⟨use₀, m, t, hrun, hb⟩ := L.boot_spec mem
  rw [hrun] at hboot
  cases hboot
  obtain ⟨use, ranges, h, hlabels⟩ := trace.largeLabels hb.largeHeap
  obtain ⟨slots, hl⟩ := h.exists_lifo
  have hentry : ∀ f, f * 4096 ||| PAGE_KERNEL = f * 4096 + 3 := fun f => frame_or f (by decide)
  have hwalk : ∀ p f, use f = .page p → s.walk L.dirFrame (p * 4096) = some (f * 4096 + 3) :=
    fun p f hf => h.heap.pages.inv.walk_page (h.heap.pages.kernelMap f p hf)
  -- a page that keeps a frame is seen there only
  have hframe : ∀ p f, Backed use p → s.walk L.dirFrame (p * 4096) = some (f * 4096 + 3) →
      use f = .page p := by
    rintro p f ⟨g, hg⟩ hw
    rw [hwalk p g hg] at hw
    have hgf : g = f := by
      have := Option.some.inj hw
      omega
    rw [← hgf]
    exact hg
  refine ⟨slots, hl, Chain.nodup hl, ?_, ?_, ?_, ?_, ?_, ?_⟩
  · intro f hf
    rw [h.marked_iff hb.largeHeap hlabels hf, hentry]
    constructor
    · rintro ⟨p, hp, hu⟩
      exact ⟨p, (h.heldPage_iff hl p).mpr ⟨hp, f, hu⟩, hwalk p f hu⟩
    · rintro ⟨p, hp, hw⟩
      obtain ⟨hlo, hback⟩ := (h.heldPage_iff hl p).mp hp
      exact ⟨p, hlo, hframe p f hback hw⟩
  · intro p p' f hp hp' hw hw'
    rw [hentry] at hw hw'
    have hu := hframe p f ((h.heldPage_iff hl p).mp hp).2 hw
    rw [hframe p' f ((h.heldPage_iff hl p').mp hp').2 hw'] at hu
    cases hu
    rfl
  · intro p hp
    obtain ⟨_, f, hf⟩ := (h.heldPage_iff hl p).mp hp
    exact ⟨f, by rw [hentry]; exact hwalk p f hf⟩
  · intro p n N s' hp hN hr
    exact h.released hp hN hr
  · intro N a s' hN hreuse hr
    exact h.reuse_released hN hreuse hr
  · intro D hD
    apply h.heap.mapped_marked
    cases hD with
    | inl hK => exact Or.inl hK
    | inr hlarge => exact Or.inr ⟨.large, by simp, hlarge⟩

end Runs

theorem Booted.first_trace {L : Layout} {use : ℕ → Use} {m : ℕ} {s s₁ : State}
    (hb : Booted L use m s) (hr : L.kmallocLarge 8188 s = .ok (0x80000 * 4096 + 4) s₁) :
    HeapTrace L (LargeOnly L) noLive s [⟨noLive, s, .kmallocLarge 8188, 0x80000004, s₁⟩]
      (Function.update noLive (0x80000 * 4096 + 4) (some 8188)) s₁ := by
  have hlive : liveAfter noLive (.kmallocLarge 8188) (0x80000 * 4096 + 4) =
      Function.update noLive (0x80000 * 4096 + 4) (some 8188) := liveAfter_large rfl (by norm_num)
  rw [← hlive]
  apply HeapTrace.nil.snoc (show Legal noLive (.kmallocLarge 8188) from trivial) hr
  apply LargeOnly.of_fits (by norm_num)
  rw [largePages_8188]
  exact hb.fits (by norm_num)

/-- With zero memory the first page of the first allocation has a frame that was clear before, and
whatever the kernel and the large domain reach below the kernel is marked. -/
theorem large_frames_accounted_first :
    ∃ s s₁ f, Layout.highest.boot (State.powerOn fun _ _ => 0) = .ok () s ∧
      Layout.highest.kmallocLarge 8188 s = .ok 0x80000004 s₁ ∧
      s₁.walk Layout.highest.dirFrame (0x80000 * 4096) = some (f * 4096 ||| PAGE_KERNEL) ∧
      (f < 0x100000 → s₁.allocated f = true ∧ s.allocated f = false) ∧
      ∀ D, D = Layout.highest.dirFrame ∨ D = s₁.dirOf .large → ∀ va < 0xC0000000, ∀ e,
        s₁.walk D va = some e → s₁.allocated (e / 4096) = true := by
  obtain ⟨use, m, s, hboot, hb, hmem, hstale⟩ := Layout.boot_clean
  obtain ⟨use₁, s₁, hr, h₁, -, -, hc⟩ := hb.first_large
  obtain ⟨slots, hl, -, hframes, -, hwalk, -, -, hdirs⟩ :=
    large_frames_accounted hboot (hb.first_trace hr)
  have hclean : s₁.stale = false :=
    ((hc.spares fun hre => hre.1 hb.largeHead).clean hmem).trans hstale
  have hpage : HeldPage Layout.highest (Function.update noLive (0x80000 * 4096 + 4) (some 8188))
      slots s₁ 0x80000 :=
    (h₁.heldPage_iff hl _).mpr ⟨le_rfl, h₁.heap.large.backed_first (N := 2) (Function.update_self ..)⟩
  obtain ⟨f, hw⟩ := hwalk _ hpage
  refine ⟨s, s₁, f, hboot, hr, hw, ?_, fun D hD => (hdirs D hD).2 hclean⟩
  intro hf
  obtain ⟨h1, h2, _⟩ := (hframes f hf).mpr ⟨_, hpage, hw⟩
  exact ⟨h1, h2⟩

/-! ### Memory at power-on -/

/-- The words of a table that a call has drawn after booting are those of power-on, where no
entry is installed. -/
theorem Carved.word_of_boot {L : Layout} {use use₁ : ℕ → Use} {live ranges : ℕ → Option ℕ}
    {mem : ℕ → ℕ → Word} {n q D t p : ℕ} {s s₁ : State} (hfill : L.kernelFrames = 1024)
    (hc : Carved L use live ranges n q s use₁ s₁) (hfresh : ¬ L.Reuses s (largePages n))
    (hwords : ∀ g j, 1024 ≤ g → j < 1024 → Unwritten use s g j → s.mem g j = mem g j)
    (ht : use₁ t = .table D (p / 1024)) (hnone : s₁.maps D p = none) :
    s₁.mem t (p % 1024) = mem t (p % 1024) := by
  have hlt : p % 1024 < 1024 := Nat.mod_lt p (by norm_num)
  have hge : 1024 ≤ t := by
    by_contra hlow
    rw [hc.pages.inv.kernel_of_lt (by omega)] at ht
    cases ht
  have hu : Unwritten use₁ s₁ t (p % 1024) := by
    refine .inr ⟨D, p / 1024, ht, ?_⟩
    rwa [show p / 1024 * 1024 + p % 1024 = p by omega]
  have hspares := hc.spares hfresh
  rw [hspares.words t _ hlt hu, hwords t _ hge hlt (hspares.back t _ hu)]

/-- With 0x05000001 in every word at power-on, the directory of the large domain shows the
page 0x80005, which nobody installed, in frame 0x5000 after the first allocation of two pages;
this frame is clear. -/
theorem stale_frame_clear : ∃ s s₁ D,
    Layout.highest.boot (State.powerOn fun _ _ => 0x05000001) = .ok () s ∧
    HeapTrace Layout.highest (LargeOnly Layout.highest) noLive s
      [⟨noLive, s, .kmallocLarge 8188, 0x80000004, s₁⟩]
      (Function.update noLive 0x80000004 (some 8188)) s₁ ∧
    s₁.FramesLow ∧ D = s₁.dirOf .large ∧ s₁.walk D 0x80005000 = some 0x05000001 ∧
    s₁.maps D 0x80005 = none ∧ s₁.allocated (0x05000001 / 4096) = false := by
  obtain ⟨use, m, s, hboot, hb, hwords, -⟩ := Layout.highest.boot_words fun _ _ => 0x05000001
  obtain ⟨use₁, s₁, hr, h₁, -, -, hc⟩ := hb.first_large
  obtain ⟨D, hD⟩ := h₁.heap.large.home
  have hfresh : ¬ Layout.highest.Reuses s (largePages 8188) := fun hre => hre.1 hb.largeHead
  have hdirOf : s₁.dirOf .large = D := by
    unfold State.dirOf
    rw [h₁.heap.pages.dirs .large D hD (by simp)]
    omega
  have hnone : s₁.maps D 0x80005 = none := by
    by_contra hne
    obtain ⟨e, he⟩ := Option.ne_none_iff_exists'.mp hne
    rcases h₁.heap.pages.inv.backed _ _ _ he with hu | hu
    · obtain ⟨q, N, hq, h1, h2⟩ := (h₁.heap.large.backed _ (by norm_num)).mp ⟨_, hu⟩
      have hle := @held_le (Function.update noLive (0x80000 * 4096 + 4) (some 8188)) q N
        (h₁.heap.large.within q N hq).2.1
      obtain ⟨rfl, rfl⟩ | ⟨-, hnone⟩ := Extents.update_some hq
      · omega
      · cases hnone
    · have hpriv := h₁.heap.pages.priv _ _ _ hu
      rw [hD] at hpriv
      cases hpriv
  -- the table that the first page of the range has drawn
  obtain ⟨f, hf⟩ := h₁.heap.large.backed_first (Function.update_self ..)
  obtain ⟨D', hD', hmap⟩ := h₁.heap.pages.homeMap f _ hf
  obtain rfl := h₁.heap.pages.dir_unique hD' hD (homeOf_ne_proc _)
  obtain ⟨-, -, t, ht, -⟩ := h₁.heap.pages.inv.pte _ _ _ hmap
  have hword : s₁.mem t 5 = 0x05000001 := hc.word_of_boot (p := 0x80005) rfl hfresh hwords ht hnone
  have hpde : s₁.pde D' (0x80005000 / 2 ^ 22) = some t :=
    (h₁.heap.pages.inv.pde D' _ (.inr ⟨_, hD⟩) (by norm_num) t).mpr ht
  have hwalk : s₁.walk D' 0x80005000 = some 0x05000001 := by
    rw [State.walk_of_pde hpde, show 0x80005000 / 4096 % 1024 = 5 by norm_num, hword]
    decide
  -- the frames in use are the lowest ones
  have hused : ∀ g, 7006 ≤ g → g < 0x100000 → s₁.allocated g = false := by
    have hlarge : ∀ f, Costs (Packed Layout.highest 7006) 0 (modifyLarge f) :=
      fun _ _ _ ⟨m', hk, hm, hu⟩ => ⟨m', hk, hm, hu.congr fun _ => rfl⟩
    have hpacked := (frameCount_packed Layout.highest (M := 7006) (by norm_num)).kmallocLarge hlarge
      0 8188 (fun hre => hre.1 hb.largeHead) (by
        rw [largePages_8188]
        exact hb.packed 6)
    rw [hr, final_ok] at hpacked
    obtain ⟨m', -, hle, hbelow⟩ := hpacked
    intro g h1 h2
    rw [hbelow g h2]
    exact decide_eq_false (by omega)
  exact ⟨s, s₁, D', hboot, hb.first_trace hr, fun g h1 h2 => hused g (by omega) h2, hdirOf.symm,
    hwalk, hnone, hused _ (by norm_num) (by norm_num)⟩

end RaxzusHeap
