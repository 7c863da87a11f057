import RaxzusHeap.Limits
import RaxzusHeap.Budget

/-! # Runs of the large domain

`LargeOnly` admits the calls that concern the large domain only.  Nothing need be assumed of
the frames they take: the window bounds them (`HeapPages.room`).  `LargeHeap` is the
invariant; it describes the heap by `LargeRange`, the ranges that a reader of memory finds:
the page count of a live allocation stands in its header, that of a slot in its second word
(`LargeHeap.range_iff`). -/

namespace RaxzusHeap

open Imperative FirstFit Linked

/-- The call concerns the large domain, asks for a size whose page count does not wrap, and
leaves the cursor in the window. -/
structure LargeOnly (L : Layout) (c : HeapCall) : Prop where
  op : c.op.small = none
  size : ∀ n, c.op.large = some n → n + 4099 < 2 ^ 32
  window : ∀ n, c.op.large = some n → n ≠ 0 → ¬ L.Reuses c.before (largePages n) →
    c.before.large.nextVirtAddr + largePages n * 4096 ≤ 0xC0000000

/-- A slot is only reused by a request for as many pages as it has. -/
def ExactReuse (L : Layout) (c : HeapCall) : Prop :=
  ∀ n, c.op.large = some n → n ≠ 0 → L.Reuses c.before (largePages n) →
    c.before.peek L.dirFrame (c.before.large.nextFreeVirt + 4) = some (largePages n)

/-- Calls of the large domain that reuse slots exactly. -/
def LargeExact (L : Layout) (c : HeapCall) : Prop := LargeOnly L c ∧ ExactReuse L c

section Calls

variable {L : Layout} {live : ℕ → Option ℕ} {t t' : State} {n a p : ℕ}

theorem LargeOnly.of_fits (hn : n + 4099 < 2 ^ 32)
    (hfit : t.large.nextVirtAddr + largePages n * 4096 ≤ 0xC0000000) :
    LargeOnly L ⟨live, t, .kmallocLarge n, a, t'⟩ where
  op := rfl
  size m hm := by
    cases hm
    exact hn
  window m hm _ _ := by
    cases hm
    exact hfit

theorem LargeOnly.fresh (h : LargeOnly L ⟨live, t, .kmallocLarge n, a, t'⟩)
    (hnot : ¬ L.Reuses t (largePages n)) : LargeExact L ⟨live, t, .kmallocLarge n, a, t'⟩ := by
  refine ⟨h, fun m hm _ hreuse => ?_⟩
  cases hm
  exact absurd hreuse hnot

theorem LargeOnly.reuse (h : LargeOnly L ⟨live, t, .kmallocLarge n, a, t'⟩)
    (hcount : t.peek L.dirFrame (t.large.nextFreeVirt + 4) = some (largePages n)) :
    LargeExact L ⟨live, t, .kmallocLarge n, a, t'⟩ := by
  refine ⟨h, fun m hm _ _ => ?_⟩
  cases hm
  exact hcount

theorem LargeExact.free : LargeExact L ⟨live, t, .kfreeLarge p, a, t'⟩ :=
  ⟨⟨rfl, fun m hm => (by cases hm), fun m hm => (by cases hm)⟩, fun m hm => (by cases hm)⟩

end Calls

/-- What holds in a run of the large domain. -/
structure LargeHeap (L : Layout) (use : ℕ → Use) (live ranges : ℕ → Option ℕ) (s : State) :
    Prop where
  heap : HeapInv L use live ranges s
  fit : SizesFit live
  few : ∀ p, Backed use p → p < 0x80000 →
    ∃ d : SizeClass, d.virtBase ≤ p * 4096 ∧ p * 4096 < d.virtBase + 256 * 4096
  noProc : ∀ D, use D ≠ .dir .proc
  large : ∀ p n, live p = some n → 0x80000000 ≤ p
  counted : ∀ p n, live p = some n → ranges (p / 4096) = some (largePages n)

namespace LargeLabels

variable {use use' : ℕ → Use}

theorem backed_low (h : LargeLabels use use') {p : ℕ} (hp : p < 0x80000) (hb : Backed use' p) :
    Backed use p := by
  obtain ⟨f, hf⟩ := hb
  rcases h.fresh f with h1 | h1 | ⟨d, i, h1⟩ | ⟨q, hq, h1⟩ <;> rw [hf] at h1
  · exact ⟨f, h1.symm⟩
  · cases h1
  · cases h1
  · cases h1
    omega

theorem dir (h : LargeLabels use use') {D : ℕ} {o : Owner} (hD : use' D = .dir o) :
    use D = .dir o := by
  rcases h.fresh D with h1 | h1 | ⟨d, i, h1⟩ | ⟨q, hq, h1⟩ <;> rw [hD] at h1
  · exact h1.symm
  · cases h1
  · cases h1
  · cases h1

end LargeLabels

theorem Effect.largeLabels {L : Layout} {use use' : ℕ → Use} {live ranges ranges' : ℕ → Option ℕ}
    {s s' : State} {op : HeapOp} {a : ℕ} (he : Effect L use live ranges s op a use' ranges' s')
    (hop : op.small = none) : LargeLabels use use' := by
  cases he with
  | popped h => rw [hop] at h; cases h
  | pushed => exact ⟨fun _ _ _ => rfl, fun _ => Or.inl rfl, fun _ _ _ _ ht => ht⟩
  | carved _ h => exact h.labels
  | returned _ _ h => exact h.labels
  | wrote => exact ⟨fun _ _ _ => rfl, fun _ => Or.inl rfl, fun _ _ _ _ ht => ht⟩
  | refused => exact ⟨fun _ _ _ => rfl, fun _ => Or.inl rfl, fun _ _ _ _ ht => ht⟩

namespace LargeHeap

variable {L : Layout} {use : ℕ → Use} {live ranges : ℕ → Option ℕ} {s : State}

theorem room (h : LargeHeap L use live ranges s) {use' : ℕ → Use} {t : State}
    (ht : HeapPages L use' t) (hlabels : LargeLabels use use') : Room t.allocated 3 0x50000 := by
  apply ht.room
  · intro p hp hlt
    exact h.few p (hlabels.backed_low hlt hp) hlt
  · intro D hD
    exact h.noProc D (hlabels.dir hD)

theorem ready (h : LargeHeap L use live ranges s) {c : HeapCall} (hs : c.before = s)
    (hG : LargeOnly L c) {n : ℕ} (hop : c.op.large = some n) (hn : n ≠ 0) :
    LargeReady L use n s c.after := by
  subst hs
  refine ⟨largePages_pos (hG.size n hop), hG.window n hop hn, fun _ => True, ?_, ?_, trivial⟩
  · intro _ _ _ ht
    exact ht
  · intro use' t ht hlabels _
    exact h.room ht hlabels

/-- The live blocks after a call. -/
theorem live_of_effect (h : LargeHeap L use live ranges s) {use' : ℕ → Use}
    {ranges' : ℕ → Option ℕ} {s' : State} {op : HeapOp} {a : ℕ}
    (he : Effect L use live ranges s op a use' ranges' s') (hop : op.small = none) {p n : ℕ}
    (hp : liveAfter live op a p = some n) :
    0x80000000 ≤ p ∧ ranges' (p / 4096) = some (largePages n) := by
  cases he with
  | popped hsmall => rw [hop] at hsmall; cases hsmall
  | pushed hfree =>
      rw [liveAfter_freed hfree] at hp
      obtain ⟨_, hp⟩ := Extents.update_none hp
      exact ⟨h.large p n hp, h.counted p n hp⟩
  | @carved _ k q _ _ hlarge hc =>
      rw [liveAfter_large hlarge (by omega)] at hp
      have hlo := hc.lo
      cases Extents.update_some hp with
      | inl hpa =>
          obtain ⟨rfl, rfl⟩ := hpa
          have hdiv : (q * 4096 + 4) / 4096 = q := by omega
          rw [hdiv, Function.update_self]
          exact ⟨by omega, rfl⟩
      | inr hpa =>
          obtain ⟨hne, hp⟩ := hpa
          have hge := h.large p n hp
          obtain ⟨hmod, _⟩ := h.heap.large.header p n hp hge
          rw [Function.update_of_ne (by omega)]
          exact ⟨hge, h.counted p n hp⟩
  | returned hfree =>
      rw [liveAfter_freed hfree] at hp
      obtain ⟨_, hp⟩ := Extents.update_none hp
      exact ⟨h.large p n hp, h.counted p n hp⟩
  | wrote => exact ⟨h.large p n hp, h.counted p n hp⟩
  | refused hlarge =>
      rw [liveAfter_zero hlarge] at hp
      exact ⟨h.large p n hp, h.counted p n hp⟩

/-- A call of the large domain keeps the invariant. -/
theorem call {c : HeapCall} (h : LargeHeap L use c.live ranges c.before)
    (hlegal : Legal c.live c.op) (hr : L.heapCall c.op c.before = .ok c.result c.after)
    (hG : LargeOnly L c) :
    ∃ use' ranges', LargeHeap L use' (liveAfter c.live c.op c.result) ranges' c.after ∧
      Effect L use c.live ranges c.before c.op c.result use' ranges' c.after := by
  obtain ⟨use', ranges', h', he⟩ := h.heap.call hlegal hr
    (fun d n hop => by rw [hG.op] at hop; cases hop)
    (fun n hop hn => h.ready rfl hG hop hn)
    (fun p n hp _ => h.fit p n hp)
  have hlabels := he.largeLabels hG.op
  refine ⟨use', ranges', ⟨h', ?_, ?_, ?_, ?_, ?_⟩, he⟩
  · apply he.sizesFit hG.size (fun d n hop => HeapOp.small_le hop) ?_ h.fit
    intro hop ha
    rw [ha]
    exact liveAfter_zero hop
  · intro p hp hlt
    exact h.few p (hlabels.backed_low hlt hp) hlt
  · intro D hD
    exact h.noProc D (hlabels.dir hD)
  · intro p n hp
    exact (h.live_of_effect he hG.op hp).1
  · intro p n hp
    exact (h.live_of_effect he hG.op hp).2

end LargeHeap

theorem Booted.largeHeap {L : Layout} {use : ℕ → Use} {m : ℕ} {s : State}
    (h : Booted L use m s) : LargeHeap L use noLive noLive s := by
  refine ⟨h.heap, fun p n hp => (by cases hp), ?_, h.noProc, fun p n hp => (by cases hp),
    fun p n hp => (by cases hp)⟩
  intro p hp hlt
  obtain ⟨f, hf⟩ := hp
  have hreg := h.heap.pages.region f p hf
  cases window_cases (p := p * 4096) (by omega) with
  | inl hge => omega
  | inr hd =>
      obtain ⟨d, h1, h2⟩ := hd
      have hback := ((h.heap.dom d).backed p h1 h2).mp ⟨f, hf⟩
      rw [h.cursor d] at hback
      exact ⟨d, h1, hback⟩

theorem HeapRun.largeHeap {L : Layout} {live : ℕ → Option ℕ} {s : State}
    (h : HeapRun L (LargeOnly L) live s) : ∃ use ranges, LargeHeap L use live ranges s := by
  apply h.invariant (I := fun live s => ∃ use ranges, LargeHeap L use live ranges s)
  · intro use m t hb
    exact ⟨use, noLive, hb.largeHeap⟩
  · intro c hs hlegal hr hG
    obtain ⟨use, ranges, hs⟩ := hs
    obtain ⟨use', ranges', h', _⟩ := hs.call hlegal hr hG
    exact ⟨use', ranges', h'⟩

/-! ### Ranges as memory shows them -/

/-- A range of the large domain starting at address `a`: the page count is in the header of
a live allocation or in the second word of a slot. -/
inductive LargeRange (L : Layout) (live : ℕ → Option ℕ) (slots : List ℕ) (s : State) :
    ℕ → ℕ → Prop
  | live {a n N} (h : live (a + 4) = some n) (hN : s.peek L.dirFrame a = some N) :
      LargeRange L live slots s a N
  | slot {a N} (h : a ∈ slots) (hN : s.peek L.dirFrame (a + 4) = some N) :
      LargeRange L live slots s a N

/-- The slots on the LIFO, the last freed first. -/
def IsLifo (L : Layout) (s : State) (slots : List ℕ) : Prop :=
  Chain (s.peek L.dirFrame) 0 s.large.nextFreeVirt slots

namespace LargeHeap

variable {L : Layout} {use : ℕ → Use} {live ranges : ℕ → Option ℕ} {s : State} {slots : List ℕ}

theorem exists_lifo (h : LargeHeap L use live ranges s) : ∃ slots, IsLifo L s slots := by
  obtain ⟨slots, hslots, _⟩ := h.heap.large.chain
  exact ⟨slots, hslots⟩

theorem mem_slots (h : LargeHeap L use live ranges s) (hl : IsLifo L s slots) (b : ℕ) :
    b ∈ slots ↔ b % 4096 = 0 ∧ (∃ N, ranges (b / 4096) = some N) ∧ live (b + 4) = none := by
  obtain ⟨l, hch, hmem⟩ := h.heap.large.chain
  rw [hl.unique hch]
  exact hmem b

theorem range_iff (h : LargeHeap L use live ranges s) (hl : IsLifo L s slots) (a N : ℕ) :
    LargeRange L live slots s a N ↔ ∃ q, a = q * 4096 ∧ ranges q = some N := by
  constructor
  · intro ha
    cases ha with
    | @live n _ hlive hN =>
        have hge := h.large _ n hlive
        obtain ⟨hmod, A, hA, _, hpeek⟩ := h.heap.large.header _ n hlive hge
        have hstart : (a + 4) / 4096 * 4096 = a := by omega
        rw [hstart, hN] at hpeek
        cases hpeek
        exact ⟨(a + 4) / 4096, hstart.symm, hA⟩
    | slot hmem hN =>
        obtain ⟨hmod, ⟨A, hA⟩, hnone⟩ := (h.mem_slots hl a).mp hmem
        have hstart : a / 4096 * 4096 = a := by omega
        have hpeek := h.heap.large.slot _ A hA (by rw [hstart]; exact hnone)
        rw [hstart, hN] at hpeek
        cases hpeek
        exact ⟨a / 4096, hstart.symm, hA⟩
  · rintro ⟨q, rfl, hq⟩
    have hdiv4 : (q * 4096 + 4) / 4096 = q := by omega
    have hdiv : q * 4096 / 4096 = q := Nat.mul_div_cancel q (by norm_num)
    have hmod : q * 4096 % 4096 = 0 := Nat.mul_mod_left q 4096
    cases hlive : live (q * 4096 + 4) with
    | some n =>
        have hge := h.large _ n hlive
        obtain ⟨_, A, hA, _, hpeek⟩ := h.heap.large.header _ n hlive hge
        rw [hdiv4, hq] at hA
        cases hA
        rw [hdiv4] at hpeek
        exact .live hlive hpeek
    | none =>
        have hmem : q * 4096 ∈ slots := by
          apply (h.mem_slots hl _).mpr
          rw [hdiv]
          exact ⟨hmod, ⟨N, hq⟩, hlive⟩
        exact .slot hmem (h.heap.large.slot q N hq hlive)

end LargeHeap

/-! ### Calls that succeed -/

namespace LargeHeap

variable {L : Layout} {use : ℕ → Use} {live ranges : ℕ → Option ℕ} {s : State}

/-- With enough frames below 1 GB, `kmalloc_large` succeeds, whatever its page count stands for. -/
theorem kmallocLarge_run (h : LargeHeap L use live ranges s) {n k : ℕ} (hn0 : n ≠ 0)
    (hN : 1 ≤ largePages n)
    (hfit : ¬ L.Reuses s (largePages n) →
      s.large.nextVirtAddr + largePages n * 4096 ≤ 0xC0000000)
    (hroom : RoomBelow 0x40000 (3 + k + largePages n * 3) s) :
    ∃ q use' s', L.kmallocLarge n s = .ok (q * 4096 + 4) s' ∧
      Carved L use live ranges n q s use' s' ∧
      HeapInv L use' (Function.update live (q * 4096 + 4) (some n))
        (Function.update ranges q (some (largePages n))) s' ∧
      RoomBelow 0x40000 (3 + k) s' := by
  have hanti : ∀ t, RoomBelow 0x40000 (3 + k) t → RoomBelow 0x40000 3 t := fun t ht =>
    ht.anti (3 + k) 3 t (Nat.le_add_right 3 k)
  have halloc := h.heap.largeAlloc (m := 0x40000) (by norm_num) hn0 hN hfit (RoomBelow 0x40000 3)
    (fun _ _ hsub ht => Room.of_less ht hsub) (fun _ _ _ _ ht => ht)
  have hcosts := h.heap.large.costs h.heap.pages (frameCount_roomBelow L 0x40000) (k := 3 + k) hn0 hN
    hfit fun _ _ _ _ htook => htook.room hroom
  obtain ⟨a, s', hrun, hend, hleft⟩ := ((halloc.and hcosts).mono (fun _ _ hq => hq)
    (fun t hE => lt_irrefl _ (hE.1 (hanti t hE.2)).1)).exists_ok
  obtain ⟨q, use', rfl, hc, hh⟩ := hend (hanti s' hleft)
  exact ⟨q, use', s', hrun, hc, hh, hleft⟩

/-- A range with room for the bytes asked for is one more large range. -/
theorem kmallocLarge_ok (h : LargeHeap L use live ranges s) {n k : ℕ} (hn0 : n ≠ 0)
    (hn : n + 4099 < 2 ^ 32)
    (hfit : ¬ L.Reuses s (largePages n) →
      s.large.nextVirtAddr + largePages n * 4096 ≤ 0xC0000000)
    (hroom : RoomBelow 0x40000 (3 + k + largePages n * 3) s) :
    ∃ q use' s', L.kmallocLarge n s = .ok (q * 4096 + 4) s' ∧
      Carved L use live ranges n q s use' s' ∧
      LargeHeap L use' (Function.update live (q * 4096 + 4) (some n))
        (Function.update ranges q (some (largePages n))) s' ∧
      RoomBelow 0x40000 (3 + k) s' := by
  obtain ⟨q, use', s', hrun, hc, hh, hleft⟩ := h.kmallocLarge_run hn0 (largePages_pos hn) hfit hroom
  have hop : (HeapOp.kmallocLarge n).large = some n := rfl
  have he : Effect L use live ranges s (.kmallocLarge n) (q * 4096 + 4) use'
      (Function.update ranges q (some (largePages n))) s' := .carved hop hc
  have hlive : liveAfter live (.kmallocLarge n) (q * 4096 + 4) =
      Function.update live (q * 4096 + 4) (some n) := liveAfter_large hop (by omega)
  refine ⟨q, use', s', hrun, hc, ⟨hh, h.fit.update _ hn, ?_, ?_, ?_, ?_⟩, hleft⟩
  · intro p hp hlt
    exact h.few p (hc.labels.backed_low hlt hp) hlt
  · intro D hD
    exact h.noProc D (hc.labels.dir hD)
  · intro p m hp
    rw [← hlive] at hp
    exact (h.live_of_effect he rfl hp).1
  · intro p m hp
    rw [← hlive] at hp
    exact (h.live_of_effect he rfl hp).2

/-- Releasing a live pointer succeeds. -/
theorem kfreeLarge_ok (h : LargeHeap L use live ranges s) {p n : ℕ} (hp : live p = some n) :
    ∃ q N use' s', p = q * 4096 + 4 ∧ L.kfreeLarge p s = .ok () s' ∧
      Returned L use live ranges q N s use' s' ∧
      LargeHeap L use' (Function.update live p none) ranges s' ∧
      ∀ m k, m ≤ 0x100000 → RoomBelow m k s → RoomBelow m k s' := by
  have hge := h.large p n hp
  obtain ⟨q, N, use', s', rfl, hrun, hret, hh⟩ := h.heap.largeFree hp hge
  have hop : (HeapOp.kfreeLarge (q * 4096 + 4)).freed = some (q * 4096 + 4) := rfl
  have he : Effect L use live ranges s (.kfreeLarge (q * 4096 + 4)) 0 use' ranges s' :=
    .returned hop (by rw [hp]; simp) hret
  refine ⟨q, N, use', s', rfl, hrun, hret, ⟨hh, h.fit.remove _, ?_, ?_, ?_, ?_⟩, ?_⟩
  · intro x hx hlt
    exact h.few x (hret.labels.backed_low hlt hx) hlt
  · intro D hD
    exact h.noProc D (hret.labels.dir hD)
  · intro x m hx
    exact (h.live_of_effect he rfl hx).1
  · intro x m hx
    exact (h.live_of_effect he rfl hx).2
  · intro m k hm hroom
    apply Room.of_free hroom
    intro g hg hclear
    have hfree := h.heap.pages.inv.use_of_clear (by omega) hclear
    apply hh.pages.inv.clear_of_free (by omega)
    rw [hret.kept g (fun x hx => by rw [hfree] at hx; cases hx), hfree]

end LargeHeap

/-! ### Frames taken one after the other -/

/-- The frames in use are the lowest ones, and `n` more may be taken below `M`. -/
def Packed (L : Layout) (M n : ℕ) (s : State) : Prop :=
  ∃ m, L.kernelFrames ≤ m ∧ m + n ≤ M ∧ s.UsedBelow m

theorem frameCount_packed (L : Layout) {M : ℕ} (hM : M ≤ 0x80000) : FrameCount L (Packed L M) where
  anti := by
    rintro n n' s hle ⟨m, hk, hm, hu⟩
    exact ⟨m, hk, by omega, hu⟩
  congr := by
    rintro n s s' ha - - ⟨m, hk, hm, hu⟩
    exact ⟨m, hk, hm, hu.congr ha⟩
  kernelFrame := by
    rintro n s ⟨m, hk, hm, hu⟩
    rw [L.kernelFrame_eq (hu.image hk) (hu.first (by omega)) (by omega), takeFrame_low (by omega)]
    exact ⟨m + 1, by omega, by omega, hu.take⟩
  processFrame := by
    rintro n s ⟨m, hk, hm, hu⟩
    rw [L.processFrame_eq (hu.image hk) (hu.first (by omega)) (by omega), takeFrame_low (by omega)]
    exact ⟨m + 1, by omega, by omega, hu.take⟩

theorem Booted.image_le {L : Layout} {use : ℕ → Use} {m : ℕ} {s : State}
    (h : Booted L use m s) : L.kernelFrames ≤ m := by
  have hK : L.kernelFrames ≤ 1024 := L.high
  have hpos : 258 ≤ L.kernelFrames := Nat.le_add_left _ _
  have hlast := h.heap.pages.inv.image (L.kernelFrames - 1) (by omega)
  rw [h.used _ (by omega), decide_eq_true_iff] at hlast
  omega

theorem Booted.packed {L : Layout} {use : ℕ → Use} {m : ℕ} {s : State} (h : Booted L use m s)
    (n : ℕ) : Packed L (7000 + n) n s :=
  ⟨m, h.image_le, Nat.add_le_add_right h.few n, h.used⟩

theorem Booted.roomBelow {L : Layout} {use : ℕ → Use} {m : ℕ} {s : State}
    (h : Booted L use m s) : RoomBelow 0x40000 200000 s := by
  have hfew := h.few
  exact h.used.room (by norm_num) (by omega)

theorem Booted.fits {L : Layout} {use : ℕ → Use} {m : ℕ} {s : State} (h : Booted L use m s)
    {N : ℕ} (hN : N ≤ 0x40000) : s.large.nextVirtAddr + N * 4096 ≤ 0xC0000000 := by
  rw [h.largeCursor, LARGE_VIRT_BASE]
  omega

/-! ### Two ranges after booting -/

theorem Carved.of_fresh {L : Layout} {use use' : ℕ → Use} {live ranges : ℕ → Option ℕ} {n q : ℕ}
    {s s' : State} (hl : LargeInv L use live ranges s) (hc : Carved L use live ranges n q s use' s')
    (hfresh : ¬ L.Reuses s (largePages n)) : s.large.nextVirtAddr = q * 4096 := by
  obtain ⟨_, _, _, htook⟩ := hc.took
  have hlo := hc.lo
  cases htook.slot with
  | fresh hq => exact hq
  | @reused K _ hq hK hN hlive =>
      refine absurd ⟨by omega, K, ?_, hN⟩ hfresh
      rw [hq]
      exact hl.slot q K hK hlive

/-- A range that is reused is the slot on top of the LIFO, and the cursor stays. -/
theorem Carved.of_reuse {L : Layout} {use use' : ℕ → Use} {live ranges : ℕ → Option ℕ} {n q : ℕ}
    {s s' : State} (hl : LargeInv L use live ranges s) (hc : Carved L use live ranges n q s use' s')
    (hreuse : L.Reuses s (largePages n)) :
    s.large.nextFreeVirt = q * 4096 ∧ s'.large.nextVirtAddr = s.large.nextVirtAddr := by
  obtain ⟨_, _, _, htook⟩ := hc.took
  have hpos := htook.hole.pos
  cases htook.slot with
  | fresh _ _ _ hmoved =>
      have hsame := htook.reuse hreuse
      omega
  | @reused K _ hq hK =>
      obtain ⟨-, hK1, hin⟩ := hl.within q K hK
      refine ⟨hq, ?_⟩
      rcases hc.cursor with hsame | ⟨hcur, -⟩
      · exact hsame
      · omega

/-- The only slot is the one on top of the LIFO. -/
theorem LargeHeap.head_of_only {L : Layout} {use : ℕ → Use} {live ranges : ℕ → Option ℕ} {s : State}
    (h : LargeHeap L use live ranges s) {q K : ℕ} (hq : ranges q = some K)
    (hnone : live (q * 4096 + 4) = none)
    (honly : ∀ q' K', ranges q' = some K' → live (q' * 4096 + 4) = none → q' = q) :
    s.large.nextFreeVirt = q * 4096 ∧
      s.peek L.dirFrame (s.large.nextFreeVirt + 4) = some K := by
  have hhead : s.large.nextFreeVirt = q * 4096 := by
    obtain ⟨slots, hl⟩ := h.exists_lifo
    have hdiv : q * 4096 / 4096 = q := Nat.mul_div_cancel q (by norm_num)
    have hmem : q * 4096 ∈ slots := (h.mem_slots hl _).mpr
      ⟨Nat.mul_mod_left q 4096, by rw [hdiv]; exact ⟨K, hq⟩, hnone⟩
    have hne : s.large.nextFreeVirt ≠ 0 := by
      intro hzero
      unfold IsLifo at hl
      rw [hzero] at hl
      rw [hl.eq_nil] at hmem
      cases hmem
    obtain ⟨q', K', _, _, hq', hK', hlive, -⟩ := h.heap.large.head hne
    rw [hq', honly q' K' hK' hlive]
  refine ⟨hhead, ?_⟩
  rw [hhead]
  exact h.heap.large.slot q K hq hnone

theorem largePages_8188 : largePages 8188 = 2 := by decide

theorem largePages_100 : largePages 100 = 1 := by decide

/-- The first allocation takes the first pages of the window. -/
theorem Booted.first_large {L : Layout} {use : ℕ → Use} {m : ℕ} {s : State}
    (hb : Booted L use m s) :
    ∃ use' s₁, L.kmallocLarge 8188 s = .ok (0x80000 * 4096 + 4) s₁ ∧
      LargeHeap L use' (Function.update noLive (0x80000 * 4096 + 4) (some 8188))
        (Function.update noLive 0x80000 (some 2)) s₁ ∧
      s₁.large.nextVirtAddr = 0x80002000 ∧ RoomBelow 0x40000 100 s₁ ∧
      Carved L use noLive noLive 8188 0x80000 s use' s₁ := by
  have hfit : s.large.nextVirtAddr + largePages 8188 * 4096 ≤ 0xC0000000 := by
    rw [largePages_8188]
    exact hb.fits (by norm_num)
  obtain ⟨q, use', s₁, hr, hc, hh, hroom⟩ := hb.largeHeap.kmallocLarge_ok (n := 8188) (k := 97)
    (by norm_num) (by norm_num) (fun _ => hfit) (by
      rw [largePages_8188]
      exact hb.roomBelow.anti 200000 _ s (by norm_num))
  have hcur := hb.largeCursor
  have hhead := hb.largeHead
  obtain ⟨use₁, ranges₁, s', htook⟩ := hc.took
  have hq : q = 0x80000 ∧ s₁.large.nextVirtAddr = 0x80002000 := by
    have hcursor := hc.cursor
    have hin := hc.inv.within q _ (Function.update_self ..)
    unfold LARGE_VIRT_BASE at hcur
    rw [largePages_8188] at hcursor hin
    omega
  obtain ⟨rfl, hcur₁⟩ := hq
  rw [largePages_8188] at hh
  exact ⟨use', s₁, hr, hh, hcur₁, hroom, hc⟩

/-- The second allocation takes the next pages, since there is no slot yet. -/
theorem Booted.two_large {L : Layout} {use : ℕ → Use} {m : ℕ} {s : State} (hb : Booted L use m s) :
    ∃ use₂ s₁ s₂, L.kmallocLarge 8188 s = .ok (0x80000 * 4096 + 4) s₁ ∧
      L.kmallocLarge 8188 s₁ = .ok (0x80002 * 4096 + 4) s₂ ∧ ¬ L.Reuses s₁ (largePages 8188) ∧
      s₁.large.nextVirtAddr = 0x80002000 ∧ s₂.large.nextVirtAddr ≤ 0x80004000 ∧
      LargeHeap L use₂ (Function.update (Function.update noLive (0x80000 * 4096 + 4) (some 8188))
          (0x80002 * 4096 + 4) (some 8188))
        (Function.update (Function.update noLive 0x80000 (some 2)) 0x80002 (some (largePages 8188)))
        s₂ ∧
      RoomBelow 0x40000 94 s₂ := by
  obtain ⟨use₁, s₁, hr₁, h₁, hcur₁, hroom₁, -⟩ := hb.first_large
  have hfresh₁ : ¬ L.Reuses s₁ (largePages 8188) := by
    rintro ⟨hne, -⟩
    obtain ⟨q, K, _, _, -, hK, hlive, -⟩ := h₁.heap.large.head hne
    by_cases hq : q = 0x80000
    · rw [hq, Function.update_self] at hlive
      cases hlive
    · rw [Function.update_of_ne hq] at hK
      cases hK
  obtain ⟨q, use₂, s₂, hr₂, hc₂, h₂, hroom₂⟩ := h₁.kmallocLarge_ok (n := 8188) (k := 91)
    (by norm_num) (by norm_num) (fun _ => by rw [largePages_8188]; omega) (by
      rw [largePages_8188]
      exact hroom₁)
  have hq : q = 0x80002 := by
    have := hc₂.of_fresh h₁.heap.large hfresh₁
    omega
  subst hq
  refine ⟨use₂, s₁, s₂, hr₁, hr₂, hfresh₁, hcur₁, ?_, h₂, hroom₂⟩
  have := hc₂.cursor
  rw [largePages_8188] at this
  omega

/-- Two ranges of two pages are allocated, the first one is freed, and the next request for two
pages gets it back. -/
theorem Booted.reused_large {L : Layout} {use : ℕ → Use} {m : ℕ} {s : State} {mem : ℕ → ℕ → Word}
    (hboot : L.boot (State.powerOn mem) = .ok () s) (hb : Booted L use m s) :
    ∃ s₁ s₂ s₃ s₄ calls, L.kmallocLarge 8188 s = .ok 0x80000004 s₁ ∧
      L.kmallocLarge 8188 s₁ = .ok 0x80002004 s₂ ∧ L.kfreeLarge 0x80000004 s₂ = .ok () s₃ ∧
      L.kmallocLarge 8188 s₃ = .ok 0x80000004 s₄ ∧
      HeapRun L (LargeExact L) (Function.update noLive 0x80000004 (some 8188)) s₁ ∧
      HeapTrace L (LargeExact L) (Function.update noLive 0x80000004 (some 8188)) s₁ calls
        (Function.update (Function.update noLive 0x80000004 (some 8188)) 0x80002004 (some 8188))
        s₄ := by
  obtain ⟨use₂, s₁, s₂, hr₁, hr₂, hfresh₁, hcur₁, hcur₂, h₂, hroom₂⟩ := hb.two_large
  -- the first range becomes the only slot
  obtain ⟨q, N, use₃, s₃, hq, hr₃, hret, h₃, hroom₃⟩ := h₂.kfreeLarge_ok
    (p := 0x80000 * 4096 + 4) (n := 8188) (by
      rw [Function.update_of_ne (by norm_num), Function.update_self])
  obtain ⟨hhead, hcount⟩ := h₃.head_of_only (q := 0x80000) (K := 2)
    (by rw [Function.update_of_ne (by norm_num), Function.update_self]) (Function.update_self ..) (by
      intro q' K' hK' hnone
      by_contra hne
      by_cases h2 : q' = 0x80002
      · rw [h2, Function.update_of_ne (by norm_num), Function.update_self] at hnone
        cases hnone
      · rw [Function.update_of_ne h2, Function.update_of_ne hne] at hK'
        cases hK')
  have hreuse : L.Reuses s₃ (largePages 8188) :=
    ⟨by omega, 2, hcount, by rw [largePages_8188]⟩
  obtain ⟨q', use₄, s₄, hr₄, hc₄, -, -⟩ := h₃.kmallocLarge_ok (n := 8188) (k := 85)
    (by norm_num) (by norm_num) (fun hnot => absurd hreuse hnot) (by
      rw [largePages_8188]
      exact hroom₃ _ _ (by norm_num) hroom₂)
  have hq' : q' = 0x80000 := by
    have := (hc₄.of_reuse h₃.heap.large hreuse).1
    omega
  subst hq'
  -- the run
  have halloc : ∀ (live : ℕ → Option ℕ) {a : ℕ}, a ≠ 0 →
      liveAfter live (.kmallocLarge 8188) a = Function.update live a (some 8188) :=
    fun live a ha => liveAfter_large rfl ha
  have honly : ∀ {live : ℕ → Option ℕ} {t t' : State} {a : ℕ}, t.large.nextVirtAddr ≤ 0x80004000 →
      LargeOnly L ⟨live, t, .kmallocLarge 8188, a, t'⟩ := fun ht =>
    .of_fits (by norm_num) (by rw [largePages_8188]; omega)
  have run : HeapRun L (LargeExact L) (Function.update noLive 0x80000004 (some 8188)) s₁ := by
    rw [← halloc noLive (by norm_num)]
    exact (HeapRun.boot hboot).call (show Legal noLive (.kmallocLarge 8188) from trivial) hr₁
      ((honly (by rw [hb.largeCursor]; decide)).fresh fun hre => hre.1 hb.largeHead)
  have tr₀ : HeapTrace L (LargeExact L) (Function.update noLive 0x80000004 (some 8188)) s₁ []
      (Function.update noLive 0x80000004 (some 8188)) s₁ := .nil
  have tr₁ := tr₀.snoc (show Legal _ (.kmallocLarge 8188) from trivial) hr₂
    ((honly (by omega)).fresh hfresh₁)
  rw [halloc _ (by norm_num)] at tr₁
  have hlegal : Legal (Function.update (Function.update noLive 0x80000004 (some 8188))
      (0x80002 * 4096 + 4) (some 8188)) (.kfreeLarge 0x80000004) :=
    ⟨⟨8188, by rw [Function.update_of_ne (by norm_num), Function.update_self]⟩, by norm_num⟩
  have hfree : L.heapCall (.kfreeLarge 0x80000004) s₂ = .ok 0 s₃ := run_bind_ok hr₃
  have tr₂ := tr₁.snoc hlegal hfree .free
  rw [liveAfter_freed rfl] at tr₂
  have tr₃ := tr₂.snoc (show Legal _ (.kmallocLarge 8188) from trivial) hr₄
    ((honly (by rw [hret.cursor]; exact hcur₂)).reuse (by rw [largePages_8188]; exact hcount))
  have hback : ∀ {f : ℕ → Option ℕ} {a b : ℕ} {x y z : Option ℕ}, b ≠ a →
      Function.update (Function.update (Function.update (Function.update f a x) b y) a z) a x =
        Function.update (Function.update f a x) b y := by
    intro f a b x y z hne
    rw [Function.update_idem, Function.update_comm hne, Function.update_idem]
  rw [halloc _ (by norm_num), hback (by norm_num)] at tr₃
  exact ⟨s₁, s₂, s₃, s₄, _, hr₁, hr₂, hr₃, hr₄, run, tr₃⟩

/-! ### Ranges do not overlap -/

section Runs

variable {L : Layout} {live : ℕ → Option ℕ} {s : State}

/-- The LIFO is a finite list without repetitions that ends in `NULL`; the ranges of the
live allocations and of its slots lie below the cursor and do not overlap; no slot belongs to
a live allocation; and the header of every live allocation holds its own page count. -/
theorem large_ranges_apart (run : HeapRun L (LargeOnly L) live s) :
    ∃ slots, IsLifo L s slots ∧ slots.Nodup ∧
      (∀ a ∈ slots, live (a + 4) = none ∧ ∃ N, LargeRange L live slots s a N) ∧
      (∀ p n, live p = some n → ∃ a, p = a + 4 ∧ s.peek L.dirFrame a = some (largePages n) ∧
        n + 4 ≤ 4096 * largePages n ∧ LargeRange L live slots s a (largePages n)) ∧
      (∀ a N, LargeRange L live slots s a N →
        a % 4096 = 0 ∧ 1 ≤ N ∧ 0x80000000 ≤ a ∧ a + 4096 * N ≤ s.large.nextVirtAddr) ∧
      ∀ a N a' N', LargeRange L live slots s a N → LargeRange L live slots s a' N' → a ≠ a' →
        a + 4096 * N ≤ a' ∨ a' + 4096 * N' ≤ a := by
  obtain ⟨use, ranges, h⟩ := run.largeHeap
  obtain ⟨slots, hl⟩ := h.exists_lifo
  have hcursor := h.heap.large.aligned
  refine ⟨slots, hl, Chain.nodup hl, ?_, ?_, ?_, ?_⟩
  · intro a ha
    obtain ⟨hmod, ⟨N, hN⟩, hnone⟩ := (h.mem_slots hl a).mp ha
    exact ⟨hnone, N, (h.range_iff hl a N).mpr ⟨a / 4096, by omega, hN⟩⟩
  · intro p n hp
    have hge := h.large p n hp
    obtain ⟨hmod, N, hN, _, hpeek⟩ := h.heap.large.header p n hp hge
    have hcount := h.counted p n hp
    rw [hN] at hcount
    cases hcount
    exact ⟨p / 4096 * 4096, by omega, hpeek, largePages_size (h.fit p n hp),
      (h.range_iff hl _ _).mpr ⟨_, rfl, hN⟩⟩
  · intro a N ha
    obtain ⟨q, rfl, hq⟩ := (h.range_iff hl a N).mp ha
    obtain ⟨h1, h2, h3⟩ := h.heap.large.within q N hq
    exact ⟨Nat.mul_mod_left q 4096, h2, by omega, by omega⟩
  · intro a N a' N' ha ha' hne
    obtain ⟨q, rfl, hq⟩ := (h.range_iff hl a N).mp ha
    obtain ⟨q', rfl, hq'⟩ := (h.range_iff hl a' N').mp ha'
    have hqq : q ≠ q' := by rintro rfl; exact hne rfl
    cases h.heap.large.disjoint q N q' N' hq hq' hqq with
    | inl h1 => exact Or.inl (by omega)
    | inr h1 => exact Or.inr (by omega)

end Runs

/-- Two ranges, of which the first one was free in between: both headers say two pages, and the
ranges do not overlap. -/
theorem large_ranges_apart_first :
    ∃ s s₁ s₂ s₃ s₄, Layout.lowest.boot (State.powerOn fun _ _ => 0) = .ok () s ∧
      Layout.lowest.kmallocLarge 8188 s = .ok 0x80000004 s₁ ∧
      Layout.lowest.kmallocLarge 8188 s₁ = .ok 0x80002004 s₂ ∧
      Layout.lowest.kfreeLarge 0x80000004 s₂ = .ok () s₃ ∧
      Layout.lowest.kmallocLarge 8188 s₃ = .ok 0x80000004 s₄ ∧
      s₄.peek Layout.lowest.dirFrame 0x80000000 = some 2 ∧
      s₄.peek Layout.lowest.dirFrame 0x80002000 = some 2 ∧
      ∃ live slots, IsLifo Layout.lowest s₄ slots ∧
        LargeRange Layout.lowest live slots s₄ 0x80000000 2 ∧
        LargeRange Layout.lowest live slots s₄ 0x80002000 2 ∧
        (0x80000000 + 4096 * 2 ≤ 0x80002000 ∨ 0x80002000 + 4096 * 2 ≤ 0x80000000) := by
  obtain ⟨use, m, s, hboot, hb⟩ := Layout.lowest.boot_spec fun _ _ => 0
  obtain ⟨s₁, s₂, s₃, s₄, calls, hr₁, hr₂, hr₃, hr₄, run, trace⟩ := hb.reused_large hboot
  have run₄ : HeapRun Layout.lowest (LargeOnly Layout.lowest) _ s₄ :=
    (run.trace trace).mono fun _ hc => hc.1
  generalize hlive : Function.update (Function.update noLive 0x80000004 (some 8188)) 0x80002004
    (some 8188) = live at run₄
  obtain ⟨slots, hl, -, -, hlarge, -, hapart⟩ := large_ranges_apart run₄
  have hrange : ∀ a, live (a + 4) = some 8188 → s₄.peek Layout.lowest.dirFrame a = some 2 ∧
      LargeRange Layout.lowest live slots s₄ a 2 := by
    intro a ha
    obtain ⟨a', he, hpeek, -, hr⟩ := hlarge _ _ ha
    obtain rfl : a' = a := by omega
    rw [largePages_8188] at hpeek hr
    exact ⟨hpeek, hr⟩
  obtain ⟨hp, hr⟩ := hrange 0x80000000 (by
    rw [← hlive, Function.update_of_ne (by norm_num), Function.update_self])
  obtain ⟨hp', hr'⟩ := hrange 0x80002000 (by rw [← hlive, Function.update_self])
  exact ⟨s, s₁, s₂, s₃, s₄, hboot, hr₁, hr₂, hr₃, hr₄, hp, hp', live, slots, hl, hr, hr',
    hapart _ _ _ _ hr hr' (by norm_num)⟩

end RaxzusHeap
