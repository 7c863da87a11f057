import RaxzusHeap.Progress
import Mathlib.Algebra.Order.Floor.Div

/-! # The pages of a size class

A domain takes a new page only when its free list is empty, and then every block of its pages is
live.  So the pages it has never exceed what was needed at once at most: in any run of the heap
they are the premapped ones, or as many as hold the peak of the live blocks
(`class_footprint`), in whatever order blocks were taken and given back.  A block is more than
half in use, above 64 bytes, which bounds the memory of a class by what clients had asked for
(`class_memory_le`). -/

namespace RaxzusHeap

open Imperative FirstFit

/-! ### Demand -/

/-- The live blocks of a size class. -/
def SizeClass.liveBlocks (d : SizeClass) (live : ℕ → Option ℕ) : Finset ℕ :=
  (Finset.Ico d.virtBase (d.virtBase + 0x10000000)).filter fun p => (live p).isSome

def SizeClass.demand (d : SizeClass) (live : ℕ → Option ℕ) : ℕ := (d.liveBlocks live).card

/-- The bytes asked for with the live blocks of a size class. -/
def SizeClass.bytes (d : SizeClass) (live : ℕ → Option ℕ) : ℕ :=
  ∑ p ∈ d.liveBlocks live, (live p).getD 0

/-- The largest value of `f` before one of the calls or after them. -/
def peakOf (f : (ℕ → Option ℕ) → ℕ) (calls : List HeapCall) (live : ℕ → Option ℕ) : ℕ :=
  max (calls.foldr (fun c k => max k (f c.live)) 0) (f live)

/-- The most blocks of the class that were live at once. -/
def SizeClass.peak (d : SizeClass) : List HeapCall → (ℕ → Option ℕ) → ℕ := peakOf d.demand

/-- The most bytes of the class that clients had asked for at once. -/
def SizeClass.peakBytes (d : SizeClass) : List HeapCall → (ℕ → Option ℕ) → ℕ := peakOf d.bytes

/-- The blocks of a page. -/
def SizeClass.perPage (d : SizeClass) : ℕ := 4096 / d.blockSize

section Demand

variable {d : SizeClass} {live : ℕ → Option ℕ} {p n : ℕ}

theorem SizeClass.mem_liveBlocks : p ∈ d.liveBlocks live ↔
    (d.virtBase ≤ p ∧ p < d.virtBase + 0x10000000) ∧ live p ≠ none := by
  simp [SizeClass.liveBlocks, Option.isSome_iff_ne_none]

theorem SizeClass.liveBlocks_insert (h1 : d.virtBase ≤ p) (h2 : p < d.virtBase + 0x10000000) :
    d.liveBlocks (Function.update live p (some n)) = insert p (d.liveBlocks live) := by
  ext q
  rw [Finset.mem_insert, mem_liveBlocks, mem_liveBlocks]
  by_cases hq : q = p
  · subst hq
    simp [h1, h2]
  · simp [hq]

theorem SizeClass.notMem_liveBlocks (hp : live p = none) : p ∉ d.liveBlocks live :=
  fun hmem => (mem_liveBlocks.mp hmem).2 hp

theorem SizeClass.demand_insert (h1 : d.virtBase ≤ p) (h2 : p < d.virtBase + 0x10000000)
    (hp : live p = none) : d.demand (Function.update live p (some n)) = d.demand live + 1 := by
  rw [demand, liveBlocks_insert h1 h2, Finset.card_insert_of_notMem (notMem_liveBlocks hp), demand]

theorem SizeClass.bytes_insert (h1 : d.virtBase ≤ p) (h2 : p < d.virtBase + 0x10000000)
    (hp : live p = none) : d.bytes (Function.update live p (some n)) = n + d.bytes live := by
  rw [bytes, liveBlocks_insert h1 h2, Finset.sum_insert (notMem_liveBlocks hp),
    Function.update_self, Option.getD_some, bytes]
  congr 1
  apply Finset.sum_congr rfl
  intro q hq
  have hne : q ≠ p := by
    rintro rfl
    exact notMem_liveBlocks hp hq
  rw [Function.update_of_ne hne]

theorem DomainInv.demand_le {L : Layout} {use : ℕ → Use} {s : State} {c : ℕ}
    (h : DomainInv L use live d s)
    (hc : (s.domains d).nextVirtAddr = d.virtBase + c * d.blockSize) : d.demand live ≤ c := by
  have hpos : 0 < d.blockSize := d.blockSize_ge.trans' (by norm_num)
  have hsub : d.liveBlocks live ⊆ (Finset.range c).image fun j => d.virtBase + j * d.blockSize := by
    intro p hp
    obtain ⟨⟨h1, h2⟩, hlive⟩ := SizeClass.mem_liveBlocks.mp hp
    obtain ⟨n, hn⟩ := Option.ne_none_iff_exists'.mp hlive
    obtain ⟨-, hend, hmod⟩ := (h.live p n hn h1 h2).1
    obtain ⟨j, hj⟩ := Nat.dvd_of_mod_eq_zero hmod
    refine Finset.mem_image.mpr ⟨j, Finset.mem_range.mpr ?_, ?_⟩
    · have hlt : d.blockSize * j < d.blockSize * c := by
        rw [Nat.mul_comm d.blockSize c]
        omega
      exact Nat.lt_of_mul_lt_mul_left hlt
    · rw [Nat.mul_comm]
      omega
  have hcard := (Finset.card_le_card hsub).trans Finset.card_image_le
  rwa [Finset.card_range] at hcard

end Demand

/-! ### Growth -/

section Growth

variable {L : Layout} {use use' : ℕ → Use} {live ranges ranges' : ℕ → Option ℕ} {s s' : State}
  {op : HeapOp} {a peak : ℕ} {d : SizeClass}

theorem SizeClass.perPage_mul (d : SizeClass) (c : ℕ) : c * 4096 = c * d.perPage * d.blockSize := by
  rw [Nat.mul_assoc, perPage, Nat.div_mul_cancel d.blockSize_dvd]

/-- A call grows a domain only by a page for a block that all of its pages have no room for. -/
theorem Effect.growth (he : Effect L use live ranges s op a use' ranges' s')
    (h' : HeapInv L use' (liveAfter live op a) ranges' s') (d : SizeClass) :
    (s'.domains d).nextVirtAddr = (s.domains d).nextVirtAddr ∨
      ((s'.domains d).nextVirtAddr = (s.domains d).nextVirtAddr + 4096 ∧
        (s.domains d).nextFreeBlock = 0 ∧
        d.demand (liveAfter live op a) = d.demand live + 1) := by
  cases he with
  | @popped _ c n _ _ _ hop ha hpop =>
      by_cases hc : d = c
      · subst hc
        rcases hpop.growth with ⟨-, -, -, -, -, hcursor⟩ | ⟨hnil, s₁, hx, -, -, -, hcursor⟩
        · exact Or.inl hcursor
        · obtain ⟨h1, h2⟩ := hpop.region (h'.dom d)
          refine Or.inr ⟨by rw [hcursor, hx.cursor], hnil, ?_⟩
          rw [liveAfter_small hop ha]
          exact SizeClass.demand_insert h1 h2 hpop.fresh
      · rw [hpop.others.domains d hc]
        exact Or.inl rfl
  | @pushed _ _ _ c _ _ _ _ hothers hcursor _ _ _ _ =>
      by_cases hc : d = c
      · subst hc
        exact Or.inl hcursor
      · rw [hothers.domains d hc]
        exact Or.inl rfl
  | carved _ hcarved =>
      rw [hcarved.vars.domains]
      exact Or.inl rfl
  | returned _ _ hret =>
      rw [hret.vars.domains]
      exact Or.inl rfl
  | wrote _ _ _ _ hst =>
      rw [hst.vars.domains]
      exact Or.inl rfl
  | refused => exact Or.inl rfl

/-- The domain has the premapped pages, or as many as its peak needs. -/
structure Fitted (d : SizeClass) (peak : ℕ) (c : ℕ) (s : State) : Prop where
  cursor : (s.domains d).nextVirtAddr = d.virtBase + c * 4096
  premapped : 256 ≤ c
  enough : peak ≤ c * d.perPage
  needed : 256 < c → (c - 1) * d.perPage < peak

/-- One call. -/
theorem Fitted.call {c : ℕ} (hf : Fitted d peak c s) (h : HeapInv L use live ranges s)
    (h' : HeapInv L use' (liveAfter live op a) ranges' s')
    (he : Effect L use live ranges s op a use' ranges' s') :
    ∃ c', Fitted d (max peak (d.demand (liveAfter live op a))) c' s' := by
  have hcursor := hf.cursor
  have hpremapped := hf.premapped
  have henough := hf.enough
  have hneeded := hf.needed
  rcases he.growth h' d with hsame | ⟨hmore, hnil, hdemand⟩
  · rw [hcursor] at hsame
    have hfit := (h'.dom d).demand_le (by rw [hsame, d.perPage_mul])
    exact ⟨c, hsame, hpremapped, max_le henough hfit,
      fun hc => (hneeded hc).trans_le (le_max_left _ _)⟩
  · have hmore' : (s'.domains d).nextVirtAddr = d.virtBase + (c + 1) * 4096 := by
      rw [hmore, hcursor]
      omega
    have hfit := (h'.dom d).demand_le (by rw [hmore', d.perPage_mul])
    -- every block of the old pages was live
    have hall : c * d.perPage ≤ d.demand live := by
      refine (h.dom d).blocks_le hnil (S := d.liveBlocks live) (fun p hp hlive => ?_) ?_
      · have hend := (h.dom d).cursor_le
        exact SizeClass.mem_liveBlocks.mpr ⟨⟨hp.1, hp.2.1.trans_le hend⟩, hlive⟩
      · rw [hcursor, d.perPage_mul]
    refine ⟨c + 1, hmore', by omega, max_le (henough.trans ?_) hfit, fun _ => ?_⟩
    · exact Nat.mul_le_mul_right _ (Nat.le_succ c)
    · rw [Nat.add_sub_cancel]
      omega

end Growth

/-! ### Runs -/

section Runs

variable {L : Layout} {calls : List HeapCall} {live : ℕ → Option ℕ} {s₀ s : State}

theorem peakOf_cons (f : (ℕ → Option ℕ) → ℕ) (c : HeapCall) (calls : List HeapCall)
    (live : ℕ → Option ℕ) : peakOf f (c :: calls) live = max (peakOf f calls c.live) (f live) := rfl

/-- `n` blocks of a class, taken one after another. -/
theorem Stocked.fill (d : SizeClass) (n : ℕ) {c w k : ℕ}
    (h : Stocked L (c + n) w (k + n * 3) noLive s₀) :
    ∃ calls live s, HeapTrace L (WithinLimits L) noLive s₀ calls live s ∧ Stocked L c w k live s ∧
      d.demand live = n ∧ d.bytes live = n * d.blockSize ∧
      d.peak calls live = n ∧ d.peakBytes calls live = n * d.blockSize := by
  induction n generalizing c k with
  | zero =>
      refine ⟨[], noLive, s₀, .nil, h, ?_⟩
      simp [SizeClass.peak, SizeClass.peakBytes, peakOf, SizeClass.demand, SizeClass.bytes,
        SizeClass.liveBlocks, noLive]
  | succ n ih =>
      obtain ⟨calls, live, s, trace, hs, hdemand, hbytes, hpeak, hpeakBytes⟩ :=
        ih (c := c + 1) (k := k + 3) (by convert h using 1 <;> omega)
      have hlegal : Legal live (.domainAlloc d) := trivial
      obtain ⟨a, s', hr, hG, ha, h'⟩ :=
        hs.call hlegal fun m hm => by cases hm
      have hop : (HeapOp.domainAlloc d).small = some (d, d.blockSize) := rfl
      obtain ⟨hnew, h1, h2⟩ := BoundedHeap.block_new (c := ⟨live, s, _, a, s'⟩) hs.heap
        hlegal hr hG hop
      have hlive : liveAfter live (.domainAlloc d) a = Function.update live a (some d.blockSize) :=
        liveAfter_small hop (ha d _ hop)
      have hdemand' : d.demand (liveAfter live (.domainAlloc d) a) = n + 1 := by
        rw [hlive, SizeClass.demand_insert h1 h2 hnew, hdemand]
      have hbytes' : d.bytes (liveAfter live (.domainAlloc d) a) = (n + 1) * d.blockSize := by
        rw [hlive, SizeClass.bytes_insert h1 h2 hnew, hbytes, Nat.succ_mul, Nat.add_comm]
      refine ⟨_, _, s', trace.snoc hlegal hr hG, h', hdemand', hbytes', ?_, ?_⟩
      · have hle : d.peak calls live ≤ n + 1 := hpeak.le.trans (Nat.le_succ n)
        rw [SizeClass.peak, peakOf_cons, hdemand']
        exact max_eq_right hle
      · have hle : d.peakBytes calls live ≤ (n + 1) * d.blockSize :=
          hpeakBytes.le.trans (Nat.mul_le_mul_right _ (Nat.le_succ n))
        rw [SizeClass.peakBytes, peakOf_cons, hbytes']
        exact max_eq_right hle

theorem Booted.fitted {use : ℕ → Use} {m : ℕ} (h : Booted L use m s) (d : SizeClass) :
    Fitted d (d.peak [] noLive) 256 s where
  cursor := h.cursor d
  premapped := le_rfl
  enough := by
    simp [SizeClass.peak, peakOf, SizeClass.demand, SizeClass.liveBlocks, noLive]
  needed hlt := absurd hlt (lt_irrefl _)

theorem HeapTrace.fitted {mem : ℕ → ℕ → Word} (hboot : L.boot (State.powerOn mem) = .ok () s₀)
    (trace : HeapTrace L (WithinLimits L) noLive s₀ calls live s) (d : SizeClass) :
    ∃ c, Fitted d (d.peak calls live) c s := by
  induction trace with
  | nil =>
      obtain ⟨use, m, t, hrun, hb⟩ := L.boot_spec mem
      rw [hboot] at hrun
      cases hrun
      exact ⟨256, hb.fitted d⟩
  | snoc trace hlegal hr hG ih =>
      obtain ⟨c, hf⟩ := ih
      obtain ⟨⟨use, ranges, h⟩, hlow, hfit⟩ := ((HeapRun.boot hboot).trace trace).withinLimits
      obtain ⟨use', ranges', h', he, -⟩ := h.callWithin hlow hfit hlegal hr hG
      rw [SizeClass.peak, peakOf_cons]
      exact hf.call h h' he

end Runs

/-! ### Requested bytes -/

/-- Blocks of the classes above 64 bytes are more than half in use. -/
def Snug (live : ℕ → Option ℕ) : Prop :=
  ∀ (d : SizeClass) p n, live p = some n → d.virtBase ≤ p → p < d.virtBase + 0x10000000 →
    d ≠ .heap64 → d.blockSize < 2 * n

section Bytes

variable {L : Layout} {use use' : ℕ → Use} {live ranges ranges' : ℕ → Option ℕ} {s s' s₀ : State}
  {op : HeapOp} {a n : ℕ} {d : SizeClass} {calls : List HeapCall}

theorem classOf_snug (h : classOf n = some d) (hd : d ≠ .heap64) : d.blockSize < 2 * n := by
  unfold classOf at h
  split_ifs at h <;> cases h <;> first | exact absurd rfl hd | (simp only [SizeClass.blockSize]; omega)

theorem HeapOp.small_snug (h : op.small = some (d, n)) (hd : d ≠ .heap64) :
    d.blockSize < 2 * n := by
  cases op with
  | domainAlloc c =>
      simp only [HeapOp.small, Option.some.injEq, Prod.mk.injEq] at h
      obtain ⟨rfl, rfl⟩ := h
      have hge := c.blockSize_ge
      omega
  | kmalloc size =>
      simp only [HeapOp.small, Option.map_eq_some_iff, Prod.mk.injEq] at h
      obtain ⟨c, hc, rfl, rfl⟩ := h
      exact classOf_snug hc hd
  | domainFree | kmallocLarge | kfreeLarge | kfree | write => cases h

theorem Snug.remove (h : Snug live) (p : ℕ) : Snug (Function.update live p none) :=
  fun d q n hq => h d q n (Extents.update_none hq).2

/-- One call. -/
theorem Snug.call (h : Snug live) (he : Effect L use live ranges s op a use' ranges' s')
    (h' : HeapInv L use' (liveAfter live op a) ranges' s') : Snug (liveAfter live op a) := by
  cases he with
  | @popped _ c n _ _ _ hop ha hpop =>
      obtain ⟨h1, h2⟩ := hpop.region (h'.dom c)
      rw [liveAfter_small hop ha]
      intro d p k hp h3 h4 hd
      rcases Extents.update_some hp with ⟨rfl, rfl⟩ | ⟨-, hp⟩
      · rw [region_unique h3 h4 h1 h2] at hd ⊢
        exact HeapOp.small_snug hop hd
      · exact h d p k hp h3 h4 hd
  | pushed hop => rw [liveAfter_freed hop]; exact h.remove _
  | carved hop hcarved =>
      have hlo := hcarved.lo
      rw [liveAfter_large hop (by omega)]
      intro d p k hp h3 h4 hd
      have hbase := d.virtBase_bounds
      rcases Extents.update_some hp with ⟨rfl, rfl⟩ | ⟨-, hp⟩
      · omega
      · exact h d p k hp h3 h4 hd
  | returned hop => rw [liveAfter_freed hop]; exact h.remove _
  | wrote => exact h
  | refused hop => rw [liveAfter_zero hop]; exact h

theorem Snug.demand_le (h : Snug live) (hd : d ≠ .heap64) :
    d.demand live * d.blockSize ≤ 2 * d.bytes live := by
  unfold SizeClass.demand SizeClass.bytes
  rw [Finset.mul_sum, ← smul_eq_mul, ← Finset.sum_const]
  apply Finset.sum_le_sum
  intro p hp
  obtain ⟨⟨h1, h2⟩, hlive⟩ := SizeClass.mem_liveBlocks.mp hp
  obtain ⟨n, hn⟩ := Option.ne_none_iff_exists'.mp hlive
  rw [hn]
  exact (h d p n hn h1 h2 hd).le

theorem HeapTrace.bytes {mem : ℕ → ℕ → Word} (hboot : L.boot (State.powerOn mem) = .ok () s₀)
    (trace : HeapTrace L (WithinLimits L) noLive s₀ calls live s) (hd : d ≠ .heap64) :
    Snug live ∧ d.peak calls live * d.blockSize ≤ 2 * d.peakBytes calls live := by
  induction trace with
  | nil =>
      have hsnug : Snug noLive := fun d p n hp => by cases hp
      refine ⟨hsnug, ?_⟩
      simp [SizeClass.peak, SizeClass.peakBytes, peakOf, hsnug.demand_le hd]
  | snoc trace hlegal hr hG ih =>
      obtain ⟨hsnug, hpeak⟩ := ih
      obtain ⟨⟨use, ranges, h⟩, hlow, hfit⟩ := ((HeapRun.boot hboot).trace trace).withinLimits
      obtain ⟨use', ranges', h', he, -⟩ := h.callWithin hlow hfit hlegal hr hG
      have hsnug' := hsnug.call he h'
      refine ⟨hsnug', ?_⟩
      have hdemand := hsnug'.demand_le hd
      unfold SizeClass.peak SizeClass.peakBytes at hpeak ⊢
      rw [peakOf_cons, peakOf_cons]
      rcases le_total (peakOf d.demand _ _) (d.demand _) with hle | hle
      · rw [max_eq_right hle]
        exact hdemand.trans (Nat.mul_le_mul_left 2 (le_max_right _ _))
      · rw [max_eq_left hle]
        exact hpeak.trans (Nat.mul_le_mul_left 2 (le_max_left _ _))

/-- After any run the memory of a size class above 64 bytes is its premapped megabyte, or less
than twice what clients had asked for at once, and a page. -/
theorem class_memory_le {mem : ℕ → ℕ → Word} (hboot : L.boot (State.powerOn mem) = .ok () s₀)
    (trace : HeapTrace L (WithinLimits L) noLive s₀ calls live s) (hd : d ≠ .heap64) :
    (s.domains d).nextVirtAddr - d.virtBase ≤
      max 0x100000 (2 * d.peakBytes calls live + 4095) := by
  obtain ⟨c, hf⟩ := trace.fitted hboot d
  have hbytes := (trace.bytes hboot hd).2
  rw [hf.cursor, Nat.add_sub_cancel_left]
  rcases hf.premapped.eq_or_lt with heq | hlt
  · rw [← heq]
    exact le_max_left _ _
  · refine le_trans ?_ (le_max_right _ _)
    have hneeded := Nat.mul_lt_mul_of_pos_right (hf.needed hlt)
      (d.blockSize_ge.trans_lt' (by norm_num))
    rw [← d.perPage_mul] at hneeded
    omega

end Bytes

/-- After 257 blocks of `heap_4k` its memory is behind the premapped megabyte. -/
theorem class_memory_le_heap4k : ∃ s₀ calls live s,
    Layout.lowest.boot (State.powerOn fun _ _ => 0) = .ok () s₀ ∧
    HeapTrace Layout.lowest (WithinLimits Layout.lowest) noLive s₀ calls live s ∧
    SizeClass.heap4k.peakBytes calls live = 257 * 4096 ∧
    0x100000 < (s.domains .heap4k).nextVirtAddr - SizeClass.heap4k.virtBase ∧
    (s.domains .heap4k).nextVirtAddr - SizeClass.heap4k.virtBase ≤ 2 * (257 * 4096) + 4095 := by
  obtain ⟨use, m, s₀, hboot, hb⟩ := Layout.lowest.boot_spec fun _ _ => 0
  obtain ⟨calls, live, s, trace, -, -, -, hpeak, hbytes⟩ := Stocked.fill .heap4k 257 (c := 0)
    (w := 0) (k := 0) (hb.stocked.mono (by norm_num) (by norm_num) (by norm_num))
  have hmemory := class_memory_le hboot trace (d := .heap4k) (by decide)
  obtain ⟨c, hc⟩ := trace.fitted hboot .heap4k
  have henough := hc.enough
  have hcursor := hc.cursor
  rw [hpeak, show SizeClass.heap4k.perPage = 1 from rfl, Nat.mul_one] at henough
  rw [hbytes, max_eq_right (by norm_num [SizeClass.blockSize])] at hmemory
  exact ⟨s₀, calls, live, s, hboot, trace, hbytes, by omega, hmemory⟩

end RaxzusHeap
