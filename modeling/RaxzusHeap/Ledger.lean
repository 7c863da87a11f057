import RaxzusHeap.LiveData
import RaxzusHeap.Memtest
import RaxzusHeap.ProcessList

/-! # What a command holds of the heap

`Held` describes the heap in the middle of a command: the blocks that were live before it are
untouched, and every other live block is either a root, which a variable of the command points
to, or hangs in an entry of one of its tables.  A command that holds nothing in the end has
changed nothing. -/

namespace RaxzusHeap

open Imperative

/-! ### Calls and stores of a client -/

section Client

variable {L : Layout} {use : ℕ → Use} {live ranges : ℕ → Option ℕ} {s s' : State} {a p n : ℕ}

theorem HeapInv.live_aligned (h : HeapInv L use live ranges s) (hp : live p = some n) :
    p % 4 = 0 := by
  rcases window_cases (h.heap p n hp) with hge | ⟨d, h1, h2⟩
  · have := (h.large.header p n hp hge).1
    omega
  · exact ((h.dom d).live p n hp h1 h2).1.aligned

/-- The size asked for a block of a size class does not matter to the invariant. -/
theorem HeapInv.resize (h : HeapInv L use live ranges s) {d : SizeClass} {k : ℕ}
    (hp : live p = some n) (h1 : d.virtBase ≤ p) (h2 : p < d.virtBase + 0x10000000)
    (hk : k ≤ d.blockSize) : HeapInv L use (Function.update live p (some k)) ranges s := by
  have hbase := d.virtBase_bounds
  refine ⟨h.pages, fun c => ?_, ?_, h.heap_update _ (by omega)⟩
  · by_cases hcd : c = d
    · subst hcd
      have hc := h.dom c
      refine ⟨hc.home, hc.blockSize, hc.perPage, hc.aligned, hc.cursor_ge, hc.cursor_le, hc.backed,
        ?_, fun b m hb h3 h4 => ?_⟩
      · obtain ⟨l, hl, hmem⟩ := hc.chain
        refine ⟨l, hl, fun b => ?_⟩
        rw [hmem b]
        by_cases hbp : b = p
        · subst hbp
          rw [Function.update_self, hp]
          simp
        · rw [Function.update_of_ne hbp]
      · cases Extents.update_some hb with
        | inl hbp => rw [hbp.1, hbp.2]; exact ⟨(hc.live p n hp h1 h2).1, hk⟩
        | inr hbp => exact hc.live b m hbp.2 h3 h4
    · have hdisj := SizeClass.region_disjoint hcd
      exact (h.dom c).congr (fun _ _ => rfl) rfl (fun _ _ _ => Iff.rfl) (fun _ _ _ => rfl)
        fun b h3 h4 => Function.update_of_ne (by omega) _ _
  · exact h.large.congr (fun _ _ => rfl) rfl (fun _ _ => Iff.rfl) (fun _ _ _ => rfl)
      (fun _ _ _ _ => rfl) fun q hq => Function.update_of_ne (by omega) _ _

namespace BoundedHeap

theorem live_lt (h : BoundedHeap L live s) (hp : live p = some n) : p < 2 ^ 32 := by
  obtain ⟨use, ranges, hh⟩ := h.heap
  have := hh.live_lt hp
  omega

theorem addr_lt (h : BoundedHeap L live s) (hp : live p = some n) {x : ℕ} (h1 : p ≤ x)
    (h2 : x < p + n) : x < 2 ^ 32 := by
  obtain ⟨use, ranges, hh⟩ := h.heap
  obtain ⟨f, hf⟩ := hh.backed_live hp (h.fit p n hp) h1 h2
  have := hh.pages.region f _ hf
  omega

theorem live_ne_zero (h : BoundedHeap L live s) (hp : live p = some n) : p ≠ 0 := by
  obtain ⟨use, ranges, hh⟩ := h.heap
  have := hh.heap p n hp
  omega

theorem live_aligned (h : BoundedHeap L live s) (hp : live p = some n) : p % 4 = 0 := by
  obtain ⟨use, ranges, hh⟩ := h.heap
  exact hh.live_aligned hp

theorem live_apart (h : BoundedHeap L live s) {q k x y : ℕ} (hp : live p = some n)
    (hq : live q = some k) (hne : p ≠ q) (hx1 : p ≤ x) (hx2 : x < p + n) (hy1 : q ≤ y)
    (hy2 : y < q + k) : x / 4 ≠ y / 4 := by
  obtain ⟨use, ranges, hh⟩ := h.heap
  exact hh.live_apart hp hq hne (h.fit p n hp) (h.fit q k hq) hx1 hx2 hy1 hy2

/-- `kmalloc` hands out a new block and disturbs no other. -/
theorem kmalloc (h : BoundedHeap L live s) (hr : L.kmalloc n s = .ok a s')
    (hG : WithinLimits L ⟨live, s, .kmalloc n, a, s'⟩) :
    a ≠ 0 ∧ live a = none ∧ BoundedHeap L (Function.update live a (some n)) s' ∧
      Quiet L live s s' := by
  obtain ⟨use, ranges, hh⟩ := h.heap
  obtain ⟨use', ranges', h', he, hfit⟩ := hh.callWithin (c := ⟨live, s, .kmalloc n, a, s'⟩) h.low
    h.fit trivial hr hG
  have hfresh : a ≠ 0 ∧ live a = none := by
    cases he with
    | popped _ ha hpop => exact ⟨ha, hpop.fresh⟩
    | pushed hop => cases hop
    | carved _ hc => exact ⟨by omega, hc.fresh⟩
    | returned hop => cases hop
    | refused hop =>
        simp only [HeapOp.large] at hop
        split_ifs at hop with hclass
        cases hop
        exact absurd (classOf_eq_none.mp hclass) (by norm_num)
  have hafter : liveAfter live (.kmalloc n) a = Function.update live a (some n) := if_neg hfresh.1
  have hquiet : Quiet L live s s' := fun p k hp hk x h1 h2 =>
    he.quiet hh h' (fun _ _ _ hop => by cases hop) hp hk (fun hop => by cases hop) h1 h2
  rw [hafter] at h' hfit
  exact ⟨hfresh.1, hfresh.2, ⟨⟨use', ranges', h'⟩, hG.frames, hfit⟩, hquiet⟩

theorem kfree (h : BoundedHeap L live s) (hp : live p = some n)
    (hr : L.heapCall (.kfree p) s = .ok a s') (hG : WithinLimits L ⟨live, s, .kfree p, a, s'⟩) :
    BoundedHeap L (Function.update live p none) s' ∧
      Quiet L (Function.update live p none) s s' := by
  obtain ⟨use, ranges, hh⟩ := h.heap
  obtain ⟨use', ranges', h', he, hfit⟩ := hh.callWithin (c := ⟨live, s, .kfree p, a, s'⟩) h.low
    h.fit ⟨n, hp⟩ hr hG
  refine ⟨⟨⟨use', ranges', h'⟩, hG.frames, hfit⟩, fun q k hq hk x h1 h2 => ?_⟩
  obtain ⟨hqp, hq'⟩ := Extents.update_none hq
  exact he.quiet hh h' (fun _ _ _ hop => by cases hop) hq' hk
    (fun hop => hqp (Option.some.inj hop).symm) h1 h2

theorem store (h : BoundedHeap L live s) {k v : ℕ} (hp : live p = some n) (hk : k < n)
    (hv : v < 2 ^ 32) :
    ∃ s', L.store (p + k) v s = .ok () s' ∧ BoundedHeap L live s' ∧
      ∀ q m, live q = some m → ∀ x, q ≤ x → x < q + m → s'.peek L.dirFrame x =
        if x / 4 = (p + k) / 4 then some v else s.peek L.dirFrame x := by
  obtain ⟨use, ranges, hh⟩ := h.heap
  obtain ⟨s', hrun, h', hst⟩ := hh.storeLive hp (h.fit p n hp) hk hv
  refine ⟨s', hrun, ⟨⟨use, ranges, h'⟩, fun f h1 h2 => ?_, h.fit⟩, fun q m hq x h1 h2 => ?_⟩
  · rw [hst.alloc]
    exact h.low f h1 h2
  · exact hst.peek x (hh.backed_live hq (h.fit q m hq) h1 h2)

theorem storeByte (h : BoundedHeap L live s) {k b : ℕ} (hp : live p = some n) (hk : k < n) :
    ∃ v s', L.storeByte (p + k) b s = .ok () s' ∧ BoundedHeap L live s' ∧
      ∀ q m, live q = some m → ∀ x, q ≤ x → x < q + m → s'.peek L.dirFrame x =
        if x / 4 = (p + k) / 4 then some v else s.peek L.dirFrame x := by
  obtain ⟨use, ranges, hh⟩ := h.heap
  obtain ⟨w, s', _, _, hrun, h', hst⟩ := hh.write (b := b) hp (h.fit p n hp) hk
  refine ⟨setByte w ((p + k) % 4) b, s', hrun, ⟨⟨use, ranges, h'⟩, fun f h1 h2 => ?_, h.fit⟩,
    fun q m hq x h1 h2 => ?_⟩
  · rw [hst.alloc]
    exact h.low f h1 h2
  · exact hst.peek x (hh.backed_live hq (h.fit q m hq) h1 h2)

end BoundedHeap

end Client

/-! ### The ledger -/

/-- The address of entry `i`. -/
def PtrTable.entry (c : PtrTable) (i : ℕ) : ℕ := c.base + 4 * i

/-- The number written into the block of entry `i`. -/
def PtrTable.mark (c : PtrTable) (i : ℕ) : ℕ := u32 ((i + 1) * c.factor)

/-- An entry of a table before its block is allocated, until it is freed, and after. -/
inductive EntryState where
  | empty
  | full
  | freed
deriving DecidableEq

/-- The blocks live now are those of `live₀`, the roots and the blocks in the full entries; each
is there once, and holds what was written into it. -/
structure Held (L : Layout) (live₀ : ℕ → Option ℕ) (roots : List ℕ) (tables : List PtrTable)
    (slot : PtrTable × ℕ → EntryState) (live : ℕ → Option ℕ) (s : State) : Prop where
  heap : BoundedHeap L live s
  kept : ∀ p n, live₀ p = some n → live p = some n
  root : ∀ r ∈ roots, live₀ r = none ∧ ∃ n, live r = some n
  nodup : roots.Nodup
  table : ∀ c ∈ tables, c.base ∈ roots ∧ live c.base = some (FRAG_N * 4)
  bases : ∀ c ∈ tables, ∀ c' ∈ tables, c.base = c'.base → c = c'
  dom : ∀ x, slot x ≠ .empty → x.1 ∈ tables ∧ x.2 < FRAG_N
  full : ∀ x, slot x = .full → 4 ≤ x.1.size ∧ ∃ p, s.peek L.dirFrame (x.1.entry x.2) = some p ∧
    live p = some x.1.size ∧ live₀ p = none ∧ p ∉ roots ∧
    s.peek L.dirFrame p = some (x.1.mark x.2)
  freed : ∀ x, slot x = .freed → s.peek L.dirFrame (x.1.entry x.2) = some 0
  inj : ∀ x y, slot x = .full → slot y = .full →
    s.peek L.dirFrame (x.1.entry x.2) = s.peek L.dirFrame (y.1.entry y.2) → x = y
  owned : ∀ p n, live p = some n → live₀ p = some n ∨ p ∈ roots ∨
    ∃ x, slot x = .full ∧ s.peek L.dirFrame (x.1.entry x.2) = some p

/-- Nothing in the tables. -/
def noSlots : PtrTable × ℕ → EntryState := fun _ => .empty

namespace Held

variable {L : Layout} {live₀ live live' : ℕ → Option ℕ} {roots : List ℕ} {tables : List PtrTable}
  {slot : PtrTable × ℕ → EntryState} {s s' : State} {a p n : ℕ} {x : PtrTable × ℕ}

theorem start (h : BoundedHeap L live s) : Held L live [] [] noSlots live s where
  heap := h
  kept := fun _ _ hp => hp
  root := fun r hr => by cases hr
  nodup := List.nodup_nil
  table := fun c hc => by cases hc
  bases := fun c hc => by cases hc
  dom := fun x hx => absurd rfl hx
  full := fun x hx => by cases hx
  freed := fun x hx => by cases hx
  inj := fun x y hx => by cases hx
  owned := fun p n hp => Or.inl hp

theorem done (h : Held L live₀ [] [] noSlots live s) : live = live₀ := by
  funext p
  cases hp : live p with
  | some n =>
      rcases h.owned p n hp with h0 | hr | ⟨x, hx, _⟩
      · exact h0.symm
      · cases hr
      · cases hx
  | none =>
      cases hp₀ : live₀ p with
      | none => rfl
      | some n => rw [h.kept p n hp₀] at hp; cases hp

theorem entry_mem (hx : x.2 < FRAG_N) :
    x.1.base ≤ x.1.entry x.2 ∧ x.1.entry x.2 < x.1.base + FRAG_N * 4 := by
  unfold PtrTable.entry
  omega

theorem entry_inj (h : Held L live₀ roots tables slot live s) {y : PtrTable × ℕ}
    (hx : x.1 ∈ tables) (hx' : x.2 < FRAG_N) (hy : y.1 ∈ tables) (hy' : y.2 < FRAG_N)
    (hword : x.1.entry x.2 / 4 = y.1.entry y.2 / 4) : x = y := by
  obtain ⟨_, hlx⟩ := h.table _ hx
  obtain ⟨_, hly⟩ := h.table _ hy
  have hc : x.1 = y.1 := by
    by_contra hne
    obtain ⟨h1, h2⟩ := entry_mem hx'
    obtain ⟨h3, h4⟩ := entry_mem hy'
    exact h.heap.live_apart hlx hly (fun hb => hne (h.bases _ hx _ hy hb)) h1 h2 h3 h4 hword
  have hal := h.heap.live_aligned hlx
  refine Prod.ext hc ?_
  rw [← hc] at hword
  unfold PtrTable.entry at hword
  omega

theorem base_ne (h : Held L live₀ roots tables slot live s) {c : PtrTable} (hc : c ∈ tables)
    (hp : p ∉ roots) : c.base ≠ p := fun hb => hp (hb ▸ (h.table c hc).1)

/-- The ledger rests on the words of the entries and of their blocks. -/
theorem congr (h : Held L live₀ roots tables slot live s) (h' : BoundedHeap L live s')
    (hentry : ∀ x, slot x ≠ .empty →
      s'.peek L.dirFrame (x.1.entry x.2) = s.peek L.dirFrame (x.1.entry x.2))
    (hblock : ∀ x p, slot x = .full → s.peek L.dirFrame (x.1.entry x.2) = some p →
      live p = some x.1.size → 4 ≤ x.1.size → p ∉ roots →
      s'.peek L.dirFrame p = s.peek L.dirFrame p) :
    Held L live₀ roots tables slot live s' where
  heap := h'
  kept := h.kept
  root := h.root
  nodup := h.nodup
  table := h.table
  bases := h.bases
  dom := h.dom
  full := fun x hx => by
    obtain ⟨hsize, p, hp, hlive, h0, hroots, hmark⟩ := h.full x hx
    refine ⟨hsize, p, ?_, hlive, h0, hroots, ?_⟩
    · rw [hentry x (by rw [hx]; simp), hp]
    · rw [hblock x p hx hp hlive hsize hroots, hmark]
  freed := fun x hx => by rw [hentry x (by rw [hx]; simp), h.freed x hx]
  inj := fun x y hx hy => by
    rw [hentry x (by rw [hx]; simp), hentry y (by rw [hy]; simp)]
    exact h.inj x y hx hy
  owned := fun p n hp => by
    rcases h.owned p n hp with h0 | hr | ⟨x, hx, hpx⟩
    · exact Or.inl h0
    · exact Or.inr (Or.inl hr)
    · exact Or.inr (Or.inr ⟨x, hx, by rw [hentry x (by rw [hx]; simp), hpx]⟩)

/-! ### Roots -/

/-- A new block is a root. -/
theorem kmalloc (h : Held L live₀ roots tables slot live s) (hr : L.kmalloc n s = .ok a s')
    (hG : WithinLimits L ⟨live, s, .kmalloc n, a, s'⟩) :
    a ≠ 0 ∧ (∀ c ∈ tables, c.base ≠ a) ∧
      Held L live₀ (a :: roots) tables slot (Function.update live a (some n)) s' := by
  obtain ⟨ha, hfresh, h', hquiet⟩ := h.heap.kmalloc hr hG
  have hne : ∀ {q k}, live q = some k → q ≠ a := fun hq he => by rw [he, hfresh] at hq; cases hq
  have hold : ∀ {q k}, live q = some k → Function.update live a (some n) q = some k := fun hq => by
    rw [Function.update_of_ne (hne hq), hq]
  have hentry : ∀ x, slot x ≠ .empty →
      s'.peek L.dirFrame (x.1.entry x.2) = s.peek L.dirFrame (x.1.entry x.2) := fun x hx => by
    obtain ⟨hc, hi⟩ := h.dom x hx
    obtain ⟨_, hl⟩ := h.table _ hc
    obtain ⟨h1, h2⟩ := entry_mem hi
    exact hquiet _ _ hl (h.heap.fit _ _ hl) _ h1 h2
  refine ⟨ha, fun c hc => hne (h.table c hc).2, h', fun q k hq => hold (h.kept q k hq),
    fun r hr' => ?_, ?_, fun c hc => ?_, h.bases, h.dom, fun x hx => ?_, fun x hx => ?_,
    fun x y hx hy => ?_, fun q k hq => ?_⟩
  · rcases List.mem_cons.mp hr' with rfl | hr'
    · refine ⟨?_, n, Function.update_self ..⟩
      cases hr₀ : live₀ r with
      | none => rfl
      | some k => rw [h.kept r k hr₀] at hfresh; cases hfresh
    · obtain ⟨h0, k, hk⟩ := h.root r hr'
      exact ⟨h0, k, hold hk⟩
  · refine List.nodup_cons.mpr ⟨fun hmem => ?_, h.nodup⟩
    obtain ⟨_, k, hk⟩ := h.root a hmem
    exact hne hk rfl
  · obtain ⟨hmem, hl⟩ := h.table c hc
    exact ⟨List.mem_cons_of_mem _ hmem, hold hl⟩
  · obtain ⟨hsize, p, hp, hlive, h0, hroots, hmark⟩ := h.full x hx
    refine ⟨hsize, p, ?_, hold hlive, h0, ?_, ?_⟩
    · rw [hentry x (by rw [hx]; simp), hp]
    · exact fun hmem => (List.mem_cons.mp hmem).elim (hne hlive) hroots
    · rw [hquiet p _ hlive (h.heap.fit _ _ hlive) p le_rfl (by omega), hmark]
  · rw [hentry x (by rw [hx]; simp), h.freed x hx]
  · rw [hentry x (by rw [hx]; simp), hentry y (by rw [hy]; simp)]
    exact h.inj x y hx hy
  · cases Extents.update_some hq with
    | inl hqa => exact Or.inr (Or.inl (by rw [hqa.1]; exact List.mem_cons_self))
    | inr hqa =>
        rcases h.owned q k hqa.2 with h0 | hr' | ⟨x, hx, hpx⟩
        · exact Or.inl h0
        · exact Or.inr (Or.inl (List.mem_cons_of_mem _ hr'))
        · exact Or.inr (Or.inr ⟨x, hx, by rw [hentry x (by rw [hx]; simp), hpx]⟩)

/-- A root that is no table is released. -/
theorem kfree (l₁ l₂ : List ℕ) (h : Held L live₀ (l₁ ++ p :: l₂) tables slot live s)
    (hbase : ∀ c ∈ tables, c.base ≠ p) (hr : L.heapCall (.kfree p) s = .ok a s')
    (hG : WithinLimits L ⟨live, s, .kfree p, a, s'⟩) :
    Held L live₀ (l₁ ++ l₂) tables slot (Function.update live p none) s' := by
  have hmemp : p ∈ l₁ ++ p :: l₂ := by simp
  obtain ⟨h0p, n, hp⟩ := h.root p hmemp
  obtain ⟨h', hquiet⟩ := h.heap.kfree hp hr hG
  have hsub : ∀ r, r ∈ l₁ ++ l₂ → r ∈ l₁ ++ p :: l₂ := fun r hr' => by
    rcases List.mem_append.mp hr' with h1 | h1
    · exact List.mem_append_left _ h1
    · exact List.mem_append_right _ (List.mem_cons_of_mem _ h1)
  have hnodup := List.nodup_middle.mp h.nodup
  have hold : ∀ {q k}, live q = some k → q ≠ p → Function.update live p none q = some k :=
    fun hq hne => by rw [Function.update_of_ne hne, hq]
  have hentry : ∀ x, slot x ≠ .empty →
      s'.peek L.dirFrame (x.1.entry x.2) = s.peek L.dirFrame (x.1.entry x.2) := fun x hx => by
    obtain ⟨hc, hi⟩ := h.dom x hx
    obtain ⟨_, hl⟩ := h.table _ hc
    obtain ⟨h1, h2⟩ := entry_mem hi
    exact hquiet _ _ (hold hl (hbase _ hc)) (h.heap.fit _ _ hl) _ h1 h2
  refine ⟨h', fun q k hq => hold (h.kept q k hq) ?_, fun r hr' => ?_, (List.nodup_cons.mp hnodup).2,
    fun c hc => ?_, h.bases, h.dom, fun x hx => ?_, fun x hx => ?_, fun x y hx hy => ?_,
    fun q k hq => ?_⟩
  · rintro rfl
    rw [h0p] at hq
    cases hq
  · obtain ⟨h0, k, hk⟩ := h.root r (hsub r hr')
    exact ⟨h0, k, hold hk fun he => (List.nodup_cons.mp hnodup).1 (he ▸ hr')⟩
  · obtain ⟨hmem, hl⟩ := h.table c hc
    refine ⟨?_, hold hl (hbase c hc)⟩
    rcases List.mem_append.mp hmem with h1 | h1
    · exact List.mem_append_left _ h1
    · exact List.mem_append_right _ ((List.mem_cons.mp h1).resolve_left (hbase c hc))
  · obtain ⟨hsize, q, hq, hlive, h0, hroots, hmark⟩ := h.full x hx
    have hne : q ≠ p := fun he => hroots (he ▸ hmemp)
    refine ⟨hsize, q, ?_, hold hlive hne, h0, fun hmem => hroots (hsub q hmem), ?_⟩
    · rw [hentry x (by rw [hx]; simp), hq]
    · rw [hquiet q _ (hold hlive hne) (h.heap.fit _ _ hlive) q le_rfl (by omega), hmark]
  · rw [hentry x (by rw [hx]; simp), h.freed x hx]
  · rw [hentry x (by rw [hx]; simp), hentry y (by rw [hy]; simp)]
    exact h.inj x y hx hy
  · obtain ⟨hqp, hq'⟩ := Extents.update_none hq
    rcases h.owned q k hq' with h0 | hr' | ⟨x, hx, hpx⟩
    · exact Or.inl h0
    · refine Or.inr (Or.inl ?_)
      rcases List.mem_append.mp hr' with h1 | h1
      · exact List.mem_append_left _ h1
      · exact List.mem_append_right _ ((List.mem_cons.mp h1).resolve_left hqp)
    · exact Or.inr (Or.inr ⟨x, hx, by rw [hentry x (by rw [hx]; simp), hpx]⟩)

/-! ### Stores -/

/-- A word that belongs to neither an entry nor the start of a block in an entry. -/
theorem store (h : Held L live₀ roots tables slot live s) {k v : ℕ} (hp : live p = some n)
    (hk : k < n) (hv : v < 2 ^ 32)
    (hentry : ∀ x, slot x ≠ .empty → x.1.entry x.2 / 4 ≠ (p + k) / 4)
    (hblock : ∀ x q, slot x = .full → live q = some x.1.size → 4 ≤ x.1.size → q ∉ roots →
      q / 4 ≠ (p + k) / 4) :
    ∃ s', L.store (p + k) v s = .ok () s' ∧ Held L live₀ roots tables slot live s' ∧
      ∀ q m, live q = some m → ∀ x, q ≤ x → x < q + m → s'.peek L.dirFrame x =
        if x / 4 = (p + k) / 4 then some v else s.peek L.dirFrame x := by
  obtain ⟨s', hrun, h', hpeek⟩ := h.heap.store hp hk hv
  refine ⟨s', hrun, h.congr h' (fun x hx => ?_) (fun x q hx hq hlive hsize hroots => ?_), hpeek⟩
  · obtain ⟨hc, hi⟩ := h.dom x hx
    obtain ⟨h1, h2⟩ := entry_mem hi
    rw [hpeek _ _ (h.table _ hc).2 _ h1 h2, if_neg (hentry x hx)]
  · rw [hpeek q _ hlive q le_rfl (by omega), if_neg (hblock x q hx hlive hsize hroots)]

/-- A root that is no table shares no word with an entry or a block in an entry. -/
theorem root_apart (h : Held L live₀ roots tables slot live s) {k : ℕ} (hroot : p ∈ roots)
    (hbase : ∀ c ∈ tables, c.base ≠ p) (hp : live p = some n) (hk : k < n) :
    (∀ x, slot x ≠ .empty → x.1.entry x.2 / 4 ≠ (p + k) / 4) ∧
      ∀ x q, slot x = .full → live q = some x.1.size → 4 ≤ x.1.size → q ∉ roots →
        q / 4 ≠ (p + k) / 4 := by
  refine ⟨fun x hx => ?_, fun x q _ hq hsize hroots => ?_⟩
  · obtain ⟨hc, hi⟩ := h.dom x hx
    obtain ⟨h1, h2⟩ := entry_mem hi
    exact h.heap.live_apart (h.table _ hc).2 hp (hbase _ hc) h1 h2 (by omega) (by omega)
  · exact h.heap.live_apart hq hp (fun he => hroots (he ▸ hroot)) le_rfl (by omega) (by omega)
      (by omega)

/-- An empty entry shares no word with another entry or a block in an entry. -/
theorem entry_apart (h : Held L live₀ roots tables slot live s) (hx : x.1 ∈ tables)
    (hi : x.2 < FRAG_N) (hempty : slot x = .empty) :
    (∀ y, slot y ≠ .empty → y.1.entry y.2 / 4 ≠ x.1.entry x.2 / 4) ∧
      ∀ y q, slot y = .full → live q = some y.1.size → 4 ≤ y.1.size → q ∉ roots →
        q / 4 ≠ x.1.entry x.2 / 4 := by
  obtain ⟨h1, h2⟩ := entry_mem hi
  refine ⟨fun y hy hword => ?_, fun y q _ hq hsize hroots => ?_⟩
  · obtain ⟨hc, hj⟩ := h.dom y hy
    rw [h.entry_inj hc hj hx hi hword] at hy
    exact hy hempty
  · exact h.heap.live_apart hq (h.table _ hx).2 (Ne.symm (h.base_ne hx hroots)) le_rfl (by omega)
      h1 h2

theorem storeRoot (h : Held L live₀ roots tables slot live s) {k v : ℕ} (hroot : p ∈ roots)
    (hbase : ∀ c ∈ tables, c.base ≠ p) (hp : live p = some n) (hk : k < n) (hv : v < 2 ^ 32) :
    ∃ s', L.store (p + k) v s = .ok () s' ∧ Held L live₀ roots tables slot live s' ∧
      ∀ q m, live q = some m → ∀ x, q ≤ x → x < q + m → s'.peek L.dirFrame x =
        if x / 4 = (p + k) / 4 then some v else s.peek L.dirFrame x := by
  obtain ⟨h1, h2⟩ := h.root_apart hroot hbase hp hk
  exact h.store hp hk hv h1 h2

theorem storeByteRoot (h : Held L live₀ roots tables slot live s) {k b : ℕ} (hroot : p ∈ roots)
    (hbase : ∀ c ∈ tables, c.base ≠ p) (hp : live p = some n) (hk : k < n) :
    ∃ s', L.storeByte (p + k) b s = .ok () s' ∧ Held L live₀ roots tables slot live s' := by
  obtain ⟨h1, h2⟩ := h.root_apart hroot hbase hp hk
  obtain ⟨v, s', hrun, h', hpeek⟩ := h.heap.storeByte (b := b) hp hk
  refine ⟨s', hrun, h.congr h' (fun x hx => ?_) (fun x q hx hq hlive hsize hroots => ?_)⟩
  · obtain ⟨hc, hi⟩ := h.dom x hx
    obtain ⟨h3, h4⟩ := entry_mem hi
    rw [hpeek _ _ (h.table _ hc).2 _ h3 h4, if_neg (h1 x hx)]
  · rw [hpeek q _ hlive q le_rfl (by omega), if_neg (h2 x q hx hlive hsize hroots)]

theorem storeEntry (h : Held L live₀ roots tables slot live s) {v : ℕ} (hx : x.1 ∈ tables)
    (hi : x.2 < FRAG_N) (hempty : slot x = .empty) (hv : v < 2 ^ 32) :
    ∃ s', L.store (x.1.entry x.2) v s = .ok () s' ∧ Held L live₀ roots tables slot live s' ∧
      s'.peek L.dirFrame (x.1.entry x.2) = some v := by
  obtain ⟨h1, h2⟩ := h.entry_apart hx hi hempty
  obtain ⟨h3, h4⟩ := entry_mem hi
  have hbase := (h.table _ hx).2
  obtain ⟨s', hrun, h', hpeek⟩ := h.store (k := 4 * x.2) hbase (by unfold PtrTable.entry at h4; omega)
    hv h1 h2
  refine ⟨s', hrun, h', ?_⟩
  rw [hpeek _ _ hbase _ h3 h4]
  exact if_pos rfl

/-! ### Entries -/

/-- A root goes into an empty entry. -/
theorem adopt (h : Held L live₀ (p :: roots) tables slot live s) (hx : x.1 ∈ tables)
    (hi : x.2 < FRAG_N) (hempty : slot x = .empty) (hsize : 4 ≤ x.1.size)
    (hbase : ∀ c ∈ tables, c.base ≠ p) (hp : live p = some x.1.size)
    (hentry : s.peek L.dirFrame (x.1.entry x.2) = some p)
    (hmark : s.peek L.dirFrame p = some (x.1.mark x.2)) :
    Held L live₀ roots tables (Function.update slot x .full) live s := by
  obtain ⟨hnotin, hnodup⟩ := List.nodup_cons.mp h.nodup
  have hother : ∀ {y e}, Function.update slot x .full y = e → e ≠ .full → slot y = e ∧ y ≠ x := by
    intro y e hy he
    by_cases hyx : y = x
    · rw [hyx, Function.update_self] at hy
      exact absurd hy.symm he
    · rw [Function.update_of_ne hyx] at hy
      exact ⟨hy, hyx⟩
  have hfull : ∀ y, Function.update slot x .full y = .full → y = x ∨ slot y = .full := by
    intro y hy
    by_cases hyx : y = x
    · exact Or.inl hyx
    · rw [Function.update_of_ne hyx] at hy
      exact Or.inr hy
  have hnew : ∀ y, slot y = .full →
      s.peek L.dirFrame (y.1.entry y.2) ≠ s.peek L.dirFrame (x.1.entry x.2) := by
    intro y hy heq
    obtain ⟨_, q, hq, _, _, hroots, _⟩ := h.full y hy
    rw [hq, hentry] at heq
    exact hroots (by rw [Option.some.inj heq]; exact List.mem_cons_self)
  refine ⟨h.heap, h.kept, fun r hr => h.root r (List.mem_cons_of_mem _ hr), hnodup, fun c hc => ?_,
    h.bases, fun y hy => ?_, fun y hy => ?_, fun y hy => ?_, fun y z hy hz heq => ?_,
    fun q k hq => ?_⟩
  · obtain ⟨hmem, hl⟩ := h.table c hc
    exact ⟨(List.mem_cons.mp hmem).resolve_left (hbase c hc), hl⟩
  · by_cases hyx : y = x
    · rw [hyx]; exact ⟨hx, hi⟩
    · rw [Function.update_of_ne hyx] at hy
      exact h.dom y hy
  · rcases hfull y hy with rfl | hy
    · exact ⟨hsize, p, hentry, hp, (h.root p List.mem_cons_self).1, hnotin, hmark⟩
    · obtain ⟨hsz, q, hq, hlive, h0, hroots, hm⟩ := h.full y hy
      exact ⟨hsz, q, hq, hlive, h0, fun hr => hroots (List.mem_cons_of_mem _ hr), hm⟩
  · exact h.freed y (hother hy (by simp)).1
  · rcases hfull y hy with hyx | hy' <;> rcases hfull z hz with hzx | hz'
    · rw [hyx, hzx]
    · exact absurd (by rw [← heq, hyx]) (hnew z hz')
    · exact absurd (by rw [heq, hzx]) (hnew y hy')
    · exact h.inj y z hy' hz' heq
  · rcases h.owned q k hq with h0 | hr | ⟨y, hy, hqy⟩
    · exact Or.inl h0
    · rcases List.mem_cons.mp hr with rfl | hr
      · exact Or.inr (Or.inr ⟨x, Function.update_self .., hentry⟩)
      · exact Or.inr (Or.inl hr)
    · refine Or.inr (Or.inr ⟨y, ?_, hqy⟩)
      rw [Function.update_of_ne (by rintro rfl; rw [hempty] at hy; cases hy), hy]

/-- The block of a full entry becomes a root. -/
theorem release (h : Held L live₀ roots tables slot live s) (hx : slot x = .full) :
    ∃ p, s.peek L.dirFrame (x.1.entry x.2) = some p ∧ p ∉ roots ∧
      Held L live₀ (p :: roots) tables (Function.update slot x .empty) live s := by
  obtain ⟨_, p, hp, hlive, h0, hroots, _⟩ := h.full x hx
  have hother : ∀ {y e}, Function.update slot x .empty y = e → e ≠ .empty →
      slot y = e ∧ y ≠ x := by
    intro y e hy he
    by_cases hyx : y = x
    · rw [hyx, Function.update_self] at hy
      exact absurd hy.symm he
    · rw [Function.update_of_ne hyx] at hy
      exact ⟨hy, hyx⟩
  refine ⟨p, hp, hroots, h.heap, h.kept, fun r hr => ?_, List.nodup_cons.mpr ⟨hroots, h.nodup⟩,
    fun c hc => ?_, h.bases, fun y hy => ?_, fun y hy => ?_, fun y hy => ?_,
    fun y z hy hz heq => ?_, fun q k hq => ?_⟩
  · rcases List.mem_cons.mp hr with rfl | hr
    · exact ⟨h0, _, hlive⟩
    · exact h.root r hr
  · obtain ⟨hmem, hl⟩ := h.table c hc
    exact ⟨List.mem_cons_of_mem _ hmem, hl⟩
  · exact h.dom y (by rw [(hother rfl hy).1]; exact hy)
  · obtain ⟨hyf, hyx⟩ := hother hy (by simp)
    obtain ⟨hsize, q, hq, hl, h0q, hqroots, hmark⟩ := h.full y hyf
    refine ⟨hsize, q, hq, hl, h0q, fun hmem => ?_, hmark⟩
    rcases List.mem_cons.mp hmem with rfl | hmem
    · exact hyx (h.inj y x hyf hx (hq.trans hp.symm))
    · exact hqroots hmem
  · exact h.freed y (hother hy (by simp)).1
  · exact h.inj y z (hother hy (by simp)).1 (hother hz (by simp)).1 heq
  · rcases h.owned q k hq with h0q | hr | ⟨y, hy, hqy⟩
    · exact Or.inl h0q
    · exact Or.inr (Or.inl (List.mem_cons_of_mem _ hr))
    · by_cases hyx : y = x
      · rw [hyx, hp] at hqy
        exact Or.inr (Or.inl (by rw [Option.some.inj hqy]; exact List.mem_cons_self))
      · exact Or.inr (Or.inr ⟨y, by rw [Function.update_of_ne hyx, hy], hqy⟩)

/-- An entry that holds no block changes its state. -/
theorem relabel (h : Held L live₀ roots tables slot live s) {e : EntryState} (hx : slot x ≠ .full)
    (he : e ≠ .full) (hdom : e ≠ .empty → x.1 ∈ tables ∧ x.2 < FRAG_N)
    (hfreed : e = .freed → s.peek L.dirFrame (x.1.entry x.2) = some 0) :
    Held L live₀ roots tables (Function.update slot x e) live s := by
  have hfull : ∀ y, Function.update slot x e y = .full ↔ slot y = .full := by
    intro y
    by_cases hyx : y = x
    · rw [hyx, Function.update_self]
      exact iff_of_false he hx
    · rw [Function.update_of_ne hyx]
  refine ⟨h.heap, h.kept, h.root, h.nodup, h.table, h.bases, fun y hy => ?_,
    fun y hy => h.full y ((hfull y).mp hy), fun y hy => ?_,
    fun y z hy hz => h.inj y z ((hfull y).mp hy) ((hfull z).mp hz), fun q k hq => ?_⟩
  · by_cases hyx : y = x
    · rw [hyx, Function.update_self] at hy
      rw [hyx]
      exact hdom hy
    · rw [Function.update_of_ne hyx] at hy
      exact h.dom y hy
  · by_cases hyx : y = x
    · rw [hyx, Function.update_self] at hy
      rw [hyx]
      exact hfreed hy
    · rw [Function.update_of_ne hyx] at hy
      exact h.freed y hy
  · rcases h.owned q k hq with h0 | hr | ⟨y, hy, hqy⟩
    · exact Or.inl h0
    · exact Or.inr (Or.inl hr)
    · exact Or.inr (Or.inr ⟨y, (hfull y).mpr hy, hqy⟩)

/-! ### Tables -/

theorem openTables (h : Held L live₀ roots [] noSlots live s)
    (htable : ∀ c ∈ tables, c.base ∈ roots ∧ live c.base = some (FRAG_N * 4))
    (hbases : ∀ c ∈ tables, ∀ c' ∈ tables, c.base = c'.base → c = c') :
    Held L live₀ roots tables noSlots live s where
  heap := h.heap
  kept := h.kept
  root := h.root
  nodup := h.nodup
  table := htable
  bases := hbases
  dom := fun x hx => absurd rfl hx
  full := fun x hx => by cases hx
  freed := fun x hx => by cases hx
  inj := fun x y hx => by cases hx
  owned := h.owned

theorem closeTables (h : Held L live₀ roots tables slot live s) (hnone : ∀ x, slot x ≠ .full) :
    Held L live₀ roots [] noSlots live s where
  heap := h.heap
  kept := h.kept
  root := h.root
  nodup := h.nodup
  table := fun c hc => by cases hc
  bases := fun c hc => by cases hc
  dom := fun x hx => absurd rfl hx
  full := fun x hx => by cases hx
  freed := fun x hx => by cases hx
  inj := fun x y hx => by cases hx
  owned := fun p n hp => by
    rcases h.owned p n hp with h0 | hr | ⟨x, hx, _⟩
    · exact Or.inl h0
    · exact Or.inr (Or.inl hr)
    · exact absurd hx (hnone x)

end Held

end RaxzusHeap
