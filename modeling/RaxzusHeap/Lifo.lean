import RaxzusHeap.ClassHistory
import RaxzusHeap.Progress

/-! # Last freed, first allocated

The free list of a size class is a stack on top of an endless supply: the blocks that were
freed, the last one first, and under them the blocks that were never handed out, in the order
in which `init_heap_domain` and the slow path of `heap_domain_alloc` have linked them
(`freshBlock`).  `classServer_stack` is the simulation between the two, and
`kmalloc_last_freed` what it says about the pointers of a run with requests of all sizes. -/

namespace RaxzusHeap

open Imperative FirstFit Linked Replay

/-- The `k`-th block of a class in the order of the supply: the premapped pages downwards, then
the new pages upwards, and the blocks of a page upwards. -/
def freshBlock (d : SizeClass) (k : ℕ) : ℕ :=
  let perPage := 4096 / d.blockSize
  let page := if k / perPage < PREMAP_PAGES then PREMAP_PAGES - 1 - k / perPage else k / perPage
  d.virtBase + page * 4096 + k % perPage * d.blockSize

/-- The blocks number `k` to `k + n - 1` of the supply. -/
def freshBlocks (d : SizeClass) (k n : ℕ) : List ℕ := (List.range' k n).map (freshBlock d)

section Supply

variable {d : SizeClass}

theorem freshBlocks_append (d : SizeClass) (k m n : ℕ) :
    freshBlocks d k m ++ freshBlocks d (k + m) n = freshBlocks d k (m + n) := by
  simp [freshBlocks, ← List.map_append]

theorem pageBlocks_fresh (d : SizeClass) {page i : ℕ}
    (hpage : page = if i < PREMAP_PAGES then PREMAP_PAGES - 1 - i else i) :
    pageBlocks (d.virtBase / 4096 + page) d.blockSize =
      freshBlocks d (i * (4096 / d.blockSize)) (4096 / d.blockSize) := by
  have hpos : 0 < 4096 / d.blockSize :=
    div_blockSize_pos (d.blockSize_ge.trans_lt' (by norm_num)) d.blockSize_dvd
  have hbase := d.virtBase_mod
  unfold pageBlocks freshBlocks
  rw [Nat.sub_add_cancel hpos, List.range'_eq_map_range, List.range'_eq_map_range, List.map_map,
    List.map_map]
  apply List.map_congr_left
  intro j hj
  have hj := List.mem_range.mp hj
  have hdiv : (i * (4096 / d.blockSize) + j) / (4096 / d.blockSize) = i := by
    rw [Nat.mul_comm, Nat.mul_add_div hpos, Nat.div_eq_of_lt hj, Nat.add_zero]
  have hmod : (i * (4096 / d.blockSize) + j) % (4096 / d.blockSize) = j := by
    rw [Nat.mul_comm, Nat.mul_add_mod, Nat.mod_eq_of_lt hj]
  simp only [Function.comp_apply, freshBlock, hdiv, hmod, Nat.zero_add, ← hpage, Nat.add_mul]
  omega

theorem premappedBlocks_fresh (d : SizeClass) {k : ℕ} (hk : k ≤ PREMAP_PAGES) :
    premappedBlocks d k = freshBlocks d ((PREMAP_PAGES - k) * (4096 / d.blockSize))
      (k * (4096 / d.blockSize)) := by
  induction k with
  | zero => simp [premappedBlocks, freshBlocks]
  | succ k ih =>
      have hpage : k = if PREMAP_PAGES - (k + 1) < PREMAP_PAGES then
          PREMAP_PAGES - 1 - (PREMAP_PAGES - (k + 1)) else PREMAP_PAGES - (k + 1) := by
        rw [if_pos (by omega)]
        omega
      have hnext : (PREMAP_PAGES - k) * (4096 / d.blockSize) =
          (PREMAP_PAGES - (k + 1)) * (4096 / d.blockSize) + 4096 / d.blockSize := by
        rw [← Nat.succ_mul]
        congr 1
        omega
      rw [premappedBlocks, ih (by omega), pageBlocks_fresh d hpage, hnext, freshBlocks_append,
        Nat.succ_mul, Nat.add_comm (k * _)]

theorem freshBlocks_succ (d : SizeClass) (k n : ℕ) :
    freshBlocks d k (n + 1) = freshBlock d k :: freshBlocks d (k + 1) n := by
  simp [freshBlocks, List.range'_succ]

end Supply

/-! ### The simulation -/

/-- The free list is the stack, on top of what is left of the supply in the `c` pages. -/
structure OnSupply (d : SizeClass) (c : ℕ) (v : ClassState) (w : Stack ℕ) : Prop where
  pages : PREMAP_PAGES ≤ c
  cursor : v.cursor = d.virtBase + c * 4096
  used : w.used ≤ c * (4096 / d.blockSize)
  free : v.free = w.returned ++ freshBlocks d w.used (c * (4096 / d.blockSize) - w.used)

namespace OnSupply

variable {d : SizeClass} {c : ℕ} {v : ClassState} {w : Stack ℕ}

theorem start (d : SizeClass) :
    OnSupply d PREMAP_PAGES (classServer d).start (stackServer (freshBlock d)).start where
  pages := le_rfl
  cursor := rfl
  used := Nat.zero_le _
  free := by
    have hall := premappedBlocks_fresh d le_rfl
    rw [Nat.sub_self, Nat.zero_mul] at hall
    exact hall

theorem pageBlocks_cursor (h : OnSupply d c v w) : pageBlocks (v.cursor / 4096) d.blockSize =
    freshBlocks d (c * (4096 / d.blockSize)) (4096 / d.blockSize) := by
  have hpages := h.pages
  have hbase := d.virtBase_mod
  have hpage : v.cursor / 4096 = d.virtBase / 4096 + c := by
    rw [h.cursor]
    omega
  rw [hpage]
  apply pageBlocks_fresh
  rw [if_neg (by omega)]

/-- What comes next, and what is left then. -/
theorem give (h : OnSupply d c v w) :
    (classServer d).next v = (stackServer (freshBlock d)).next w ∧
      ∃ c', OnSupply d c' ((classServer d).give v) ((stackServer (freshBlock d)).give w) := by
  have hpos : 0 < 4096 / d.blockSize :=
    div_blockSize_pos (d.blockSize_ge.trans_lt' (by norm_num)) d.blockSize_dvd
  have hused := h.used
  have hfree := h.free
  obtain ⟨returned, used⟩ := w
  dsimp only at hused hfree
  cases returned with
  | cons p rest =>
      -- a block that was freed
      have hne : v.free ≠ [] := by simp [hfree]
      have hnext : nextBlocks d v.cursor v.free =
          p :: (rest ++ freshBlocks d used (c * (4096 / d.blockSize) - used)) := by
        rw [nextBlocks, if_neg hne, hfree]
        rfl
      refine ⟨by rw [classServer_next, hnext]; rfl, c, h.pages, ?_, hused, ?_⟩
      · exact (if_neg hne).trans h.cursor
      · rw [classServer_give_free, hnext]
        rfl
  | nil =>
      rw [List.nil_append] at hfree
      by_cases hlt : used < c * (4096 / d.blockSize)
      · -- the supply of the pages that are there
        have hsplit : c * (4096 / d.blockSize) - used =
            c * (4096 / d.blockSize) - (used + 1) + 1 := by omega
        rw [hsplit, freshBlocks_succ] at hfree
        have hne : v.free ≠ [] := by simp [hfree]
        have hnext : nextBlocks d v.cursor v.free = freshBlock d used ::
            freshBlocks d (used + 1) (c * (4096 / d.blockSize) - (used + 1)) := by
          rw [nextBlocks, if_neg hne, hfree]
        refine ⟨by rw [classServer_next, hnext]; rfl, c, h.pages, ?_, hlt, ?_⟩
        · exact (if_neg hne).trans h.cursor
        · rw [classServer_give_free, hnext]
          rfl
      · -- a new page
        have heq : used = c * (4096 / d.blockSize) := by omega
        rw [heq, Nat.sub_self] at hfree
        have hempty : v.free = [] := hfree
        have hnext : nextBlocks d v.cursor v.free =
            freshBlock d used :: freshBlocks d (used + 1) (4096 / d.blockSize - 1) := by
          rw [nextBlocks, if_pos hempty, h.pageBlocks_cursor, ← heq, ← freshBlocks_succ,
            Nat.sub_add_cancel hpos]
        have hmore : (c + 1) * (4096 / d.blockSize) = used + 4096 / d.blockSize := by
          rw [Nat.succ_mul, heq]
        refine ⟨by rw [classServer_next, hnext]; rfl, c + 1, h.pages.trans (Nat.le_succ c), ?_, ?_, ?_⟩
        · refine (if_pos hempty).trans ?_
          rw [h.cursor]
          omega
        · show used + 1 ≤ _
          omega
        · rw [classServer_give_free, hnext]
          show freshBlocks d (used + 1) _ = [] ++ freshBlocks d (used + 1) _
          rw [List.nil_append, hmore]
          congr 1
          show 4096 / d.blockSize - 1 = used + 4096 / d.blockSize - (used + 1)
          omega

theorem take (h : OnSupply d c v w) (p : ℕ) :
    OnSupply d c ((classServer d).take v p) ((stackServer (freshBlock d)).take w p) where
  pages := h.pages
  cursor := h.cursor
  used := h.used
  free := congrArg (p :: ·) h.free

end OnSupply

theorem classServer_stack (d : SizeClass) :
    Server.Simulation (classServer d) (stackServer (freshBlock d)) fun v w => ∃ c, OnSupply d c v w where
  start := ⟨_, .start d⟩
  next v w := by
    rintro ⟨c, h⟩
    exact h.give.1
  give v w := by
    rintro ⟨c, h⟩
    exact h.give.2
  take v w p := by
    rintro ⟨c, h⟩
    exact ⟨c, h.take p⟩

/-! ### Runs -/

/-- What a class has seen of a run, as a stack. -/
def classStack (d : SizeClass) (calls : List HeapCall) : Stack ℕ :=
  (stackServer (freshBlock d)).replay (history d calls)

/-- What holds in a run that leaves frames below 1.25 GB. -/
structure RoomyHeap (L : Layout) (live : ℕ → Option ℕ) (s : State) : Prop where
  heap : ∃ use ranges, HeapInv L use live ranges s
  room : Room s.allocated 3 0x50000
  fit : SizesFit live

theorem HeapTrace.shows_stack {L : Layout} {mem : ℕ → ℕ → Word} {s₀ s : State}
    {live : ℕ → Option ℕ} {calls : List HeapCall} (boot : L.boot (State.powerOn mem) = .ok () s₀)
    (run : HeapTrace L (CallFits L) noLive s₀ calls live s) (d : SizeClass) :
    RoomyHeap L live s ∧ Shows L d s ((classServer d).replay (history d calls)) := by
  obtain ⟨use, m, t, ht, hb⟩ := L.boot_spec mem
  rw [boot] at ht
  cases ht
  have hstart : RoomyHeap L noLive s₀ :=
    ⟨⟨use, noLive, hb.heap⟩, hb.bounded.low.room, hb.bounded.fit⟩
  obtain ⟨hs, -, hshows⟩ := run.shows hb hstart (fun c hc legal hr guard => by
    obtain ⟨use₁, ranges, h⟩ := hc.heap
    obtain ⟨use₂, ranges', h', he, hfit⟩ := h.callFits hc.room hc.fit legal hr guard
    exact ⟨⟨⟨use₂, ranges', h'⟩, guard.room, hfit⟩, use₁, ranges, use₂, ranges', h, he⟩) d
  exact ⟨hs, hshows⟩

/-- After any run of allocations and releases, of all sizes, that has the addresses and the frames
it needs: an allocation from a size class returns the block of its class that was freed last and
not handed out since; when there is none, the next block of the supply. -/
theorem kmalloc_last_freed {L : Layout} {mem : ℕ → ℕ → Word} {s₀ s s' : State}
    {live : ℕ → Option ℕ} {calls : List HeapCall} {op : HeapOp} {d : SizeClass} {n a : ℕ}
    (boot : L.boot (State.powerOn mem) = .ok () s₀)
    (run : HeapTrace L (CallFits L) noLive s₀ calls live s) (hop : op.small = some (d, n))
    (hr : L.heapCall op s = .ok a s') (guard : CallFits L ⟨live, s, op, a, s'⟩) :
    a = (classStack d calls).returned.headD (freshBlock d (classStack d calls).used) := by
  obtain ⟨hs, hshows⟩ := run.shows_stack boot d
  have hlegal : Legal live op := by
    cases op with
    | domainAlloc | kmalloc => exact trivial
    | domainFree | kmallocLarge | kfreeLarge | kfree | write => cases hop
  obtain ⟨use, ranges, h⟩ := hs.heap
  obtain ⟨use', ranges', -, he, -⟩ :=
    h.callFits (c := ⟨live, s, op, a, s'⟩) hs.room hs.fit hlegal hr guard
  obtain ⟨hoffer, -⟩ := Effect.shows (c := ⟨live, s, op, a, s'⟩) h he hlegal hr hshows
  have hev := HeapCall.event_small (c := ⟨live, s, op, a, s'⟩) (d := d) hop
  rw [if_pos rfl] at hev
  have hnext : (classServer d).next ((classServer d).replay (history d calls)) = some a :=
    hoffer _ hev
  have hsim := classServer_stack d
  rw [hsim.next _ _ (hsim.replay (history d calls))] at hnext
  exact (Option.some.inj hnext).symm

/-- A block of `heap_64` is freed after a range was taken from the large domain, and the next
request of its size gets it back. -/
theorem kmalloc_last_freed_heap64 : ∃ s₀ s₁ b s₂ s₃ s₄,
    Layout.lowest.boot (State.powerOn fun _ _ => 0) = .ok () s₀ ∧
    Layout.lowest.kmalloc 64 s₀ = .ok 0x100FF000 s₁ ∧
    Layout.lowest.kmalloc 5000 s₁ = .ok b s₂ ∧
    Layout.lowest.kfreeHeap 0x100FF000 s₂ = .ok () s₃ ∧
    Layout.lowest.kmalloc 64 s₃ = .ok 0x100FF000 s₄ := by
  obtain ⟨use, m, s₀, hboot, hb⟩ := Layout.lowest.boot_spec fun _ _ => 0
  have hclass : (HeapOp.kmalloc 64).small = some (.heap64, 64) := rfl
  have h₀ := hb.stocked.mono (i := 4) (j := 2) (l := 18) (by norm_num) (by norm_num) (by norm_num)
  obtain ⟨a, s₁, hr₁, hG₁, hlive₁, h₁⟩ := h₀.kmalloc_small (n := 64) (d := .heap64) rfl
  have ha : a = 0x100FF000 := kmalloc_last_freed hboot .nil hclass hr₁ hG₁.callFits
  subst ha
  have run₁ := HeapTrace.nil.snoc (show Legal noLive (.kmalloc 64) from trivial) hr₁ hG₁.callFits
  obtain ⟨b, s₂, hr₂, hG₂, h₂⟩ := h₁.kmalloc_large (n := 5000) (N := 2) (k := 6) (w := 0) (by decide)
    (by decide) (by norm_num)
  have run₂ := run₁.snoc (show Legal _ (.kmalloc 5000) from trivial) hr₂ hG₂.callFits
  have hlive₂ : liveAfter (liveAfter noLive (.kmalloc 64) 0x100FF000) (.kmalloc 5000) b 0x100FF000 ≠
      none := liveAfter_live (by simp [hlive₁]) rfl
  obtain ⟨s₃, hr₃, hcall₃, hG₃, h₃⟩ := h₂.kfree hlive₂
  have run₃ := run₂.snoc
    (show Legal _ (.kfree 0x100FF000) from Option.ne_none_iff_exists'.mp hlive₂)
    hcall₃ hG₃.callFits
  obtain ⟨a', s₄, hr₄, hG₄, -⟩ := h₃.kmalloc_small (n := 64) (d := .heap64) rfl
  have ha' : a' = 0x100FF000 := kmalloc_last_freed hboot run₃ hclass hr₄ hG₄.callFits
  subst ha'
  exact ⟨s₀, s₁, b, s₂, s₃, s₄, hboot, hr₁, hr₂, hr₃, hr₄⟩

end RaxzusHeap
