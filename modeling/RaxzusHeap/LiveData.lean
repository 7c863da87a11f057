import RaxzusHeap.Progress

/-! # Live data is never disturbed

No call of the allocator changes a byte of a live block it is not given (`Effect.quiet`),
whatever it does to pages, tables, frames and links, and a byte that a client stores stays
until the client overwrites it or gives the block back (`live_data_kept`). -/

namespace RaxzusHeap

open Imperative FirstFit

/-! ### Bytes -/

theorem State.peek_word (s : State) (d : ℕ) {x a : ℕ} (h : x / 4 = a / 4) :
    s.peek d x = s.peek d a := by
  have h1 : x / 2 ^ 22 = a / 2 ^ 22 := by omega
  have h2 : x / 4096 = a / 4096 := by omega
  have h3 : x % 4096 / 4 = a % 4096 / 4 := by omega
  unfold State.peek State.walk
  rw [h1, h2, h3]

theorem Layout.byteAt_congr {L : Layout} {s s' : State} {x : ℕ}
    (h : s'.peek L.dirFrame x = s.peek L.dirFrame x) : L.byteAt s' x = L.byteAt s x := by
  unfold Layout.byteAt
  rw [h]

theorem Stored.byteAt {L : Layout} {use : ℕ → Use} {s s' : State} {a b w x : ℕ}
    (h : Stored L use a (setByte w (a % 4) b) s s') (hpeek : s.peek L.dirFrame a = some w)
    (hw : w < 2 ^ 32) (hx : Backed use (x / 4096)) :
    L.byteAt s' x = if x = a then some (b % 256) else L.byteAt s x := by
  unfold Layout.byteAt
  rw [h.peek x hx]
  by_cases hword : x / 4 = a / 4
  · rw [if_pos hword, s.peek_word L.dirFrame hword, hpeek, Option.map_some, Option.map_some]
    have hk : a % 4 < 4 := Nat.mod_lt a (by norm_num)
    by_cases hxa : x = a
    · rw [if_pos hxa, hxa, byteOf_setByte hw hk]
    · rw [if_neg hxa, byteOf_setByte_ne hw hk (Nat.mod_lt x (by norm_num)) (by omega)]
  · rw [if_neg hword, if_neg fun hxa => hword (by rw [hxa])]

namespace Effect

variable {L : Layout} {use use' : ℕ → Use} {live ranges ranges' : ℕ → Option ℕ} {s s' : State}
  {op : HeapOp} {a p n : ℕ}

/-- A call gives no block out twice and takes none back but the one it is given. -/
theorem live_kept (he : Effect L use live ranges s op a use' ranges' s') (hp : live p = some n)
    (hfree : op.freed ≠ some p) : liveAfter live op a p = some n := by
  have hother : ∀ b o, live b = none → Function.update live b o p = some n := by
    intro b o hb
    rw [Function.update_of_ne (by rintro rfl; rw [hp] at hb; cases hb)]
    exact hp
  have hremoved : ∀ b, op.freed = some b → Function.update live b none p = some n := by
    intro b hb
    rw [Function.update_of_ne (by rintro rfl; exact hfree hb)]
    exact hp
  cases he with
  | popped hop ha hpop => rw [liveAfter_small hop ha]; exact hother _ _ hpop.fresh
  | pushed hop => rw [liveAfter_freed hop]; exact hremoved _ hop
  | carved hop hc => rw [liveAfter_large hop (by omega)]; exact hother _ _ hc.fresh
  | returned hop => rw [liveAfter_freed hop]; exact hremoved _ hop
  | wrote => exact hp
  | refused hop => rw [liveAfter_zero hop]; exact hp

/-- The words of a live block are not touched by a call for another block. -/
theorem quiet (he : Effect L use live ranges s op a use' ranges' s')
    (h : HeapInv L use live ranges s) (h' : HeapInv L use' (liveAfter live op a) ranges' s')
    (hwrite : ∀ q k b, op ≠ .write q k b) (hp : live p = some n) (hn : n + 4099 < 2 ^ 32)
    (hfree : op.freed ≠ some p) {x : ℕ} (h1 : p ≤ x) (h2 : x < p + n) :
    s'.peek L.dirFrame x = s.peek L.dirFrame x := by
  cases he with
  | popped _ _ hpop => exact h.domainAlloc_quiet hpop p n hp hn x h1 h2
  | @pushed _ b _ d hop hlive hb1 hb2 _ _ hpeek _ _ _ =>
      obtain ⟨k, hb⟩ := Option.ne_none_iff_exists'.mp hlive
      apply hpeek x (h.backed_live hp hn h1 h2)
      exact h.apart_word hb hb1 hb2 hp (by rintro rfl; exact hfree hop) h1 h2
  | carved _ hc => exact h.largeAlloc_quiet hc p n hp hn x h1 h2
  | returned hop _ hret =>
      rw [liveAfter_freed hop] at h'
      apply h.largeFree_quiet hret h' p n _ hn x h1 h2
      rw [Function.update_of_ne (by rintro rfl; exact hfree hop)]
      exact hp
  | wrote => exact absurd rfl (hwrite _ _ _)
  | refused => rfl

theorem byteAt (he : Effect L use live ranges s op a use' ranges' s')
    (h : HeapInv L use live ranges s) (h' : HeapInv L use' (liveAfter live op a) ranges' s')
    (hp : live p = some n) (hn : n + 4099 < 2 ^ 32) (hfree : op.freed ≠ some p) {x : ℕ}
    (h1 : p ≤ x) (h2 : x < p + n) (hwrite : ∀ q k b, op = .write q k b → q + k ≠ x) :
    L.byteAt s' x = L.byteAt s x := by
  by_cases hop : ∃ q k b, op = .write q k b
  · obtain ⟨q, k, b, rfl⟩ := hop
    cases he with
    | wrote hq hk hpeek hw hst =>
        rw [hst.byteAt hpeek hw (h.backed_live hp hn h1 h2), if_neg (Ne.symm (hwrite q k b rfl))]
    | popped hop => cases hop
    | pushed hop => cases hop
    | carved hop => cases hop
    | returned hop => cases hop
    | refused hop => cases hop
  · apply Layout.byteAt_congr
    exact he.quiet h h' (fun q k b hqk => hop ⟨q, k, b, hqk⟩) hp hn hfree h1 h2

end Effect

section Runs

variable {L : Layout} {live : ℕ → Option ℕ} {s : State}

/-- A byte of a live block along further calls that neither release the block nor write the
byte. -/
theorem HeapTrace.byteAt {calls : List HeapCall} {live' : ℕ → Option ℕ} {s' : State}
    (run : HeapRun L (WithinLimits L) live s)
    (trace : HeapTrace L (WithinLimits L) live s calls live' s') {p n x : ℕ}
    (hp : live p = some n) (h1 : p ≤ x) (h2 : x < p + n)
    (hfree : ∀ c ∈ calls, c.op.freed ≠ some p)
    (hwrite : ∀ c ∈ calls, ∀ q k b, c.op = .write q k b → q + k ≠ x) :
    live' p = some n ∧ L.byteAt s' x = L.byteAt s x := by
  induction trace with
  | nil => exact ⟨hp, rfl⟩
  | @snoc calls lv t op a t' tr legal hr guard ih =>
      obtain ⟨hlv, hbyte⟩ := ih (fun c hc => hfree c (List.mem_cons_of_mem _ hc))
        (fun c hc => hwrite c (List.mem_cons_of_mem _ hc))
      have hb := (run.trace tr).withinLimits
      obtain ⟨use, ranges, hh⟩ := hb.heap
      obtain ⟨use', ranges', h', he, _⟩ := HeapInv.callWithin (c := ⟨lv, t, op, a, t'⟩) hh hb.low
        hb.fit legal hr guard
      have hfree' := hfree _ List.mem_cons_self
      refine ⟨he.live_kept hlv hfree', ?_⟩
      rw [he.byteAt hh h' hlv (hb.fit p n hlv) hfree' h1 h2 (hwrite _ List.mem_cons_self), hbyte]

theorem BoundedHeap.write (h : BoundedHeap L live s) {p n k b a : ℕ} {s' : State}
    (hp : live p = some n) (hk : k < n) (hr : L.heapCall (.write p k b) s = .ok a s') :
    WithinLimits L ⟨live, s, .write p k b, a, s'⟩ ∧ L.byteAt s' (p + k) = some (b % 256) := by
  obtain ⟨use, ranges, hh⟩ := h.heap
  have hn := h.fit p n hp
  obtain ⟨w, t, hpeek, hw, hrun, _, hst⟩ := hh.write (b := b) hp hn hk
  rw [Layout.heapCall, run_bind_ok hrun] at hr
  cases hr
  refine ⟨⟨fun m hm => (by cases hm), ?_, fun d m hm => (by cases hm), fun m hm => (by cases hm)⟩,
    ?_⟩
  · intro f h1 h2
    show s'.allocated f = false
    rw [hst.alloc]
    exact h.low f h1 h2
  · rw [hst.byteAt hpeek hw (hh.backed_live hp hn (by omega) (by omega)), if_pos rfl]

theorem Layout.loadByte_of_byteAt {x v : ℕ} (h : L.byteAt s x = some v) :
    L.loadByte x s = .ok v s := by
  unfold Layout.byteAt at h
  obtain ⟨w, hw, rfl⟩ := Option.map_eq_some_iff.mp h
  unfold Layout.loadByte
  rw [run_bind_ok (L.load_of_peek hw)]
  rfl

/-- Within the limits of memory, a call changes no byte of a live block other than the one
it releases or writes, and a byte stored by a client is read back as long as the block is
not released and the byte not overwritten. -/
theorem live_data_kept (run : HeapRun L (WithinLimits L) live s) :
    (∀ op a s', Legal live op → L.heapCall op s = .ok a s' →
      WithinLimits L ⟨live, s, op, a, s'⟩ → (∀ q k b, op ≠ .write q k b) →
      ∀ p n, live p = some n → op.freed ≠ some p → ∀ x, p ≤ x → x < p + n →
        ∃ v, L.byteAt s x = some v ∧ L.byteAt s' x = some v) ∧
    ∀ p n k b a s₁, live p = some n → k < n → L.heapCall (.write p k b) s = .ok a s₁ →
      ∀ calls live' s', HeapTrace L (WithinLimits L) live s₁ calls live' s' →
        (∀ c ∈ calls, c.op.freed ≠ some p) →
        (∀ c ∈ calls, ∀ q j v, c.op = .write q j v → q + j ≠ p + k) →
        L.loadByte (p + k) s' = .ok (b % 256) s' := by
  have hb := run.withinLimits
  refine ⟨?_, ?_⟩
  · intro op a s' hlegal hr hG hwrite p n hp hfree x h1 h2
    obtain ⟨use, ranges, hh⟩ := hb.heap
    obtain ⟨use', ranges', h', he, _⟩ := HeapInv.callWithin (c := ⟨live, s, op, a, s'⟩) hh hb.low
      hb.fit hlegal hr hG
    have hn := hb.fit p n hp
    obtain ⟨w, _, hpeek, _⟩ := hh.pages.load (hh.backed_live hp hn h1 h2)
    have hsome : L.byteAt s x = some (byteOf w (x % 4)) := by
      unfold Layout.byteAt
      rw [hpeek, Option.map_some]
    refine ⟨_, hsome, ?_⟩
    rw [he.byteAt hh h' hp hn hfree h1 h2 (fun q k b hop => absurd hop (hwrite q k b)), hsome]
  · intro p n k b a s₁ hp hk hr calls live' s' trace hfree hwrite
    obtain ⟨hG, hbyte⟩ := hb.write hp hk hr
    have run₁ : HeapRun L (WithinLimits L) live s₁ :=
      run.call (show Legal live (.write p k b) from ⟨n, hp, hk⟩) hr hG
    obtain ⟨_, hsame⟩ := trace.byteAt run₁ hp (Nat.le_add_right p k) (by omega) hfree hwrite
    exact Layout.loadByte_of_byteAt (hsame.trans hbyte)

end Runs

/-- A byte written into the first block of a run is read back after another block was taken and
given back. -/
theorem live_data_kept_heap64 :
    ∃ s p s₁ a s₂ q s₃ s₄, Layout.lowest.boot (State.powerOn fun _ _ => 0) = .ok () s ∧
      Layout.lowest.kmalloc 64 s = .ok p s₁ ∧
      Layout.lowest.heapCall (.write p 0 7) s₁ = .ok a s₂ ∧
      Layout.lowest.kmalloc 100 s₂ = .ok q s₃ ∧ Layout.lowest.kfreeHeap q s₃ = .ok () s₄ ∧
      Layout.lowest.loadByte (p + 0) s₄ = .ok 7 s₄ := by
  obtain ⟨use, m, s, hboot, hb⟩ := Layout.lowest.boot_spec fun _ _ => 0
  have h₀ : Stocked Layout.lowest 4 0 12 noLive s :=
    hb.stocked.mono (by norm_num) (by norm_num) (by norm_num)
  obtain ⟨p, s₁, hr₁, hG₁, hlive₁, h₁⟩ := h₀.kmalloc_small (c := 3) (k := 9) (n := 64)
    (d := .heap64) (by decide)
  have run : HeapRun Layout.lowest (WithinLimits Layout.lowest)
      (Function.update noLive p (some 64)) s₁ :=
    hlive₁ ▸ (HeapRun.boot hboot).call (show Legal noLive (.kmalloc 64) from trivial) hr₁ hG₁
  rw [hlive₁] at h₁
  have hp : Function.update noLive p (some 64) p = some 64 := Function.update_self ..
  obtain ⟨a, s₂, hr₂, -, -, h₂⟩ := h₁.call (c := 2) (w := 0) (k := 6)
    (show Legal _ (.write p 0 7) from ⟨64, hp, by norm_num⟩) fun n hn => by cases hn
  obtain ⟨q, s₃, hr₃, hG₃, hlive₃, h₃⟩ := Stocked.kmalloc_small (c := 1) (k := 3) (n := 100)
    (d := .heap128) h₂ (by decide)
  have hop : (HeapOp.kmalloc 100).small = some (.heap128, 100) := by decide
  obtain ⟨hnew, -, -⟩ := BoundedHeap.block_new (c := ⟨_, s₂, .kmalloc 100, q, s₃⟩) h₂.heap
    trivial hr₃ hG₃ hop
  obtain ⟨s₄, hr₄, hcall₄, hG₄, -⟩ := Stocked.kfree (c := 0) (k := 0) h₃ (p := q) (by simp [hlive₃])
  have trace := (HeapTrace.nil.snoc (show Legal _ (.kmalloc 100) from trivial) hr₃ hG₃).snoc
    (show Legal _ (.kfree q) from ⟨100, by simp [hlive₃]⟩) hcall₄ hG₄
  have hqp : q ≠ p := by
    rintro rfl
    cases hp.symm.trans hnew
  refine ⟨s, p, s₁, a, s₂, q, s₃, s₄, hboot, hr₁, hr₂, hr₃, hr₄, ?_⟩
  refine (live_data_kept run).2 p 64 0 7 a s₂ hp (by norm_num) hr₂ _ _ s₄ trace ?_ ?_
  · simp [HeapOp.freed, hqp]
  · simp

end RaxzusHeap
