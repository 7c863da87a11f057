import RaxzusHeap.Boot

/-! # Runs of the heap

`HeapRun` is any sequence of successful calls after `boot`: allocations and releases, at
the level of `kmalloc` and `kfree_heap` or of one domain, and writes of clients into their
own blocks.  The client is held to releasing and writing only what is live (`Legal`); a
guard `G` on the calls singles out the runs a result is about.

`HeapInv.call` is the step lemma: any call keeps `HeapInv`, with an `Effect` that says which
of the five things it did.  Its premises are the resources the call needs. -/

namespace RaxzusHeap

open Imperative FirstFit

/-! ### The dispatch by size and by address -/

/-- The size class that `kmalloc` picks; `none` is the large domain. -/
def classOf (size : ℕ) : Option SizeClass :=
  if size ≤ 64 then some .heap64
  else if size ≤ 128 then some .heap128
  else if size ≤ 256 then some .heap256
  else if size ≤ 512 then some .heap512
  else if size ≤ 1024 then some .heap1k
  else if size ≤ 2048 then some .heap2k
  else if size ≤ 4096 then some .heap4k
  else none

theorem classOf_le {size : ℕ} {d : SizeClass} (h : classOf size = some d) :
    size ≤ d.blockSize := by
  unfold classOf at h
  split_ifs at h <;> cases h <;> simpa [SizeClass.blockSize]

theorem classOf_eq_none {size : ℕ} : classOf size = none ↔ 4096 < size := by
  unfold classOf
  split_ifs <;> simp <;> omega

theorem Layout.kmalloc_eq (L : Layout) (size : ℕ) : L.kmalloc size =
    match classOf size with
    | some d => L.heapDomainAlloc d
    | none => L.kmallocLarge size := by
  unfold Layout.kmalloc classOf
  split_ifs <;> rfl

theorem Layout.kmalloc_small (L : Layout) {size : ℕ} {d : SizeClass} (h : classOf size = some d) :
    L.kmalloc size = L.heapDomainAlloc d := by
  rw [L.kmalloc_eq, h]

theorem Layout.kmalloc_large (L : Layout) {size : ℕ} (h : classOf size = none) :
    L.kmalloc size = L.kmallocLarge size := by
  rw [L.kmalloc_eq, h]

/-- `kfree_heap` finds the domain from the address. -/
theorem Layout.kfreeHeap_small (L : Layout) {d : SizeClass} {p : ℕ} (h1 : d.virtBase ≤ p)
    (h2 : p < d.virtBase + 0x10000000) : L.kfreeHeap p = L.heapDomainFree d p := by
  unfold Layout.kfreeHeap
  cases d with
  | heap64 => rw [if_pos ⟨h1, h2⟩]
  | heap128 =>
      simp only [SizeClass.virtBase] at h1 h2
      rw [if_neg (by omega), if_pos (by omega)]
  | heap256 =>
      simp only [SizeClass.virtBase] at h1 h2
      rw [if_neg (by omega), if_neg (by omega), if_pos (by omega)]
  | heap512 =>
      simp only [SizeClass.virtBase] at h1 h2
      rw [if_neg (by omega), if_neg (by omega), if_neg (by omega), if_pos (by omega)]
  | heap1k =>
      simp only [SizeClass.virtBase] at h1 h2
      rw [if_neg (by omega), if_neg (by omega), if_neg (by omega), if_neg (by omega),
        if_pos (by omega)]
  | heap2k =>
      simp only [SizeClass.virtBase] at h1 h2
      rw [if_neg (by omega), if_neg (by omega), if_neg (by omega), if_neg (by omega),
        if_neg (by omega), if_pos (by omega)]
  | heap4k =>
      simp only [SizeClass.virtBase] at h1 h2
      rw [if_neg (by omega), if_neg (by omega), if_neg (by omega), if_neg (by omega),
        if_neg (by omega), if_neg (by omega), if_pos (by omega)]

theorem Layout.kfreeHeap_large (L : Layout) {p : ℕ} (h : 0x80000000 ≤ p) :
    L.kfreeHeap p = L.kfreeLarge p := by
  unfold Layout.kfreeHeap
  rw [if_neg (by omega), if_neg (by omega), if_neg (by omega), if_neg (by omega),
    if_neg (by omega), if_neg (by omega), if_neg (by omega), if_pos h]

/-! ### Calls -/

/-- What a client of the heap can do. -/
inductive HeapOp where
  | domainAlloc (d : SizeClass)
  | domainFree (d : SizeClass) (p : ℕ)
  | kmallocLarge (size : ℕ)
  | kfreeLarge (p : ℕ)
  | kmalloc (size : ℕ)
  | kfree (p : ℕ)
  | write (p k b : ℕ)
deriving DecidableEq, Repr

/-- Run a call; those that return nothing return 0. -/
def Layout.heapCall (L : Layout) : HeapOp → Kernel ℕ
  | .domainAlloc d => L.heapDomainAlloc d
  | .domainFree d p => do
      L.heapDomainFree d p
      pure 0
  | .kmallocLarge size => L.kmallocLarge size
  | .kfreeLarge p => do
      L.kfreeLarge p
      pure 0
  | .kmalloc size => L.kmalloc size
  | .kfree p => do
      L.kfreeHeap p
      pure 0
  | .write p k b => do
      L.storeByte (p + k) b
      pure 0

namespace HeapOp

/-- The size class an allocation goes to, with the size asked for. -/
def small : HeapOp → Option (SizeClass × ℕ)
  | .domainAlloc d => some (d, d.blockSize)
  | .kmalloc size => (classOf size).map fun d => (d, size)
  | _ => none

/-- The size asked for when an allocation goes to the large domain. -/
def large : HeapOp → Option ℕ
  | .kmallocLarge size => some size
  | .kmalloc size => if classOf size = none then some size else none
  | _ => none

/-- The pointer that is released. -/
def freed : HeapOp → Option ℕ
  | .domainFree _ p => some p
  | .kfreeLarge p => some p
  | .kfree p => some p
  | _ => none

end HeapOp

/-- Clients release and write only live blocks, each through the domain it came from. -/
def Legal (live : ℕ → Option ℕ) : HeapOp → Prop
  | .domainFree d p => (∃ n, live p = some n) ∧ d.virtBase ≤ p ∧ p < d.virtBase + 0x10000000
  | .kfreeLarge p => (∃ n, live p = some n) ∧ 0x80000000 ≤ p
  | .kfree p => ∃ n, live p = some n
  | .write p k _ => ∃ n, live p = some n ∧ k < n
  | _ => True

/-- The live blocks after a call that returned `a`; a block of `domainAlloc` is all the
client's. -/
def liveAfter (live : ℕ → Option ℕ) (op : HeapOp) (a : ℕ) : ℕ → Option ℕ :=
  match op with
  | .domainAlloc d => if a = 0 then live else Function.update live a (some d.blockSize)
  | .kmallocLarge size => if a = 0 then live else Function.update live a (some size)
  | .kmalloc size => if a = 0 then live else Function.update live a (some size)
  | .domainFree _ p => Function.update live p none
  | .kfreeLarge p => Function.update live p none
  | .kfree p => Function.update live p none
  | .write _ _ _ => live

theorem liveAfter_small {live : ℕ → Option ℕ} {op : HeapOp} {d : SizeClass} {n a : ℕ}
    (h : op.small = some (d, n)) (ha : a ≠ 0) :
    liveAfter live op a = Function.update live a (some n) := by
  cases op with
  | domainAlloc c =>
      simp only [HeapOp.small, Option.some.injEq, Prod.mk.injEq] at h
      obtain ⟨rfl, rfl⟩ := h
      exact if_neg ha
  | kmalloc size =>
      simp only [HeapOp.small, Option.map_eq_some_iff, Prod.mk.injEq] at h
      obtain ⟨_, _, _, rfl⟩ := h
      exact if_neg ha
  | domainFree | kmallocLarge | kfreeLarge | kfree | write => cases h

theorem liveAfter_large {live : ℕ → Option ℕ} {op : HeapOp} {n a : ℕ} (h : op.large = some n)
    (ha : a ≠ 0) : liveAfter live op a = Function.update live a (some n) := by
  cases op with
  | kmallocLarge size =>
      cases h
      exact if_neg ha
  | kmalloc size =>
      simp only [HeapOp.large] at h
      split_ifs at h
      cases h
      exact if_neg ha
  | domainAlloc | domainFree | kfreeLarge | kfree | write => cases h

theorem liveAfter_freed {live : ℕ → Option ℕ} {op : HeapOp} {p : ℕ} (h : op.freed = some p)
    (a : ℕ) : liveAfter live op a = Function.update live p none := by
  cases op with
  | domainFree d q => cases h; rfl
  | kfreeLarge q => cases h; rfl
  | kfree q => cases h; rfl
  | domainAlloc | kmallocLarge | kmalloc | write => cases h

theorem HeapOp.freed_of_small {op : HeapOp} {x : SizeClass × ℕ} (h : op.small = some x) :
    op.freed = none := by
  cases op <;> first | rfl | cases h

theorem HeapOp.large_of_small {op : HeapOp} {x : SizeClass × ℕ} (h : op.small = some x) :
    op.large = none := by
  cases op with
  | domainAlloc d => rfl
  | kmalloc size =>
      simp only [HeapOp.small, Option.map_eq_some_iff] at h
      obtain ⟨d, hd, _⟩ := h
      simp [HeapOp.large, hd]
  | domainFree | kmallocLarge | kfreeLarge | kfree | write => cases h

/-! ### The effect of a call -/

/-- What a successful call did. -/
inductive Effect (L : Layout) (use : ℕ → Use) (live ranges : ℕ → Option ℕ) (s : State) :
    HeapOp → ℕ → (ℕ → Use) → (ℕ → Option ℕ) → State → Prop
  | popped {op d n a use' s'} (hop : op.small = some (d, n)) (ha : a ≠ 0)
      (h : Popped L d use live s a use' s') : Effect L use live ranges s op a use' ranges s'
  | pushed {op p s'} {d : SizeClass} (hop : op.freed = some p) (hlive : live p ≠ none)
      (h1 : d.virtBase ≤ p) (h2 : p < d.virtBase + 0x10000000) (others : OtherVars d s s')
      (cursor : (s'.domains d).nextVirtAddr = (s.domains d).nextVirtAddr)
      (peek : ∀ x, Backed use (x / 4096) → x / 4 ≠ p / 4 →
        s'.peek L.dirFrame x = s.peek L.dirFrame x)
      (alloc : ∀ g, s'.allocated g = s.allocated g) (maps : s'.maps = s.maps)
      (stale : s'.stale = s.stale) : Effect L use live ranges s op 0 use ranges s'
  | carved {op n q use' s'} (hop : op.large = some n)
      (h : Carved L use live ranges n q s use' s') :
      Effect L use live ranges s op (q * 4096 + 4) use'
        (Function.update ranges q (some (largePages n))) s'
  | returned {op q N use' s'} (hop : op.freed = some (q * 4096 + 4))
      (hlive : live (q * 4096 + 4) ≠ none) (h : Returned L use live ranges q N s use' s') :
      Effect L use live ranges s op 0 use' ranges s'
  | wrote {p k b n w s'} (hp : live p = some n) (hk : k < n)
      (peek : s.peek L.dirFrame (p + k) = some w) (hw : w < 2 ^ 32)
      (h : Stored L use (p + k) (setByte w ((p + k) % 4) b) s s') :
      Effect L use live ranges s (.write p k b) 0 use ranges s'
  | refused {op} (hop : op.large = some 0) : Effect L use live ranges s op 0 use ranges s

theorem Effect.of_small {L : Layout} {use use' : ℕ → Use} {live ranges ranges' : ℕ → Option ℕ}
    {s s' : State} {op : HeapOp} {a n : ℕ} {d : SizeClass}
    (he : Effect L use live ranges s op a use' ranges' s') (hop : op.small = some (d, n)) :
    a ≠ 0 ∧ Popped L d use live s a use' s' := by
  cases he with
  | popped hop' ha hpop =>
      rw [hop] at hop'
      cases hop'
      exact ⟨ha, hpop⟩
  | pushed hop' => rw [HeapOp.freed_of_small hop] at hop'; cases hop'
  | carved hop' => rw [HeapOp.large_of_small hop] at hop'; cases hop'
  | returned hop' => rw [HeapOp.freed_of_small hop] at hop'; cases hop'
  | wrote => cases hop
  | refused hop' => rw [HeapOp.large_of_small hop] at hop'; cases hop'

/-- What `kmalloc_large` needs: a page, space in the window, and three frames below 1.25 GB
whenever it maps a page. -/
structure LargeReady (L : Layout) (use : ℕ → Use) (n : ℕ) (s s' : State) : Prop where
  pos : 1 ≤ largePages n
  fits : ¬ L.Reuses s (largePages n) →
    s.large.nextVirtAddr + largePages n * 4096 ≤ 0xC0000000
  room : ∃ R : State → Prop,
    (∀ t t', (∀ g, t.allocated g = true → t'.allocated g = true) → R t' → R t) ∧
    (∀ use' t, HeapPages L use' t → LargeLabels use use' → R t → Room t.allocated 3 0x50000) ∧
    R s'

/-- What the slow path of `heap_domain_alloc` needs: a page left in the region and three
frames below 1.25 GB. -/
def SmallReady (d : SizeClass) (s : State) : Prop :=
  (s.domains d).nextFreeBlock = 0 →
    (s.domains d).nextVirtAddr < d.virtBase + 0x10000000 ∧ Room s.allocated 3 0x50000

namespace HeapInv

variable {L : Layout} {use : ℕ → Use} {live ranges : ℕ → Option ℕ} {s s' : State} {op : HeapOp}
  {a : ℕ}

theorem callSmall (h : HeapInv L use live ranges s) {d : SizeClass} {n : ℕ}
    (hop : op.small = some (d, n)) (hn : n ≤ d.blockSize) (hready : SmallReady d s)
    (hr : L.heapDomainAlloc d s = .ok a s') :
    ∃ use' ranges', HeapInv L use' (liveAfter live op a) ranges' s' ∧
      Effect L use live ranges s op a use' ranges' s' := by
  obtain ⟨use', h', hpop⟩ := (h.domainAlloc d hn le_rfl hready).ok hr
  have ha : a ≠ 0 := by
    have h1 := hpop.block.1
    have h2 := d.virtBase_bounds
    omega
  exact ⟨use', ranges, by rw [liveAfter_small hop ha]; exact h', .popped hop ha hpop⟩

theorem callLarge (h : HeapInv L use live ranges s) {n : ℕ} (hop : op.large = some n)
    (hlive : a = 0 → liveAfter live op a = live)
    (hready : n ≠ 0 → LargeReady L use n s s') (hr : L.kmallocLarge n s = .ok a s') :
    ∃ use' ranges', HeapInv L use' (liveAfter live op a) ranges' s' ∧
      Effect L use live ranges s op a use' ranges' s' := by
  by_cases hn0 : n = 0
  · subst hn0
    have hzero : L.kmallocLarge 0 s = .ok 0 s := rfl
    rw [hzero] at hr
    cases hr
    exact ⟨use, ranges, by rw [hlive rfl]; exact h, .refused hop⟩
  · obtain ⟨hpos, hfits, R, hmono, hroom, hR⟩ := hready hn0
    obtain ⟨q, use', rfl, hc, h'⟩ := (h.largeAlloc le_rfl hn0 hpos hfits R hmono hroom).ok hr hR
    exact ⟨use', _, by rw [liveAfter_large hop (by omega)]; exact h', .carved hop hc⟩

theorem callFree (h : HeapInv L use live ranges s) {p n : ℕ} {x : Kernel Unit}
    (hop : op.freed = some p) (hp : live p = some n)
    (hsmall : ∀ d : SizeClass, d.virtBase ≤ p → p < d.virtBase + 0x10000000 →
      x = L.heapDomainFree d p)
    (hlarge : 0x80000000 ≤ p → x = L.kfreeLarge p)
    (hr : (do x; pure 0 : Kernel ℕ) s = .ok a s') :
    ∃ use' ranges', HeapInv L use' (liveAfter live op a) ranges' s' ∧
      Effect L use live ranges s op a use' ranges' s' := by
  rw [liveAfter_freed hop]
  rcases window_cases (h.heap p n hp) with hge | ⟨d, h1, h2⟩
  · obtain ⟨q, N, use', t, rfl, hrun, hret, h'⟩ := h.largeFree hp hge
    rw [hlarge hge, run_bind_ok hrun] at hr
    cases hr
    exact ⟨use', ranges, h', .returned hop (by rw [hp]; simp) hret⟩
  · obtain ⟨t, hrun, h', hothers, hcursor, hpeek, halloc, hmaps, hstale⟩ := h.domainFree hp h1 h2
    rw [hsmall d h1 h2, run_bind_ok hrun] at hr
    cases hr
    exact ⟨use, ranges, h', .pushed hop (by rw [hp]; simp) h1 h2 hothers hcursor hpeek halloc
      hmaps hstale⟩

/-- A call keeps the invariant of the heap. -/
theorem call (h : HeapInv L use live ranges s) (hlegal : Legal live op)
    (hr : L.heapCall op s = .ok a s') (hsmall : ∀ d n, op.small = some (d, n) → SmallReady d s)
    (hlarge : ∀ n, op.large = some n → n ≠ 0 → LargeReady L use n s s')
    (hwrite : ∀ p n, live p = some n → (∃ k b, op = .write p k b) → n + 4099 < 2 ^ 32) :
    ∃ use' ranges', HeapInv L use' (liveAfter live op a) ranges' s' ∧
      Effect L use live ranges s op a use' ranges' s' := by
  cases op with
  | domainAlloc d => exact h.callSmall rfl le_rfl (hsmall d _ rfl) hr
  | domainFree d p =>
      obtain ⟨⟨n, hp⟩, h1, h2⟩ := hlegal
      refine h.callFree rfl hp (fun c h3 h4 => ?_) (fun hge => ?_) hr
      · rw [region_unique h1 h2 h3 h4]
      · have := d.virtBase_bounds
        omega
  | kmallocLarge size => exact h.callLarge rfl (fun ha => if_pos ha) (hlarge size rfl) hr
  | kfreeLarge p =>
      obtain ⟨⟨n, hp⟩, hge⟩ := hlegal
      refine h.callFree rfl hp (fun c h3 h4 => ?_) (fun _ => rfl) hr
      have := c.virtBase_bounds
      omega
  | kmalloc size =>
      cases hc : classOf size with
      | some d =>
          have hop : (HeapOp.kmalloc size).small = some (d, size) := by
            simp only [HeapOp.small, hc, Option.map_some]
          rw [Layout.heapCall, L.kmalloc_small hc] at hr
          exact h.callSmall hop (classOf_le hc) (hsmall d size hop) hr
      | none =>
          have hop : (HeapOp.kmalloc size).large = some size := by simp only [HeapOp.large, hc, if_true]
          rw [Layout.heapCall, L.kmalloc_large hc] at hr
          exact h.callLarge hop (fun ha => if_pos ha) (hlarge size hop) hr
  | kfree p =>
      obtain ⟨n, hp⟩ := hlegal
      exact h.callFree rfl hp (fun d h1 h2 => L.kfreeHeap_small h1 h2)
        (fun hge => L.kfreeHeap_large hge) hr
  | write p k b =>
      obtain ⟨n, hp, hk⟩ := hlegal
      obtain ⟨w, t, hpeek, hw, hrun, h', hst⟩ := h.write (b := b) hp (hwrite p n hp ⟨k, b, rfl⟩) hk
      rw [Layout.heapCall, run_bind_ok hrun] at hr
      cases hr
      exact ⟨use, ranges, h', .wrote hp hk hpeek hw hst⟩

end HeapInv

/-! ### Runs -/

/-- One call of a run. -/
structure HeapCall where
  live : ℕ → Option ℕ
  before : State
  op : HeapOp
  result : ℕ
  after : State

/-- Runs of the heap from power-on in which every call satisfies `G`. -/
inductive HeapRun (L : Layout) (G : HeapCall → Prop) : (ℕ → Option ℕ) → State → Prop
  | boot {mem s} (h : L.boot (State.powerOn mem) = .ok () s) : HeapRun L G noLive s
  | call {live s op a s'} (run : HeapRun L G live s) (legal : Legal live op)
      (hr : L.heapCall op s = .ok a s') (guard : G ⟨live, s, op, a, s'⟩) :
      HeapRun L G (liveAfter live op a) s'

/-- Further calls of a run, the last one first. -/
inductive HeapTrace (L : Layout) (G : HeapCall → Prop) (live : ℕ → Option ℕ) (s : State) :
    List HeapCall → (ℕ → Option ℕ) → State → Prop
  | nil : HeapTrace L G live s [] live s
  | snoc {calls live' s' op a s''} (trace : HeapTrace L G live s calls live' s')
      (legal : Legal live' op) (hr : L.heapCall op s' = .ok a s'') (guard : G ⟨live', s', op, a, s''⟩) :
      HeapTrace L G live s (⟨live', s', op, a, s''⟩ :: calls) (liveAfter live' op a) s''

namespace HeapRun

variable {L : Layout} {G G' : HeapCall → Prop} {live : ℕ → Option ℕ} {s : State}

theorem mono (h : HeapRun L G live s) (hG : ∀ c, G c → G' c) : HeapRun L G' live s := by
  induction h with
  | boot h => exact .boot h
  | call run legal hr guard ih => exact ih.call legal hr (hG _ guard)

theorem trace (h : HeapRun L G live s) {calls : List HeapCall} {live' : ℕ → Option ℕ} {s' : State}
    (ht : HeapTrace L G live s calls live' s') : HeapRun L G live' s' := by
  induction ht with
  | nil => exact h
  | snoc tr legal hr guard ih => exact ih.call legal hr guard

/-- Induction over a run: what holds after booting and is kept by the calls that satisfy the
guard holds in the end. -/
theorem invariant {I : (ℕ → Option ℕ) → State → Prop} (h : HeapRun L G live s)
    (h0 : ∀ use m t, Booted L use m t → I noLive t)
    (hstep : ∀ c : HeapCall, I c.live c.before → Legal c.live c.op →
      L.heapCall c.op c.before = .ok c.result c.after → G c →
      I (liveAfter c.live c.op c.result) c.after) : I live s := by
  induction h with
  | @boot mem t h =>
      obtain ⟨use, m, t', hrun, hb⟩ := L.boot_spec mem
      rw [hrun] at h
      cases h
      exact h0 use m _ hb
  | call run legal hr guard ih => exact hstep ⟨_, _, _, _, _⟩ ih legal hr guard

end HeapRun

end RaxzusHeap
