import RaxzusHeap.Regions

/-! # Programs over pointer variables (the `kfree` macro)

`kfree(v)` releases the block of `v` and then sets `v` to `NULL`.  A second `kfree(v)` is
therefore harmless, but a copy of `v` made before keeps the pointer, and a `kfree` of the
copy puts the block on its free list a second time (`freed_through_copy`).  As long as no
such copy is freed, the free lists stay without repetition (`freed_once`). -/

namespace RaxzusHeap

open Imperative FirstFit Linked

/-- The statements of such a program, over the variables `V`. -/
inductive PointerOp (V : Type) where
  | kmalloc (v : V) (n : ℕ)
  | copy (w v : V)
  | kfree (v : V)

section Programs

variable {V : Type} [DecidableEq V] {L : Layout}

/-- Run a statement; `kfree` is the macro. -/
def Layout.pointerOp (L : Layout) (vars : V → ℕ) : PointerOp V → Kernel (V → ℕ)
  | .kmalloc v n => do
      let a ← L.kmalloc n
      pure (Function.update vars v a)
  | .copy w v => pure (Function.update vars w (vars v))
  | .kfree v => do
      L.kfreeHeap (vars v)
      pure (Function.update vars v 0)

/-- The blocks the program holds after a statement: those returned and not yet freed. -/
def PointerOp.liveAfter (live : ℕ → Option ℕ) (vars vars' : V → ℕ) : PointerOp V → ℕ → Option ℕ
  | .kmalloc v n => if vars' v = 0 then live else Function.update live (vars' v) (some n)
  | .copy _ _ => live
  | .kfree v => Function.update live (vars v) none

theorem PointerOp.liveAfter_kmalloc {live : ℕ → Option ℕ} {vars : V → ℕ} {v : V} {n a : ℕ}
    (ha : a ≠ 0) :
    (PointerOp.kmalloc v n).liveAfter live vars (Function.update vars v a) a = some n := by
  simp only [PointerOp.liveAfter, Function.update_self, if_neg ha]

/-- Every request is for at most 4096 bytes. -/
def PointerOp.Small : PointerOp V → Prop
  | .kmalloc _ n => n ≤ 4096
  | _ => True

/-- The state before a statement: the variables, the blocks held and the machine. -/
structure PointerState (V : Type) where
  vars : V → ℕ
  live : ℕ → Option ℕ
  machine : State

/-- Runs of a program after booting in which every statement satisfies `G` where it starts;
all variables start as `NULL`. -/
inductive PointerRun (L : Layout) (G : PointerState V → PointerOp V → Prop) :
    List (PointerOp V) → PointerState V → Prop
  | boot {mem s} (h : L.boot (State.powerOn mem) = .ok () s) :
      PointerRun L G [] ⟨fun _ => 0, noLive, s⟩
  | step {prog x op vars' s'} (run : PointerRun L G prog x) (small : op.Small)
      (hr : L.pointerOp x.vars op x.machine = .ok vars' s') (guard : G x op) :
      PointerRun L G (prog ++ [op]) ⟨vars', op.liveAfter x.live x.vars vars', s'⟩

/-- `kfree(v)` finds `NULL` or a held block in `v`, and an allocation that finds the free list
of its domain empty finds the cursor below the end of the region. -/
def FreesOnce (x : PointerState V) : PointerOp V → Prop
  | .kmalloc _ n => ∀ d, classOf n = some d → (x.machine.domains d).nextFreeBlock = 0 →
      (x.machine.domains d).nextVirtAddr < d.virtBase + 0x10000000
  | .copy _ _ => True
  | .kfree v => x.vars v = 0 ∨ ∃ n, x.live (x.vars v) = some n

theorem PointerRun.next {G : PointerState V → PointerOp V → Prop} {prog : List (PointerOp V)}
    {x : PointerState V} (run : PointerRun L G prog x) (op : PointerOp V) {vars' : V → ℕ}
    {s : State} (small : op.Small) (hr : L.pointerOp x.vars op x.machine = .ok vars' s)
    (guard : G x op) : PointerRun L G (prog ++ [op]) ⟨vars', op.liveAfter x.live x.vars vars', s⟩ :=
  .step run small hr guard

theorem Layout.kfreeHeap_null (L : Layout) (s : State) : L.kfreeHeap 0 s = .ok () s := rfl

/-- Such a run is a run of the heap. -/
theorem PointerRun.heapRun {prog : List (PointerOp V)} {x : PointerState V}
    (run : PointerRun L FreesOnce prog x) : HeapRun L InsideRegions x.live x.machine := by
  induction run with
  | boot h => exact .boot h
  | @step prog x op vars' s' run small hr guard ih =>
      cases op with
      | kmalloc v n =>
          obtain ⟨a, t, ha, hr⟩ := run_bind_eq_ok.mp hr
          cases hr
          obtain ⟨d, hd⟩ : ∃ d, classOf n = some d :=
            Option.ne_none_iff_exists'.mp fun hnone => absurd (classOf_eq_none.mp hnone) (not_lt.mpr small)
          have hlegal : Legal x.live (.kmalloc n) := trivial
          have hcall := ih.call hlegal ha
            ⟨by simp only [HeapOp.large, hd, reduceCtorEq, if_false], fun c k hop hnil => ?_⟩
          · simp only [PointerOp.liveAfter, Function.update_self]
            exact hcall
          · simp only [HeapOp.small, hd, Option.map_some, Option.some.injEq, Prod.mk.injEq] at hop
            obtain ⟨rfl, rfl⟩ := hop
            exact guard d hd hnil
      | copy w v =>
          cases hr
          exact ih
      | kfree v =>
          obtain ⟨⟨⟩, t, ha, hr⟩ := run_bind_eq_ok.mp hr
          cases hr
          rcases guard with hnull | hheld
          · rw [hnull, L.kfreeHeap_null] at ha
            cases ha
            obtain ⟨⟨use, m, hs⟩, _⟩ := ih.insideRegions
            have hnone : x.live 0 = none := by
              cases h0 : x.live 0 with
              | none => rfl
              | some n =>
                  have := hs.heap.heap 0 n h0
                  omega
            show HeapRun L InsideRegions (Function.update x.live (x.vars v) none) x.machine
            rw [hnull, ← hnone, Function.update_eq_self]
            exact ih
          · have hlegal : Legal x.live (.kfree (x.vars v)) := hheld
            exact ih.call hlegal
              (by rw [Layout.heapCall, run_bind_ok ha]; rfl)
              ⟨rfl, fun d n hop => by cases hop⟩

/-- While nothing is freed through a stale copy, no block is twice on a free list, no block on a
free list is held, and what an allocation returns was not held. -/
theorem freed_once {prog : List (PointerOp V)} {x : PointerState V}
    (run : PointerRun L FreesOnce prog x) :
    (∀ d, ∃ l, FreeList L x.machine d l ∧ l.Nodup ∧ ∀ b ∈ l, x.live b = none) ∧
      ∀ (v : V) n vars' s', n ≤ 4096 → FreesOnce x (.kmalloc v n) →
        L.pointerOp x.vars (.kmalloc v n) x.machine = .ok vars' s' → x.live (vars' v) = none := by
  obtain ⟨⟨use, m, hs⟩, _⟩ := run.heapRun.insideRegions
  refine ⟨fun d => ?_, fun v n vars' s' hn hguard hr => ?_⟩
  · obtain ⟨l, hl, hmem⟩ := (hs.heap.dom d).chain
    exact ⟨l, hl, hl.nodup, fun b hb => ((hmem b).mp hb).2⟩
  · obtain ⟨a, t, ha, hr⟩ := run_bind_eq_ok.mp hr
    cases hr
    obtain ⟨d, hd⟩ : ∃ d, classOf n = some d :=
      Option.ne_none_iff_exists'.mp fun hnone => absurd (classOf_eq_none.mp hnone) (not_lt.mpr hn)
    rw [L.kmalloc_small hd] at ha
    obtain ⟨use', _, hpop⟩ := (hs.heap.domainAlloc d (classOf_le hd) le_rfl
      (fun hnil => ⟨hguard d hd hnil, hs.room⟩)).ok ha
    rw [Function.update_self]
    exact hpop.fresh

/-! ### A free through a copy -/

/-- The head of the free list of `d` is its own successor. -/
def SelfLinked (L : Layout) (d : SizeClass) (b : ℕ) (s : State) : Prop :=
  b ≠ 0 ∧ (s.domains d).nextFreeBlock = b ∧ s.peek L.dirFrame b = some b

theorem SelfLinked.no_freeList {d : SizeClass} {b : ℕ} {s : State} (h : SelfLinked L d b s) :
    ¬ ∃ l, FreeList L s d l := by
  rintro ⟨l, hl⟩
  obtain ⟨hb0, hhead, hpeek⟩ := h
  rw [FreeList, hhead] at hl
  obtain ⟨next, t, rfl, hnext, ht⟩ := hl.cases_ne hb0
  obtain rfl : b = next := Option.some.inj (hpeek.symm.trans hnext)
  have heq := congrArg List.length (hl.unique ht)
  simp at heq

/-- Releasing a block twice links it to itself. -/
theorem HeapInv.free_twice {use : ℕ → Use} {live ranges : ℕ → Option ℕ} {s : State}
    (h : HeapInv L use live ranges s) {d : SizeClass} {b n : ℕ} (hb : live b = some n)
    (h1 : d.virtBase ≤ b) (h2 : b < d.virtBase + 0x10000000) :
    ∃ s₁ s₂, L.heapDomainFree d b s = .ok () s₁ ∧ L.heapDomainFree d b s₁ = .ok () s₂ ∧
      SelfLinked L d b s₂ := by
  have hbase := d.virtBase_bounds
  have hb0 : b ≠ 0 := by omega
  obtain ⟨t, s₁, hrun, -, hs₁, hpages, hdom⟩ := (h.dom d).free h.pages hb h1 h2
  have hhead : (s₁.domains d).nextFreeBlock = b := by rw [hs₁, State.setDomain_self]
  have hback : Backed use (b / 4096) := by
    obtain ⟨l, hl, hmem⟩ := hdom.chain
    obtain ⟨_, u, rfl, _, _⟩ := hl.cases_ne (by rw [hhead]; exact hb0)
    rw [hhead] at hmem
    exact (hdom.backed_block ((hmem b).mp List.mem_cons_self).1).1
  obtain ⟨s₂, hrun₂, -, hst⟩ := hpages.store hback (v := b) (by omega)
  refine ⟨s₁, s₂.setDomain d (fun r => { r with nextFreeBlock := b }), hrun, ?_, hb0, ?_, ?_⟩
  · unfold Layout.heapDomainFree
    rw [if_neg hb0]
    show (getDomain d >>= fun domain => _) s₁ = _
    rw [run_bind_ok (show getDomain d s₁ = .ok (s₁.domains d) s₁ from rfl), hhead,
      run_bind_ok hrun₂]
    rfl
  · rw [State.setDomain_self]
  · rw [State.peek_setDomain, hst.peek b hback, if_pos rfl]

theorem SelfLinked.alloc {d : SizeClass} {b : ℕ} {s : State} (h : SelfLinked L d b s) :
    ∃ s', L.heapDomainAlloc d s = .ok b s' ∧ SelfLinked L d b s' := by
  obtain ⟨hb0, hhead, hpeek⟩ := h
  refine ⟨s.setDomain d fun r => { r with nextFreeBlock := b }, ?_, hb0, ?_, ?_⟩
  · unfold Layout.heapDomainAlloc
    rw [run_bind_ok (show getDomain d s = .ok (s.domains d) s from rfl), hhead, if_pos hb0,
      run_bind_ok (L.load_of_peek hpeek), run_bind_ok (modifyDomain_run ..)]
    rfl
  · rw [State.setDomain_self]
  · rw [State.peek_setDomain, hpeek]

end Programs

/-- A block of `heap_64` after booting, and what two calls of `kfree_heap` on it do. -/
theorem exists_block_freed_twice :
    ∃ s a s₁ s₂ s₃, Layout.lowest.boot (State.powerOn fun _ _ => 0) = .ok () s ∧
      (s.domains .heap64).nextFreeBlock ≠ 0 ∧ a ≠ 0 ∧
      Layout.lowest.kmalloc 64 s = .ok a s₁ ∧ Layout.lowest.kfreeHeap a s₁ = .ok () s₂ ∧
      Layout.lowest.kfreeHeap a s₂ = .ok () s₃ ∧ SelfLinked Layout.lowest .heap64 a s₃ := by
  obtain ⟨use, m, s, hboot, hb⟩ := Layout.lowest.boot_spec fun _ _ => 0
  have hne := hb.head_ne_zero .heap64
  obtain ⟨a, s₁, _, hr₁, ha, _⟩ := hb.heap.alloc_ok hne
  obtain ⟨use₁, h₁, hpop⟩ := (hb.heap.domainAlloc .heap64 (n := 64) (m := 0x40000) le_rfl
    (by norm_num) (fun hnil => absurd hnil hne)).ok hr₁
  obtain ⟨hlo, hhi⟩ := hpop.region (h₁.dom .heap64)
  obtain ⟨s₂, s₃, hr₂, hr₃, hself⟩ := h₁.free_twice (Function.update_self ..) hlo hhi
  have hfree := Layout.lowest.kfreeHeap_small hlo hhi
  exact ⟨s, a, s₁, s₂, s₃, hboot, hne, ha,
    by rw [Layout.lowest.kmalloc_small (show classOf 64 = some .heap64 from rfl)]; exact hr₁,
    by rw [hfree]; exact hr₂, by rw [hfree]; exact hr₃, hself⟩

/-- A program that frees its pointer, and the `NULL` the macro has left. -/
theorem freed_once_null :
    ∃ x : PointerState ℕ,
      PointerRun Layout.lowest FreesOnce [.kmalloc 0 64, .kfree 0, .kfree 0] x ∧
      ∃ l, FreeList Layout.lowest x.machine .heap64 l ∧ l.Nodup := by
  obtain ⟨s, a, s₁, s₂, s₃, hboot, hne, ha, hr₁, hr₂, _⟩ := exists_block_freed_twice
  have run₀ : PointerRun Layout.lowest (FreesOnce (V := ℕ)) [] ⟨_, _, s⟩ := .boot hboot
  have run₁ := run₀.next (.kmalloc 0 64) (show 64 ≤ 4096 by norm_num)
    (run_bind_ok hr₁) (fun d hd hnil => by cases hd; exact absurd hnil hne)
  have run₂ := run₁.next (.kfree 0) trivial (run_bind_ok hr₂)
    (Or.inr ⟨64, PointerOp.liveAfter_kmalloc ha⟩)
  have run₃ := run₂.next (.kfree 0) trivial (run_bind_ok rfl) (Or.inl rfl)
  obtain ⟨l, hl, hnodup, -⟩ := (freed_once run₃).1 .heap64
  exact ⟨_, run₃, l, hl, hnodup⟩

/-- `v = kmalloc(64); w = v; kfree(v); kfree(w)` puts a block on the free list of `heap_64` twice,
and the next two allocations return it both. -/
theorem freed_through_copy :
    ∃ x y : PointerState ℕ,
      PointerRun Layout.lowest (fun _ _ => True)
        [.kmalloc 0 64, .copy 1 0, .kfree 0, .kfree 1] x ∧
      (¬ ∃ l, FreeList Layout.lowest x.machine .heap64 l) ∧
      PointerRun Layout.lowest (fun _ _ => True)
        [.kmalloc 0 64, .copy 1 0, .kfree 0, .kfree 1, .kmalloc 2 64, .kmalloc 3 64] y ∧
      y.vars 2 = y.vars 3 ∧ y.vars 2 ≠ 0 ∧ y.live (y.vars 2) = some 64 := by
  obtain ⟨s, a, s₁, s₂, s₃, hboot, _, ha, hr₁, hr₂, hr₃, hself⟩ := exists_block_freed_twice
  obtain ⟨s₄, hr₄, hself₄⟩ := hself.alloc
  obtain ⟨s₅, hr₅, _⟩ := hself₄.alloc
  have hmalloc : Layout.lowest.kmalloc 64 = Layout.lowest.heapDomainAlloc .heap64 :=
    Layout.lowest.kmalloc_small rfl
  have run₀ : PointerRun Layout.lowest (fun _ (_ : PointerOp ℕ) => True) [] ⟨_, _, s⟩ := .boot hboot
  have run₁ := run₀.next (.kmalloc 0 64) (show 64 ≤ 4096 by norm_num)
    (run_bind_ok hr₁) trivial
  have run₂ := run₁.next (.copy 1 0) trivial rfl trivial
  have run₃ := run₂.next (.kfree 0) trivial (run_bind_ok hr₂) trivial
  have run₄ := run₃.next (.kfree 1) trivial (run_bind_ok hr₃) trivial
  have run₅ := run₄.next (.kmalloc 2 64) (show 64 ≤ 4096 by norm_num)
    (run_bind_ok (by rw [hmalloc]; exact hr₄)) trivial
  have run₆ := run₅.next (.kmalloc 3 64) (show 64 ≤ 4096 by norm_num)
    (run_bind_ok (by rw [hmalloc]; exact hr₅)) trivial
  refine ⟨_, _, run₄, hself.no_freeList, run₆, rfl, ha, ?_⟩
  exact PointerOp.liveAfter_kmalloc ha

end RaxzusHeap
