import RaxzusHeap.Lib.Replay
import RaxzusHeap.SmallRuns

/-! # A size class is determined by its own history

The frames a class gets depend on everything that happened before; its pointers do not.
`classServer d` is a size class without frames and without memory: a cursor and a list of
free blocks.  `Effect.shows` says that in a sound heap the kernel's class does what this server
does, and that every other call leaves it alone, so two runs in which the requests to a class
coincide hand out the same pointers (`class_pointers_unaffected`). -/

namespace RaxzusHeap

open Imperative FirstFit Linked Replay

/-! ### The abstract class -/

/-- The state of a size class that its pointers depend on. -/
structure ClassState where
  cursor : ℕ
  free : List ℕ
deriving DecidableEq, Repr

/-- A size class as a server of blocks: the first free block is next, and a returned block
goes to the front. -/
def classServer (d : SizeClass) : Server ClassState ℕ where
  start := ⟨d.virtBase + PREMAP_PAGES * 4096, premappedBlocks d PREMAP_PAGES⟩
  next v := (nextBlocks d v.cursor v.free).head?
  give v :=
    { cursor := if v.free = [] then v.cursor + 4096 else v.cursor
      free := (nextBlocks d v.cursor v.free).tail }
  take v p := { v with free := p :: v.free }

@[simp] theorem classServer_next (d : SizeClass) (v : ClassState) :
    (classServer d).next v = (nextBlocks d v.cursor v.free).head? := rfl

@[simp] theorem classServer_give_free (d : SizeClass) (v : ClassState) :
    ((classServer d).give v).free = (nextBlocks d v.cursor v.free).tail := rfl

/-- What a call means to class `d`: a block handed out, a block taken back, or nothing. -/
def HeapCall.event (d : SizeClass) (c : HeapCall) : Option (Replay.Event ℕ) :=
  if c.op.small.map Prod.fst = some d then some (.gave c.result)
  else
    match c.op.freed with
    | some p =>
        if d.virtBase ≤ p ∧ p < d.virtBase + 0x10000000 then some (.took p) else none
    | none => none

/-- The events of class `d` in a run, the last one first. -/
def history (d : SizeClass) (calls : List HeapCall) : List (Replay.Event ℕ) :=
  calls.filterMap (HeapCall.event d)

/-- The pointers that class `d` handed out in a run, the last one first. -/
def pointers (d : SizeClass) (calls : List HeapCall) : List ℕ :=
  (history d calls).filterMap Replay.Event.given

/-! ### The kernel's class does what the abstract one does -/

/-- The kernel's class `d` is in the state `v`. -/
def Shows (L : Layout) (d : SizeClass) (s : State) (v : ClassState) : Prop :=
  (s.domains d).nextVirtAddr = v.cursor ∧ FreeList L s d v.free

section Shows

variable {L : Layout} {use use' : ℕ → Use} {live : ℕ → Option ℕ} {d : SizeClass} {s s' : State}
  {v : ClassState}

theorem Booted.shows {m : ℕ} (h : Booted L use m s) (d : SizeClass) :
    Shows L d s (classServer d).start :=
  ⟨h.cursor d, h.list d⟩

theorem Shows.head_eq_zero (h : Shows L d s v) : (s.domains d).nextFreeBlock = 0 ↔ v.free = [] := by
  constructor
  · intro h0
    have hl := h.2
    rw [FreeList, h0] at hl
    exact hl.eq_nil
  · intro hnil
    have hl := h.2
    rw [hnil] at hl
    exact hl.of_nil

theorem Shows.popped {a : ℕ} (h : Shows L d s v) (hpop : Popped L d use live s a use' s') :
    (classServer d).next v = some a ∧ Shows L d s' ((classServer d).give v) := by
  obtain ⟨hcursor, hl⟩ := h
  obtain ⟨t, hnext, ht⟩ := hpop.list _ hl
  rw [hcursor] at hnext
  have hnil := Shows.head_eq_zero ⟨hcursor, hl⟩
  refine ⟨by simp [hnext], ?_, ?_⟩
  · cases hpop.growth with
    | inl hfast =>
        obtain ⟨hne, -, -, -, -, hcur⟩ := hfast
        rw [hcur, hcursor]
        exact (if_neg (fun hv => hne (hnil.mpr hv))).symm
    | inr hslow =>
        obtain ⟨h0, s₁, hx, -, -, -, hcur⟩ := hslow
        rw [hcur, hx.cursor, hcursor]
        exact (if_pos (hnil.mp h0)).symm
  · simpa [hnext] using ht

/-- `heap_domain_free` puts the block in front. -/
theorem Shows.pushed (h : Shows L d s v) (hp : HeapPages L use s) (hd : DomainInv L use live d s)
    {p n : ℕ} (hlive : live p = some n) (h1 : d.virtBase ≤ p) (h2 : p < d.virtBase + 0x10000000)
    (hr : L.heapDomainFree d p s = .ok () s') :
    Shows L d s' ((classServer d).take v p) := by
  obtain ⟨hcursor, hl⟩ := h
  obtain ⟨s₁, t, hrun, hst, rfl, -, -⟩ := hd.free hp hlive h1 h2
  rw [hrun] at hr
  cases hr
  have hself := s₁.setDomain_self d fun r => { r with nextFreeBlock := p }
  refine ⟨by rw [hself, hst.vars.domains]; exact hcursor, ?_⟩
  obtain ⟨hblock, -⟩ := hd.live p n hlive h1 h2
  have hbase := d.virtBase_bounds
  have hnotin : p ∉ v.free := by
    intro hmem
    have hnone := ((hd.mem_freeList hl).mp hmem).2
    rw [hlive] at hnone
    cases hnone
  rw [FreeList, hself]
  apply hl.push (by omega) hnotin
  · rw [State.peek_setDomain, hst.peek p (hd.backed_block hblock).1, if_pos rfl]
  · intro c hcp hc
    have hcblock := ((hd.mem_freeList hl).mp hc).1
    have hdisj := hcblock.disjoint hblock hcp
    have hsize := d.blockSize_ge
    rw [State.peek_setDomain, hst.peek c (hd.backed_block hcblock).1, if_neg (by omega)]

/-- A class whose record and free blocks were left alone is in the state it was in. -/
theorem Shows.other (h : Shows L d s v) (hd : DomainInv L use live d s)
    (hdom : s'.domains d = s.domains d)
    (hpeek : ∀ b, d.IsBlock (s.domains d).nextVirtAddr b → live b = none →
      s'.peek L.dirFrame b = s.peek L.dirFrame b) : Shows L d s' v := by
  obtain ⟨hcursor, hl⟩ := h
  refine ⟨by rw [hdom]; exact hcursor, ?_⟩
  rw [FreeList, hdom]
  apply hl.congr
  intro b hb
  obtain ⟨hblock, hnone⟩ := (hd.mem_freeList hl).mp hb
  exact hpeek b hblock hnone

end Shows

/-! ### Calls -/

namespace HeapCall

variable {c : HeapCall} {d : SizeClass}

theorem event_small {e : SizeClass} {n : ℕ} (h : c.op.small = some (e, n)) :
    c.event d = if e = d then some (.gave c.result) else none := by
  have hfreed := HeapOp.freed_of_small h
  simp [HeapCall.event, h, hfreed]

theorem event_freed {p : ℕ} (h : c.op.freed = some p) :
    c.event d = if d.virtBase ≤ p ∧ p < d.virtBase + 0x10000000 then some (.took p) else none := by
  have hsmall : c.op.small = none := by
    cases hop : c.op.small with
    | none => rfl
    | some x =>
        rw [HeapOp.freed_of_small hop] at h
        cases h
  simp [HeapCall.event, h, hsmall]

theorem event_large {n : ℕ} (h : c.op.large = some n) : c.event d = none := by
  have hsmall : c.op.small = none := by
    cases hop : c.op.small with
    | none => rfl
    | some x =>
        rw [HeapOp.large_of_small hop] at h
        cases h
  have hfreed : c.op.freed = none := by
    cases hop : c.op with
    | kmallocLarge | kmalloc => rfl
    | domainAlloc | domainFree | kfreeLarge | kfree | write =>
        rw [hop] at h
        cases h
  simp [HeapCall.event, hsmall, hfreed]

end HeapCall

/-- A release of a block of class `d` is `heap_domain_free`. -/
theorem Layout.heapCall_freed (L : Layout) {live : ℕ → Option ℕ} {op : HeapOp} {d : SizeClass}
    {p a : ℕ} {s s' : State} (hlegal : Legal live op) (hop : op.freed = some p)
    (h1 : d.virtBase ≤ p) (h2 : p < d.virtBase + 0x10000000)
    (hr : L.heapCall op s = .ok a s') : L.heapDomainFree d p s = .ok () s' := by
  have hfree : (do L.heapDomainFree d p; pure 0 : Kernel ℕ) s = .ok a s' := by
    cases op with
    | domainFree e q =>
        cases hop
        obtain ⟨-, h3, h4⟩ := hlegal
        obtain rfl := region_unique h1 h2 h3 h4
        exact hr
    | kfreeLarge q =>
        cases hop
        have hge := hlegal.2
        have hbase := d.virtBase_bounds
        omega
    | kfree q =>
        cases hop
        rw [Layout.heapCall, L.kfreeHeap_small h1 h2] at hr
        exact hr
    | domainAlloc | kmallocLarge | kmalloc | write => cases hop
  obtain ⟨⟨⟩, t, hrun, hret⟩ := run_bind_eq_ok.mp hfree
  cases hret
  exact hrun

/-- The state of class `d` after a call. -/
def ClassState.afterCall (d : SizeClass) (c : HeapCall) (v : ClassState) : ClassState :=
  match c.event d with
  | some e => (classServer d).after v e
  | none => v

/-- The class does what the server does, when the call concerns it, and stays as it is when
not. -/
theorem Effect.shows {L : Layout} {use use' : ℕ → Use} {ranges ranges' : ℕ → Option ℕ}
    {c : HeapCall} (h : HeapInv L use c.live ranges c.before)
    (he : Effect L use c.live ranges c.before c.op c.result use' ranges' c.after)
    (hlegal : Legal c.live c.op) (hr : L.heapCall c.op c.before = .ok c.result c.after)
    {d : SizeClass} {v : ClassState} (hv : Shows L d c.before v) :
    (∀ e, c.event d = some e → (classServer d).Offers v e) ∧ Shows L d c.after (v.afterCall d c) := by
  have hdom := h.dom d
  have hbound := d.virtBase_bounds
  -- a call that does not concern the class
  have hquiet : c.event d = none → c.after.domains d = c.before.domains d →
      (∀ b, d.IsBlock (c.before.domains d).nextVirtAddr b → c.live b = none →
        c.after.peek L.dirFrame b = c.before.peek L.dirFrame b) →
      (∀ e, c.event d = some e → (classServer d).Offers v e) ∧
        Shows L d c.after (v.afterCall d c) := by
    intro hnone hrec hpeek
    refine ⟨fun e hev => absurd hev (by simp [hnone]), ?_⟩
    rw [ClassState.afterCall, hnone]
    exact hv.other hdom hrec hpeek
  obtain ⟨live, s, op, a, s'⟩ := c
  dsimp only at *
  cases he with
  | @popped _ e n _ _ _ hop ha hpop =>
      have hev := HeapCall.event_small (c := ⟨live, s, op, a, s'⟩) (d := d) hop
      by_cases hed : e = d
      · subst hed
        rw [if_pos rfl] at hev
        obtain ⟨hnext, hshows⟩ := hv.popped hpop
        refine ⟨fun x hx => ?_, ?_⟩
        · rw [hev] at hx
          cases hx
          exact hnext
        · rw [ClassState.afterCall, hev]
          exact hshows
      · rw [if_neg hed] at hev
        refine hquiet hev (hpop.others.domains d (Ne.symm hed)) fun b hb _ => ?_
        exact hpop.same b (hdom.backed_block hb).1
  | @pushed _ p _ e hop hlive h1 h2 others _ peek _ _ _ =>
      have hev := HeapCall.event_freed (c := ⟨live, s, op, 0, s'⟩) (d := d) hop
      by_cases hed : e = d
      · subst hed
        rw [if_pos ⟨h1, h2⟩] at hev
        obtain ⟨n, hn⟩ := Option.ne_none_iff_exists'.mp hlive
        refine ⟨fun x hx => ?_, ?_⟩
        · rw [hev] at hx
          cases hx
          exact trivial
        · rw [ClassState.afterCall, hev]
          exact hv.pushed h.pages hdom hn h1 h2 (L.heapCall_freed hlegal hop h1 h2 hr)
      · have hdisj := SizeClass.region_disjoint hed
        rw [if_neg (by omega)] at hev
        refine hquiet hev (others.domains d (Ne.symm hed)) fun b hb _ => ?_
        obtain ⟨hback, hlt⟩ := hdom.backed_block hb
        have hge := hb.1
        have hmod := d.virtBase_mod
        have hmod' := e.virtBase_mod
        exact peek b hback (by omega)
  | @carved _ n q _ _ hop hc =>
      have hlo := hc.lo
      refine hquiet (HeapCall.event_large hop) (congrFun hc.vars.domains d) fun b hb _ => ?_
      obtain ⟨hback, hlt⟩ := hdom.backed_block hb
      exact hc.same b hback (.inl (by omega))
  | @returned _ q _ _ _ hop hlive hret =>
      have hlo := hret.lo
      refine hquiet ?_ (congrFun hret.vars.domains d) fun b hb _ => ?_
      · rw [HeapCall.event_freed hop, if_neg (by omega)]
      · obtain ⟨hback, hlt⟩ := hdom.backed_block hb
        exact hret.same b ((hret.backed _).mpr ⟨hback, .inl (by omega)⟩) (by omega)
  | wrote hp hk _ _ hst =>
      refine hquiet rfl (congrFun hst.vars.domains d) fun b hb hnone => ?_
      rw [hst.peek b (hdom.backed_block hb).1, if_neg (h.free_apart hp hb hnone hk)]
  | refused hop => exact hquiet (HeapCall.event_large hop) rfl fun _ _ _ => rfl

/-! ### Runs -/

/-- Along a run whose calls have their effect the class goes through the states of the server,
and hands out what the server prescribes; `I` is the invariant that gives the effect. -/
theorem HeapTrace.shows {L : Layout} {G : HeapCall → Prop} {I : (ℕ → Option ℕ) → State → Prop}
    {use : ℕ → Use} {m : ℕ} {s₀ s : State} {live : ℕ → Option ℕ} {calls : List HeapCall}
    (hb : Booted L use m s₀) (h0 : I noLive s₀)
    (hstep : ∀ c : HeapCall, I c.live c.before → Legal c.live c.op →
      L.heapCall c.op c.before = .ok c.result c.after → G c →
      I (liveAfter c.live c.op c.result) c.after ∧
        ∃ use ranges use' ranges', HeapInv L use c.live ranges c.before ∧
          Effect L use c.live ranges c.before c.op c.result use' ranges' c.after)
    (run : HeapTrace L G noLive s₀ calls live s) (d : SizeClass) :
    I live s ∧ (classServer d).Genuine (history d calls) ∧
      Shows L d s ((classServer d).replay (history d calls)) := by
  induction run with
  | nil => exact ⟨h0, .nil, hb.shows d⟩
  | @snoc calls live' s' op a s'' _ legal hr guard ih =>
      obtain ⟨hs, hgen, hshow⟩ := ih
      obtain ⟨hs', use₁, ranges, use₂, ranges', h, he⟩ :=
        hstep ⟨live', s', op, a, s''⟩ hs legal hr guard
      obtain ⟨hoffer, hshow'⟩ := Effect.shows (c := ⟨live', s', op, a, s''⟩) h he legal hr hshow
      refine ⟨hs', ?_⟩
      unfold ClassState.afterCall at hshow'
      unfold history
      cases hev : HeapCall.event d ⟨live', s', op, a, s''⟩ with
      | none =>
          rw [hev] at hshow'
          rw [List.filterMap_cons_none hev]
          exact ⟨hgen, hshow'⟩
      | some e =>
          rw [hev] at hshow'
          rw [List.filterMap_cons_some hev]
          exact ⟨.cons hgen (hoffer e hev), hshow'⟩

theorem HeapTrace.genuine {L : Layout} {use : ℕ → Use} {m : ℕ} {s₀ s : State}
    {live : ℕ → Option ℕ} {calls : List HeapCall} (hb : Booted L use m s₀)
    (run : HeapTrace L InsideRegions noLive s₀ calls live s) (d : SizeClass) :
    (classServer d).Genuine (history d calls) := by
  refine (run.shows (I := fun live s => ∃ use m, SmallHeap L use live m s) hb
    ⟨use, m, hb.smallHeap⟩ ?_ d).2.1
  rintro c ⟨use', m', hs⟩ legal hr guard
  obtain ⟨use₁, ranges, m₁, hs₁, he⟩ := hs.call legal hr guard
  exact ⟨⟨use₁, m₁, hs₁⟩, use', noLive, use₁, ranges, hs.heap, he⟩

/-- Whatever the other classes are asked for, in whatever order, and whatever memory holds:
the same requests to a class get the same pointers. -/
theorem class_pointers_unaffected {L L' : Layout} {mem mem' : ℕ → ℕ → Word} {s₀ s₀' s s' : State}
    {live live' : ℕ → Option ℕ} {calls calls' : List HeapCall} (d : SizeClass)
    (boot : L.boot (State.powerOn mem) = .ok () s₀)
    (run : HeapTrace L InsideRegions noLive s₀ calls live s)
    (boot' : L'.boot (State.powerOn mem') = .ok () s₀')
    (run' : HeapTrace L' InsideRegions noLive s₀' calls' live' s')
    (requests : SameShape (history d calls) (history d calls')) :
    pointers d calls = pointers d calls' := by
  obtain ⟨use, m, t, ht, hb⟩ := L.boot_spec mem
  rw [boot] at ht
  cases ht
  obtain ⟨use', m', t', ht', hb'⟩ := L'.boot_spec mem'
  rw [boot'] at ht'
  cases ht'
  unfold pointers
  rw [requests.eq (run.genuine hb d) (run'.genuine hb' d)]

/-- The first block of `heap_64`, with zeros in memory and with ones, and with a block of
`heap_128` taken before. -/
theorem class_pointers_unaffected_heap64 :
    ∃ s₀ a s s₀' b t c t',
      Layout.lowest.boot (State.powerOn fun _ _ => 0) = .ok () s₀ ∧
      Layout.lowest.kmalloc 64 s₀ = .ok a s ∧
      Layout.lowest.boot (State.powerOn fun _ _ => 1) = .ok () s₀' ∧
      Layout.lowest.kmalloc 100 s₀' = .ok b t ∧ Layout.lowest.kmalloc 64 t = .ok c t' ∧ a = c := by
  obtain ⟨use, m, s₀, hboot, hb⟩ := Layout.lowest.boot_spec fun _ _ => 0
  obtain ⟨use', m', s₀', hboot', hb'⟩ := Layout.lowest.boot_spec fun _ _ => 1
  obtain ⟨a, s, hr, -⟩ := hb.alloc_ok .heap64
  obtain ⟨b, t, u, hr₁, -, hpop⟩ := hb'.heap.alloc_ok (hb'.head_ne_zero .heap128)
  have hne₁ := hb'.head_ne_zero .heap64
  -- `heap_64` still has its blocks
  have hdom : t.domains .heap64 = s₀'.domains .heap64 := hpop.others.domains .heap64 (by decide)
  have hg₀ : InsideRegions ⟨noLive, s₀, .kmalloc 64, a, s⟩ := by
    refine ⟨rfl, fun d n hop hnil => ?_⟩
    cases hop
    exact absurd hnil (hb.head_ne_zero .heap64)
  have hg₁ : InsideRegions ⟨noLive, s₀', .kmalloc 100, b, t⟩ := by
    refine ⟨rfl, fun d n hop hnil => ?_⟩
    cases hop
    exact absurd hnil (hb'.head_ne_zero .heap128)
  obtain ⟨use₁, ranges₁, m₁, h₁, -⟩ :=
    hb'.smallHeap.call (c := ⟨noLive, s₀', .kmalloc 100, b, t⟩) trivial hr₁ hg₁
  rw [← hdom] at hne₁
  obtain ⟨c, t', -, hr₂, -⟩ := h₁.heap.alloc_ok hne₁
  have hg₂ : InsideRegions ⟨liveAfter noLive (.kmalloc 100) b, t, .kmalloc 64, c, t'⟩ := by
    refine ⟨rfl, fun d n hop hnil => ?_⟩
    cases hop
    exact absurd hnil hne₁
  have run := (HeapTrace.nil (L := Layout.lowest) (G := InsideRegions)).snoc
    (show Legal noLive (.kmalloc 64) from trivial) hr hg₀
  have run' := ((HeapTrace.nil (L := Layout.lowest) (G := InsideRegions)).snoc
    (show Legal noLive (.kmalloc 100) from trivial) hr₁ hg₁).snoc
    (show Legal _ (.kmalloc 64) from trivial) hr₂ hg₂
  have hsame := class_pointers_unaffected .heap64 hboot run hboot' run' (SameShape.nil.gave a c)
  exact ⟨s₀, a, s, s₀', b, t, c, t', hboot, hr, hboot', hr₁, hr₂, (List.cons.inj hsame).1⟩

end RaxzusHeap
