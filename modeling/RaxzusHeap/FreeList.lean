import RaxzusHeap.SmallRuns

/-! # The free list of a size-class domain

In every run on one domain, the free list is finite and without repetition, and together
with the live blocks it makes up exactly the blocks below the cursor
(`freeList_exact_on_domain`): nothing is handed out twice and nothing is lost. -/

namespace RaxzusHeap

open Imperative FirstFit Linked

/-- The calls on domain `d`: allocations, releases and writes of its client, which leave the
cursor inside the region. -/
def OnDomain (d : SizeClass) (c : HeapCall) : Prop :=
  (c.op = .domainAlloc d ∨ (∃ p, c.op = .domainFree d p) ∨ ∃ p k b, c.op = .write p k b) ∧
    (c.after.domains d).nextVirtAddr ≤ d.virtBase + 0x10000000

/-- The free list and the live blocks share out the blocks below the cursor. -/
structure FreeListExact (L : Layout) (d : SizeClass) (live : ℕ → Option ℕ) (s : State)
    (l : List ℕ) : Prop where
  chain : Chain (s.peek L.dirFrame) 0 (s.domains d).nextFreeBlock l
  nodup : l.Nodup
  free : ∀ b ∈ l, live b = none
  all : ∀ b, d.IsBlock (s.domains d).nextVirtAddr b ↔ b ∈ l ∨ ∃ n, live b = some n

section Runs

variable {L : Layout} {d : SizeClass}

/-- The slow path of such a call starts inside the region, as it ends there. -/
theorem OnDomain.inside {use : ℕ → Use} {m : ℕ} {c : HeapCall} (hG : OnDomain d c)
    (h : SmallHeap L use c.live m c.before)
    (hr : L.heapCall c.op c.before = .ok c.result c.after) : InsideRegions c := by
  obtain ⟨hop, hcursor⟩ := hG
  refine ⟨?_, ?_⟩
  · rcases hop with hop | ⟨p, hop⟩ | ⟨p, k, b, hop⟩ <;> rw [hop] <;> rfl
  · intro e n hsmall hnil
    have hed : c.op = .domainAlloc d ∧ e = d := by
      rcases hop with hop | ⟨p, hop⟩ | ⟨p, k, b, hop⟩ <;> rw [hop] at hsmall <;> cases hsmall
      exact ⟨hop, rfl⟩
    obtain ⟨hop, rfl⟩ := hed
    rw [hop] at hr
    obtain ⟨f, _, _, _, hf0, hframe⟩ := h.heap.pages.inv.processFrame h.room (by norm_num)
    obtain ⟨_, hnext⟩ := L.heapDomainAlloc_slow hr hnil hframe hf0
    have hbase := e.virtBase_bounds
    have hle := (h.heap.dom e).cursor_le
    rw [hnext, u32_of_lt (by omega)] at hcursor
    omega

/-- All live blocks of such a run are in the region of the domain. -/
theorem OnDomain.live_region {use use' : ℕ → Use} {ranges' : ℕ → Option ℕ} {c : HeapCall}
    (hG : OnDomain d c) {live' : ℕ → Option ℕ} (hd : DomainInv L use' live' d c.after)
    (he : Effect L use c.live noLive c.before c.op c.result use' ranges' c.after)
    (h : ∀ p n, c.live p = some n → d.virtBase ≤ p ∧ p < d.virtBase + 0x10000000) :
    ∀ p n, liveAfter c.live c.op c.result p = some n →
      d.virtBase ≤ p ∧ p < d.virtBase + 0x10000000 := by
  obtain ⟨live, s, op, a, s'⟩ := c
  dsimp only at he h ⊢
  intro p n hp
  have hremoved : ∀ b, Function.update live b none p = some n → live p = some n := by
    intro b hb
    exact (Extents.update_none hb).2
  rcases hG.1 with hop | ⟨q, hop⟩ | ⟨q, k, b, hop⟩
  · change op = _ at hop
    rw [hop] at hp he
    cases he with
    | popped hop' ha hpop =>
        cases hop'
        rw [liveAfter_small rfl ha] at hp
        by_cases hpa : p = a
        · rw [hpa]
          exact hpop.region hd
        · rw [Function.update_of_ne hpa] at hp
          exact h p n hp
    | pushed hop' => cases hop'
    | carved hop' => cases hop'
    | returned hop' => cases hop'
    | refused hop' => cases hop'
  · change op = _ at hop
    rw [hop] at hp
    exact h p n (hremoved q hp)
  · change op = _ at hop
    rw [hop] at hp
    exact h p n hp

theorem HeapRun.onDomain {live : ℕ → Option ℕ} {s : State} (h : HeapRun L (OnDomain d) live s) :
    (∃ use m, SmallHeap L use live m s) ∧
      ∀ p n, live p = some n → d.virtBase ≤ p ∧ p < d.virtBase + 0x10000000 := by
  apply h.invariant (I := fun live s => (∃ use m, SmallHeap L use live m s) ∧
    ∀ p n, live p = some n → d.virtBase ≤ p ∧ p < d.virtBase + 0x10000000)
  · intro use m t hb
    exact ⟨⟨use, m, hb.smallHeap⟩, fun p n hp => by cases hp⟩
  · rintro c ⟨⟨use, m, hs⟩, hregion⟩ hlegal hr hG
    obtain ⟨use', ranges', m', h', he⟩ := hs.call hlegal hr (hG.inside hs hr)
    exact ⟨⟨use', m', h'⟩, hG.live_region (h'.heap.dom d) he hregion⟩

/-- The free list of a domain is finite and duplicate-free, holds no live block, and with
the live blocks makes up the blocks below the cursor.  So what `heap_domain_alloc` returns
was not live. -/
theorem freeList_exact_on_domain {live : ℕ → Option ℕ} {s : State}
    (run : HeapRun L (OnDomain d) live s) :
    (∃ l, FreeListExact L d live s l) ∧
      ∀ a s', L.heapDomainAlloc d s = .ok a s' →
        (s'.domains d).nextVirtAddr ≤ d.virtBase + 0x10000000 →
        live a = none ∧ d.IsBlock (s'.domains d).nextVirtAddr a := by
  obtain ⟨⟨use, m, hs⟩, hregion⟩ := run.onDomain
  have hdom := hs.heap.dom d
  refine ⟨?_, ?_⟩
  · obtain ⟨l, hl, hmem⟩ := hdom.chain
    refine ⟨l, hl, hl.nodup, fun b hb => ((hmem b).mp hb).2, ?_⟩
    intro b
    constructor
    · intro hb
      cases hlive : live b with
      | none => exact Or.inl ((hmem b).mpr ⟨hb, hlive⟩)
      | some n => exact Or.inr ⟨n, rfl⟩
    · intro hb
      cases hb with
      | inl hb => exact ((hmem b).mp hb).1
      | inr hb =>
          obtain ⟨n, hb⟩ := hb
          obtain ⟨h1, h2⟩ := hregion b n hb
          exact (hdom.live b n hb h1 h2).1
  · intro a s' hr hcursor
    have hG : OnDomain d ⟨live, s, .domainAlloc d, a, s'⟩ := ⟨Or.inl rfl, hcursor⟩
    have hready : SmallReady d s := fun hnil =>
      ⟨(hG.inside hs hr).2 d _ rfl hnil, hs.room⟩
    obtain ⟨use', _, hpop⟩ := (hs.heap.domainAlloc d le_rfl le_rfl hready).ok hr
    exact ⟨hpop.fresh, hpop.block⟩

end Runs

/-- A block taken from the premapped pages of `heap_64`. -/
theorem freeList_exact_on_domain_heap64 :
    ∃ s a s', Layout.lowest.boot (State.powerOn fun _ _ => 0) = .ok () s ∧
      Layout.lowest.heapDomainAlloc .heap64 s = .ok a s' ∧ a ≠ 0 ∧
      ∃ l, FreeListExact Layout.lowest .heap64 (Function.update noLive a (some 64)) s' l := by
  obtain ⟨use, m, s, hboot, hb⟩ := Layout.lowest.boot_spec fun _ _ => 0
  obtain ⟨a, s', hr, ha, hcursor, _⟩ := hb.alloc_ok .heap64
  have run : HeapRun Layout.lowest (OnDomain .heap64)
      (liveAfter noLive (.domainAlloc .heap64) a) s' :=
    (HeapRun.boot hboot).call (show Legal noLive (.domainAlloc .heap64) from trivial) hr
      ⟨Or.inl rfl, by show (s'.domains _).nextVirtAddr ≤ _; rw [hcursor]; omega⟩
  refine ⟨s, a, s', hboot, hr, ha, ?_⟩
  have := (freeList_exact_on_domain run).1
  rwa [liveAfter_small rfl ha] at this

end RaxzusHeap
