import RaxzusHeap.Domain
import RaxzusHeap.Large

/-! # How many frames an operation takes

The frame searches take one frame, `map_page` takes one for a table, and each page that
`kmalloc_large` maps takes three (`FrameCount.largeMapPage`).  These bounds hold from any state
whatsoever, so they also apply where a call stops half-way (`LargeInv.costs`). -/

namespace RaxzusHeap

open Imperative FirstFit Bits

/-- At least `n` frames below frame number `m` are clear. -/
def RoomBelow (m n : ℕ) (s : State) : Prop := Room s.allocated n m

theorem RoomBelow.anti {m : ℕ} (n n' : ℕ) (s : State) (h : n' ≤ n) (hs : RoomBelow m n s) :
    RoomBelow m n' s := Room.mono hs h le_rfl

theorem RoomBelow.congr {m n : ℕ} {s s' : State} (hs : RoomBelow m n s)
    (ha : ∀ g, s'.allocated g = s.allocated g) : RoomBelow m n s' := by
  have hsame : s'.allocated = s.allocated := funext ha
  unfold RoomBelow at hs ⊢
  rw [hsame]
  exact hs

/-- Setting bits of other words than the bitmap's changes nothing, and each word holds the
bits of its own frames. -/
theorem State.allocated_or (s : State) (i : ℤ) (b g : ℕ) :
    (s.setBitmap i (s.bitmap i ||| 1#32 <<< b)).allocated g =
      (s.allocated g || decide (i = ((g / 32 : ℕ) : ℤ) ∧ g % 32 = b)) := by
  have hg : g % 32 < 32 := Nat.mod_lt _ (by norm_num)
  unfold State.allocated State.setBitmap
  cases eq_or_ne ((g / 32 : ℕ) : ℤ) i with
  | inl h =>
      subst h
      simp only [if_true, true_and]
      exact getLsbD_or_one_shiftLeft hg
  | inr h =>
      simp only [if_neg h, h.symm, false_and, decide_false, Bool.or_false]

theorem RoomBelow.or {m n : ℕ} {s : State} (hs : RoomBelow m (n + 1) s) (i : ℤ) {b : ℕ}
    (hb : b < 32) : RoomBelow m n (s.setBitmap i (s.bitmap i ||| 1#32 <<< b)) := by
  by_cases hi : 0 ≤ i
  · obtain ⟨k, rfl⟩ := Int.eq_ofNat_of_zero_le hi
    apply Room.take (f := k * 32 + b) hs
    intro g
    rw [s.allocated_or]
    have hbit : ((k : ℤ) = ((g / 32 : ℕ) : ℤ) ∧ g % 32 = b) ↔ g = k * 32 + b := by omega
    simp only [hbit]
  · have hsame : (s.setBitmap i (s.bitmap i ||| 1#32 <<< b)).allocated = s.allocated := by
      funext g
      rw [s.allocated_or]
      have hno : ¬ (i = ((g / 32 : ℕ) : ℤ) ∧ g % 32 = b) := by omega
      rw [decide_eq_false hno, Bool.or_false]
    exact (hs.anti (n + 1) n s (Nat.le_succ n)).congr (congrFun hsame)

section Costs

variable {m : ℕ}

theorem costs_setFrame (addr : ℕ) : Costs (RoomBelow m) 1 (setFrame addr) := by
  intro n s hs
  unfold setFrame
  by_cases h : 0xC0000000 ≤ addr
  · rw [if_pos h]
    exact hs.anti (n + 1) n s (Nat.le_succ n)
  · rw [if_neg h]
    exact hs.or _ (by omega)

theorem costs_incrementUsedFrames : Costs (RoomBelow m) 0 incrementUsedFrames :=
  fun _ _ hs => hs

theorem kernelBitLoop_none {safeStart index : ℕ} {s t : State} :
    ∀ n b w, kernelBitLoop safeStart index n b w s = .ok none t → t = s
  | 0, _, _, h => by
      cases h
      rfl
  | n + 1, b, w, h => by
      have ih := @kernelBitLoop_none safeStart index s t n (b + 1) (w <<< 1)
      rw [kernelBitLoop, run_bind_ok (run_get s)] at h
      split_ifs at h
      · exact ih h
      · obtain ⟨_, _, _, h⟩ := run_bind_eq_ok.mp h
        obtain ⟨_, _, _, h⟩ := run_bind_eq_ok.mp h
        cases h
      · exact ih h

theorem costs_kernelBitLoop (safeStart index : ℕ) :
    ∀ n b w, Costs (RoomBelow m) 1 (kernelBitLoop safeStart index n b w)
  | 0, _, _ => (Costs.pure _).mono RoomBelow.anti (Nat.zero_le 1)
  | n + 1, b, w => by
      have ih := costs_kernelBitLoop safeStart index n (b + 1) (w <<< 1)
      intro k s hs
      rw [kernelBitLoop, run_bind_ok (run_get s)]
      split_ifs
      · exact ih k s hs
      · exact ((costs_setFrame _).bind RoomBelow.anti fun _ =>
          costs_incrementUsedFrames.bind RoomBelow.anti fun _ => Costs.pure _) k s hs
      · exact ih k s hs

theorem costs_kernelWordLoop (safeStart : ℕ) :
    ∀ n index, Costs (RoomBelow m) 1 (kernelWordLoop safeStart n index)
  | 0, _ => (Costs.pure _).mono RoomBelow.anti (Nat.zero_le 1)
  | n + 1, index => by
      have ih := costs_kernelWordLoop safeStart n (index + 1)
      intro k s hs
      rw [kernelWordLoop, run_bind_ok (run_get s)]
      split_ifs
      · exact ih k s hs
      · have hbits := costs_kernelBitLoop (m := m) safeStart index 32 0 1 k s hs
        cases hr : kernelBitLoop safeStart index 32 0 1 s with
        | ok o t =>
            rw [run_bind_ok hr]
            cases o with
            | some a =>
                rw [hr] at hbits
                exact hbits
            | none =>
                rw [kernelBitLoop_none 32 0 1 hr]
                exact ih k s hs
        | error e t =>
            rw [run_bind_error hr]
            rw [hr] at hbits
            exact hbits

theorem processBitLoop_none {index : ℕ} {s t : State} :
    ∀ n b w, processBitLoop index n b w s = .ok none t → t = s
  | 0, _, _, h => by
      cases h
      rfl
  | n + 1, b, w, h => by
      have ih := @processBitLoop_none index s t n (b + 1) (w <<< 1)
      rw [processBitLoop] at h
      simp only [] at h
      split_ifs at h
      · rw [run_bind_error (run_throw _ s)] at h
        cases h
      · rw [run_bind_ok (run_get s)] at h
        split_ifs at h
        · obtain ⟨_, _, _, h⟩ := run_bind_eq_ok.mp h
          obtain ⟨_, _, _, h⟩ := run_bind_eq_ok.mp h
          cases h
        · exact ih h

theorem costs_processBitLoop (index : ℕ) :
    ∀ n b w, Costs (RoomBelow m) 1 (processBitLoop index n b w)
  | 0, _, _ => (Costs.pure _).mono RoomBelow.anti (Nat.zero_le 1)
  | n + 1, b, w => by
      have ih := costs_processBitLoop index n (b + 1) (w <<< 1)
      intro k s hs
      rw [processBitLoop]
      simp only []
      split_ifs
      · rw [run_bind_error (run_throw _ s)]
        exact hs.anti (k + 1) k s (Nat.le_succ k)
      · rw [run_bind_ok (run_get s)]
        split_ifs
        · exact ((costs_setFrame _).bind RoomBelow.anti fun _ =>
            costs_incrementUsedFrames.bind RoomBelow.anti fun _ => Costs.pure _) k s hs
        · exact ih k s hs

theorem costs_processWordLoop : ∀ n index, Costs (RoomBelow m) 1 (processWordLoop n index)
  | 0, _ => (Costs.pure _).mono RoomBelow.anti (Nat.zero_le 1)
  | n + 1, index => by
      have ih := costs_processWordLoop n (index + 1)
      intro k s hs
      rw [processWordLoop, run_bind_ok (run_get s)]
      split_ifs
      · exact ih k s hs
      · have hbits := costs_processBitLoop (m := m) index 32 0 1 k s hs
        cases hr : processBitLoop index 32 0 1 s with
        | ok o t =>
            rw [run_bind_ok hr]
            cases o with
            | some a =>
                rw [hr] at hbits
                exact hbits
            | none =>
                rw [processBitLoop_none 32 0 1 hr]
                exact ih k s hs
        | error e t =>
            rw [run_bind_error hr]
            rw [hr] at hbits
            exact hbits

end Costs

/-! ### Counts of clear frames -/

/-- A count of clear frames: it depends on the bitmap, its counter and the record of the large
domain alone, and each search for a frame uses up at most one. -/
structure FrameCount (L : Layout) (room : ℕ → State → Prop) : Prop where
  anti : ∀ n n' s, n' ≤ n → room n s → room n' s
  congr : ∀ n s s', (∀ g, s'.allocated g = s.allocated g) → s'.usedFrames = s.usedFrames →
    s'.large = s.large → room n s → room n s'
  kernelFrame : Costs room 1 L.getNextFreeKernelFrame
  processFrame : Costs room 1 getNextFreeProcessFrame

theorem frameCount_roomBelow (L : Layout) (m : ℕ) : FrameCount L (RoomBelow m) where
  anti := RoomBelow.anti
  congr _ _ _ ha _ _ hs := hs.congr ha
  kernelFrame := costs_kernelWordLoop _ _ _
  processFrame := costs_processWordLoop _ _

theorem frameCount_kept (L : Layout) (g : ℕ) :
    FrameCount L fun _ s => s.allocated g = true where
  anti _ _ _ _ hs := hs
  congr _ _ _ ha _ _ hs := by
    rw [ha g]
    exact hs
  kernelFrame _ s hs := (stable_allocated g).kernelWordLoop _ _ _ s hs
  processFrame _ s hs := (stable_allocated g).processWordLoop _ _ s hs

namespace FrameCount

variable {L : Layout} {room : ℕ → State → Prop}

theorem load (_ : FrameCount L room) (va : ℕ) : Costs room 0 (L.load va) := by
  intro n s hs
  unfold Layout.load
  cases s.peek L.dirFrame va with
  | some v => exact hs
  | none => exact hs

theorem store (h : FrameCount L room) (va v : ℕ) : Costs room 0 (L.store va v) := by
  intro n s hs
  unfold Layout.store
  cases s.walk L.dirFrame va with
  | some e => exact h.congr n s _ (fun _ => rfl) rfl rfl hs
  | none => exact hs

theorem assign (h : FrameCount L room) {f : State → State}
    (hf : ∀ s g, (f s).allocated g = s.allocated g) (hu : ∀ s, (f s).usedFrames = s.usedFrames)
    (hl : ∀ s, (f s).large = s.large) : Costs room 0 (modify f : Kernel Unit) :=
  fun n s hs => h.congr n s _ (hf s) (hu s) (hl s) hs

theorem seq (h : FrameCount L room) {α β : Type} {k : ℕ} {x : Kernel α} {f : α → Kernel β}
    (hx : Costs room 0 x) (hf : ∀ a, Costs room k (f a)) : Costs room k (x >>= f) := by
  have hseq := hx.bind h.anti hf
  rwa [Nat.zero_add] at hseq

theorem free (h : FrameCount L room) {α : Type} (k : ℕ) {x : Kernel α} (hx : Costs room 0 x) :
    Costs room k x := hx.mono h.anti (Nat.zero_le k)

theorem setEntry (h : FrameCount L room) (dir va e t : ℕ) :
    Costs room 0 (do
      L.store (u32 (t + 4 * ((va >>> 12) &&& 0x3FF))) e
      modify (·.install dir va e) : Kernel Unit) :=
  h.seq (h.store _ _) fun _ => h.assign (fun _ _ => rfl) (fun _ => rfl) fun _ => rfl

theorem mapPage (h : FrameCount L room) (dir va phys fl : ℕ) :
    Costs room 1 (L.mapPage dir va phys fl) := by
  unfold Layout.mapPage
  split_ifs
  · exact h.free 1 (Costs.pure _)
  · exact h.free 1 (Costs.pure _)
  · refine h.seq (h.load _) fun entry => ?_
    split_ifs
    · exact h.free 1 (h.seq (Costs.pure _) fun t => h.setEntry dir va _ t)
    · refine h.free 1 (h.seq (h.store _ _) fun _ => ?_)
      exact h.seq (Costs.pure _) fun t => h.setEntry dir va _ t
    · refine Costs.bind (k := 1) (l := 0) h.anti h.kernelFrame fun a => ?_
      refine h.seq (h.assign (fun _ _ => rfl) (fun _ => rfl) fun _ => rfl) fun _ => ?_
      refine h.seq (h.store _ _) fun _ => ?_
      exact h.seq (Costs.pure _) fun t => h.setEntry dir va _ t

theorem linkBlocks (h : FrameCount L room) (virt blockSize blocksPerPage tail : ℕ) :
    Costs room 0 (L.linkBlocks virt blockSize blocksPerPage tail) := by
  unfold Layout.linkBlocks
  refine h.seq ?_ fun _ => h.store _ _
  exact .of_keeps fun n => Keeps.times (fun _ s hs => h.store _ _ n s hs) _

theorem modifyDomain (h : FrameCount L room) (d : SizeClass) (f : HeapDomain → HeapDomain) :
    Costs room 0 (modifyDomain d f) :=
  fun n s hs => h.congr n s _ (fun _ => rfl) rfl rfl hs

/-- A size-class allocation takes at most three frames: a page and two tables for it. -/
theorem heapDomainAlloc (h : FrameCount L room) (d : SizeClass) :
    Costs room 3 (L.heapDomainAlloc d) := by
  have hpop : ∀ ptr : ℕ, Costs room 0 (do
      let next ← L.load ptr
      RaxzusHeap.modifyDomain d fun r => { r with nextFreeBlock := next }
      pure ptr : Kernel ℕ) := fun ptr =>
    h.seq (h.load _) fun next => h.seq (h.modifyDomain d _) fun _ => Costs.pure _
  unfold Layout.heapDomainAlloc
  refine h.seq (.of_keeps fun n => fun s hs => hs) fun domain => ?_
  split_ifs
  · exact h.free 3 (hpop _)
  · refine Costs.bind (k := 1) (l := 2) h.anti h.processFrame fun phys => ?_
    split_ifs
    · exact h.free 2 (Costs.pure _)
    · refine Costs.bind (k := 1) (l := 1) h.anti (h.mapPage _ _ _ _) fun _ => ?_
      refine Costs.bind (k := 1) (l := 0) h.anti (h.mapPage _ _ _ _) fun _ => ?_
      refine h.seq (h.linkBlocks _ _ _ _) fun _ => ?_
      refine h.seq (h.modifyDomain d _) fun _ => ?_
      exact h.seq (h.modifyDomain d _) fun _ => hpop _

theorem largeMapPage (h : FrameCount L room) (virtStart i : ℕ) :
    Costs room 3 (L.largeMapPage virtStart i) := by
  unfold Layout.largeMapPage
  refine Costs.bind (k := 1) (l := 2) h.anti h.processFrame fun phys => ?_
  split_ifs
  · exact h.free 2 (Costs.pure _)
  · refine h.seq (.of_keeps fun n => Keeps.get _) fun s => ?_
    exact Costs.bind (k := 1) (l := 1) h.anti (h.mapPage _ _ _ _) fun _ =>
      Costs.bind (k := 1) (l := 0) h.anti (h.mapPage _ _ _ _) fun _ => Costs.pure _

theorem largeMapLoop (h : FrameCount L room) (virtStart N : ℕ) (b : Bool) :
    Costs room (N * 3) (iterate N b fun i mapped =>
      if mapped then L.largeMapPage virtStart i else pure false) := by
  apply Costs.iterate h.anti
  intro i mapped
  split_ifs
  · exact h.largeMapPage virtStart i
  · exact h.free 3 (Costs.pure _)

/-- An allocation from the cursor of the large domain takes three frames a page. -/
theorem kmallocLarge (h : FrameCount L room) {s : State}
    (hlarge : ∀ f, Costs room 0 (modifyLarge f)) (n size : ℕ)
    (hfresh : ¬ (s.large.nextFreeVirt ≠ 0 ∧
      ∃ freedPages, s.peek L.dirFrame (u32 (s.large.nextFreeVirt + 4)) = some freedPages ∧
        largePages size ≤ freedPages)) (hs : room (n + largePages size * 3) s) :
    room n (final (L.kmallocLarge size s)) := by
  have hslot : room (n + largePages size * 3) (final (L.largeTakeSlot (largePages size) s)) := by
    have htake : Costs room 0 (takeCursor (largePages size)) :=
      h.seq (.of_keeps fun n => Keeps.get _) fun t => h.seq (hlarge _) fun _ => Costs.pure _
    unfold Layout.largeTakeSlot
    rw [run_bind_ok (run_get s)]
    by_cases hne : s.large.nextFreeVirt ≠ 0
    · rw [if_pos hne]
      cases hpeek : s.peek L.dirFrame (u32 (s.large.nextFreeVirt + 4)) with
      | none =>
          have hload : L.load (u32 (s.large.nextFreeVirt + 4)) s =
              .error (.pageFault (u32 (s.large.nextFreeVirt + 4))) s := by
            unfold Layout.load
            rw [hpeek]
          rw [run_bind_error hload]
          exact hs
      | some freedPages =>
          have hload : L.load (u32 (s.large.nextFreeVirt + 4)) s = .ok freedPages s := by
            unfold Layout.load
            rw [hpeek]
          have hsmall : ¬ largePages size ≤ freedPages := fun hle =>
            hfresh ⟨hne, freedPages, hpeek, hle⟩
          rw [run_bind_ok hload, if_neg hsmall]
          exact htake _ s hs
    · rw [if_neg hne]
      exact htake _ s hs
  unfold Layout.kmallocLarge
  split_ifs
  · exact h.anti _ n s (Nat.le_add_right n _) hs
  · cases hr : L.largeTakeSlot (largePages size) s with
    | error e t =>
        rw [hr] at hslot
        rw [run_bind_error hr]
        exact h.anti _ n t (Nat.le_add_right n _) hslot
    | ok q t =>
        rw [hr] at hslot
        rw [run_bind_ok hr]
        have hrest := Costs.bind (l := 0) h.anti (h.largeMapLoop q (largePages size) true)
          (f := fun mapped => if mapped then do
            L.store q (largePages size)
            pure (u32 (q + 4)) else pure 0) fun mapped => by
              split_ifs
              · exact h.seq (h.store _ _) fun _ => Costs.pure _
              · exact Costs.pure _
        exact hrest n t hslot

end FrameCount

/-! ### Steps that take frames -/

/-- Of the clear frames below any bound the step takes at most `k`. -/
def Spends (k : ℕ) (s s' : State) : Prop := ∀ m n, RoomBelow m (n + k) s → RoomBelow m n s'

namespace Spends

variable {s s₁ s₂ : State} {k l : ℕ}

theorem of_allocated (ha : ∀ g, s₁.allocated g = s.allocated g) : Spends 0 s s₁ :=
  fun _ _ hs => hs.congr ha

theorem trans (h₁ : Spends k s s₁) (h₂ : Spends l s₁ s₂) : Spends (k + l) s s₂ := by
  intro m n hs
  apply h₂ m n
  apply h₁ m (n + l)
  rwa [Nat.add_assoc, Nat.add_comm l k]

theorem same (h : Spends k s s₁) (ha : ∀ g, s₂.allocated g = s₁.allocated g) : Spends k s s₂ :=
  h.trans (of_allocated ha)

theorem take (s : State) (f : ℕ) : Spends 1 s (s.take f) :=
  fun _ _ hs => Room.take hs fun g => s.allocated_take f g

end Spends

/-- Of the clear frames below `m` the step takes at least `k`. -/
def Takes (m k : ℕ) (s s' : State) : Prop := ∀ n, RoomBelow m n s' → RoomBelow m (n + k) s

namespace Takes

variable {s s₁ s₂ : State} {k l m f : ℕ}

theorem of_allocated (ha : ∀ g, s₁.allocated g = s.allocated g) : Takes m 0 s s₁ :=
  fun _ hs => hs.congr fun g => (ha g).symm

theorem trans (h₁ : Takes m k s s₁) (h₂ : Takes m l s₁ s₂) : Takes m (k + l) s s₂ := by
  intro n hs
  have hroom := h₁ (n + l) (h₂ n hs)
  rwa [Nat.add_assoc, Nat.add_comm l k] at hroom

theorem mono (h : Takes m k s s₁) (hlk : l ≤ k) : Takes m l s s₁ :=
  fun n hs => (h n hs).anti (n + k) (n + l) s (Nat.add_le_add_left hlk n)

theorem same (h : Takes m k s s₁) (ha : ∀ g, s₂.allocated g = s₁.allocated g) :
    Takes m k s s₂ := h.trans (of_allocated ha)

theorem take (hf : s.allocated f = false) (hlt : f < m) : Takes m 1 s (s.take f) :=
  fun _ hs => Room.untake hs hlt hf fun g => s.allocated_take f g

theorem room (h : Takes m k s s₁) : RoomBelow m k s := by
  have hroom := h 0 (Nat.zero_le _)
  rwa [Nat.zero_add] at hroom

end Takes

section Tables

variable {L : Layout} {use use' u₁ u₂ : ℕ → Use} {live : ℕ → Option ℕ} {s s' s₁ s₂ : State}
  {d i D p f : ℕ}

theorem Table.spends (h : Table use s d i use' s') : Spends 1 s s' := fun _ _ hs => h.room hs

theorem Table.spends_missing (h : Table u₁ s₁ d i u₂ s₂) (hp : PageInv L use s)
    (hd : L.IsDir use d) (hi : i < 768) (hkept : ∀ t, use t = .table d i → u₁ t = .table d i) :
    Spends (if s.pde d i = none then 1 else 0) s₁ s₂ := by
  cases hpde : s.pde d i with
  | none => exact h.spends
  | some t =>
      have ht := hkept t ((hp.pde d i hd hi t).mp hpde)
      exact fun _ _ hs => h.room_found ht hs

/-- A new heap page takes its frame and the tables it needs. -/
theorem Grown.spends (h : Grown L D p f use s use' s') (hp : PageInv L use s) {o : Owner}
    (hD : use D = .dir o) (hf : use f = .free) (hhi : p < 0xC0000) :
    Spends (1 + s.newTables L D p) s s' := by
  obtain ⟨u₁, s₁, h₁, h₂⟩ := h.tables
  have hlabel : use' f = .page p := by
    rw [h.labels.kept f (by rw [Function.update_self]; simp), Function.update_self]
  have hflt : f < 0x80000 := h.inv.range f (by rw [hlabel]; simp)
  have h₀ := hp.takeData (u := .page p) hf hflt trivial
  have hkept : ∀ d t, use t = .table d (p / 1024) →
      Function.update use f (.page p) t = .table d (p / 1024) := by
    intro d t ht
    rw [Function.update_of_ne, ht]
    rintro rfl
    rw [hf] at ht
    cases ht
  have hi : p / 1024 < 768 := by omega
  have hext := h₁.extends L h₀
  have hfirst := h₁.spends_missing hp (Or.inr ⟨o, hD⟩) hi (hkept D)
  have hsecond := h₂.spends_missing hp (Or.inl rfl) hi fun t ht => by
    have ht' := hkept _ t ht
    rw [hext.kept t (by rw [ht']; simp), ht']
  exact (Spends.take s f).trans (hfirst.trans hsecond)

theorem Table.takes_missing (h : Table u₁ s₁ d i u₂ s₂) (hp : PageInv L use s)
    (hd : L.IsDir use d) (hi : i < 768) (hback : ∀ t, u₁ t = .table d i → use t = .table d i) :
    Takes 0x40000 (if s.pde d i = none then 1 else 0) s₁ s₂ := by
  cases h with
  | @found t ht _ ha =>
      have hpde := (hp.pde d i hd hi t).mpr (hback t ht)
      rw [hpde, if_neg (by simp)]
      exact .of_allocated ha
  | taken _ hfirst hlt _ ha =>
      refine ((Takes.take hfirst.1 hlt).same ha).mono ?_
      split_ifs <;> omega

theorem Grown.clear (h : Grown L D p f use s use' s') {g : ℕ} (hg : s'.allocated g = false) :
    s.allocated g = false := by
  obtain ⟨u₁, s₁, h₁, h₂⟩ := h.tables
  exact State.clear_of_take (h₁.clear (h₂.clear hg))

/-- If the new page needs tables, or a frame below 1 GB is left, all its frames lie below. -/
theorem Grown.takes (h : Grown L D p f use s use' s') (hp : PageInv L use s) {o : Owner}
    (hD : use D = .dir o) (hf : use f = .free) (hfirst : s.FirstFree f) (hhi : p < 0xC0000)
    (hlow : s.newTables L D p ≠ 0 ∨ ∃ g < 0x40000, s'.allocated g = false) :
    Takes 0x40000 (1 + s.newTables L D p) s s' := by
  have hclear : ∀ {g}, s'.allocated g = false → s.allocated g = false := fun hg => h.clear hg
  obtain ⟨u₁, s₁, h₁, h₂⟩ := h.tables
  have hback : ∀ {d t : ℕ}, Function.update use f (.page p) t = .table d (p / 1024) →
      use t = .table d (p / 1024) := by
    intro d t ht
    have htf : t ≠ f := by
      rintro rfl
      rw [Function.update_self] at ht
      cases ht
    rwa [Function.update_of_ne htf] at ht
  have hDK : L.dirFrame ≠ D := by
    rintro rfl
    rw [hp.use_dirFrame] at hD
    cases hD
  have hi : p / 1024 < 768 := by omega
  have hfirstTable := h₁.takes_missing hp (Or.inr ⟨o, hD⟩) hi fun t ht => hback ht
  have hsecondTable := h₂.takes_missing hp (Or.inl rfl) hi fun t ht =>
    hback ((h₁.label ht).resolve_right fun he => hDK he.1)
  have htables : Takes 0x40000 (s.newTables L D p) (s.take f) s' := hfirstTable.trans hsecondTable
  have hflt : f < 0x40000 := by
    obtain ⟨g, hlt, hg⟩ : ∃ g < 0x40000, s.allocated g = false := by
      cases hlow with
      | inl hne =>
          obtain ⟨k, hk⟩ := Nat.exists_eq_succ_of_ne_zero hne
          have hroom := htables.room
          rw [hk] at hroom
          obtain ⟨g, hlt, hg⟩ := Room.exists_first hroom
          exact ⟨g, hlt, State.clear_of_take hg.1⟩
      | inr hleft =>
          obtain ⟨g, hlt, hg⟩ := hleft
          exact ⟨g, hlt, hclear hg⟩
    by_contra hge
    rw [hfirst.2 g (by omega)] at hg
    cases hg
  exact (Takes.take hfirst.1 hflt).trans htables

/-- The frames that the next block of domain `d` takes. -/
def State.popCost (s : State) (L : Layout) (d : SizeClass) : ℕ :=
  if (s.domains d).nextFreeBlock = 0 then 1 + s.classTables L d else 0

theorem Popped.spends {d : SizeClass} {a : ℕ} (h : Popped L d use live s a use' s')
    (hp : HeapPages L use s) : Spends (s.popCost L d) s s' := by
  unfold State.popCost
  cases h.growth with
  | inl hfast =>
      rw [if_neg hfast.1]
      exact .of_allocated hfast.2.2.1
  | inr hslow =>
      obtain ⟨hnil, s₁, hx, hsame, -⟩ := hslow
      obtain ⟨D, f, s₂, hf, -, hadd, hsame₁, -, -, hD⟩ := hx.added
      have hlabel : use' f = .page ((s.domains d).nextVirtAddr / 4096) := by
        rw [hadd.grown.labels.kept f (by rw [Function.update_self]; simp), Function.update_self]
      have hhi := (hadd.pages.region f _ hlabel).2
      rw [if_pos hnil, hp.classTables_eq hD]
      exact ((hadd.grown.spends hp.inv hD hf (by omega)).same hsame₁).same hsame

theorem Popped.takes {d : SizeClass} {a : ℕ} (h : Popped L d use live s a use' s')
    (hp : HeapPages L use s)
    (hlow : s.classTables L d ≠ 0 ∨ ∃ g < 0x40000, s'.allocated g = false) :
    Takes 0x40000 (s.popCost L d) s s' := by
  unfold State.popCost
  cases h.growth with
  | inl hfast =>
      rw [if_neg hfast.1]
      exact .of_allocated hfast.2.2.1
  | inr hslow =>
      obtain ⟨hnil, s₁, hx, hsame, -⟩ := hslow
      obtain ⟨D, f, s₂, hf, hfirst, hadd, hsame₁, -, -, hD⟩ := hx.added
      have hlabel : use' f = .page ((s.domains d).nextVirtAddr / 4096) := by
        rw [hadd.grown.labels.kept f (by rw [Function.update_self]; simp), Function.update_self]
      have hhi := (hadd.pages.region f _ hlabel).2
      rw [hp.classTables_eq hD] at hlow
      rw [if_pos hnil, hp.classTables_eq hD]
      have hlow₂ := hlow.imp_right fun ⟨g, hlt, hg⟩ =>
        (⟨g, hlt, by rw [← hsame₁, ← hsame]; exact hg⟩ : ∃ g < 0x40000, s₂.allocated g = false)
      exact ((hadd.grown.takes hp.inv hD hf hfirst (by omega) hlow₂).same hsame₁).same hsame

end Tables

/-! ### `kmalloc_large` -/

section Large

variable {L : Layout} {use use₁ : ℕ → Use} {live ranges ranges₁ : ℕ → Option ℕ} {s s₁ : State}

theorem TookSlot.clear {q N : ℕ} (h : TookSlot L use live ranges q N s use₁ ranges₁ s₁) (g : ℕ)
    (hg : s.allocated g = false) : s₁.allocated g = false := by
  cases h.slot with
  | fresh _ _ _ _ _ ha => rw [ha, hg]
  | reused _ _ _ _ _ _ _ _ ha => rw [ha, State.allocated_unmark, hg, Bool.false_and]

theorem TookSlot.room {q N n m : ℕ} (h : TookSlot L use live ranges q N s use₁ ranges₁ s₁)
    (hs : RoomBelow m n s) : RoomBelow m n s₁ := Room.of_free hs fun g _ => h.clear g

theorem LargeInv.costs (hl : LargeInv L use live ranges s) (h : HeapPages L use s)
    {room : ℕ → State → Prop} (hcount : FrameCount L room) {n k : ℕ} (hn0 : n ≠ 0)
    (hN : 1 ≤ largePages n)
    (hfit : ¬ L.Reuses s (largePages n) →
      s.large.nextVirtAddr + largePages n * 4096 ≤ 0xC0000000)
    (hs : ∀ q use₁ ranges₁ s₁, TookSlot L use live ranges q (largePages n) s use₁ ranges₁ s₁ →
      room (k + largePages n * 3) s₁) :
    Ends (L.kmallocLarge n) s (fun _ => room k) (room k) := by
  obtain ⟨q, use₁, ranges₁, s₁, hslot, htook⟩ := hl.takeSlot h hN hfit
  unfold Layout.kmallocLarge
  rw [if_neg hn0]
  refine Ends.bind_ok hslot ?_
  have hloop := (hcount.largeMapLoop (q * 4096) (largePages n) true).ends (hs _ _ _ _ htook)
  refine hloop.bind fun b t ht => ?_
  split_ifs
  · exact Costs.ends (hcount.seq (hcount.store _ _) fun _ => Costs.pure _) ht
  · exact Costs.ends (Costs.pure _) ht

end Large

end RaxzusHeap
