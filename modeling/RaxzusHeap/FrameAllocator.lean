import RaxzusHeap.PmmSpec

/-! # Runs of the frame allocator

A client of `pmm.c` asks for kernel and process frames and gives back frames it holds.
`PmmTrace` is the list of the calls of such a run from `init_pmm`, and `SafeCall` says what
a call must not do: hand out a frame that is in use, already held, part of the kernel image
or left unmarked.

Marking is exact below 2 GB only, so a call is safe exactly while the search can still end
below 2 GB (`pmmTrace_safe_iff`); a run that exhausts the first half of the address space
gets the frame at `0x80000000` over and over. -/

namespace RaxzusHeap

open Imperative

inductive PmmOp where
  | kernelFrame
  | processFrame
  | clear (addr : ℕ)
deriving DecidableEq, Repr

/-- The call a client makes. -/
def Layout.pmmCall (L : Layout) : PmmOp → Kernel ℕ
  | .kernelFrame => L.getNextFreeKernelFrame
  | .processFrame => getNextFreeProcessFrame
  | .clear addr => clearFrame addr

/-- One call of a run: the addresses the client holds and the states around the call. -/
structure PmmCall where
  held : List ℕ
  pre : State
  op : PmmOp
  result : ℕ
  post : State

namespace PmmCall

/-- The call asks for a frame. -/
def Asks (c : PmmCall) : Prop := ∀ addr, c.op ≠ .clear addr

/-- Only frames handed out and not yet cleared are cleared. -/
def Legal (c : PmmCall) : Prop := ∀ addr, c.op = .clear addr → addr ∈ c.held

/-- What the client holds after the call. -/
def heldAfter (c : PmmCall) : List ℕ :=
  match c.op with
  | .clear addr => c.held.filter (· ≠ addr)
  | _ => if c.result = 0 then c.held else c.result :: c.held

end PmmCall

/-- A call does not hand out a frame in use: the address it returns is that of a frame that
was clear, is not held, lies outside the kernel image, and is marked afterwards. -/
def Layout.SafeCall (L : Layout) (c : PmmCall) : Prop :=
  c.Asks → c.result ≠ 0 →
    c.result % 4096 = 0 ∧ c.result < 2 ^ 32 ∧ c.pre.allocated (c.result / 4096) = false ∧
      c.post.allocated (c.result / 4096) = true ∧ c.result ∉ c.held ∧
      L.kernelFrames * 4096 ≤ c.result

/-- `PmmTrace L t held s`: the calls `t` made from `init_pmm` on end in state `s` with the
addresses `held` in the client's hands. -/
inductive PmmTrace (L : Layout) : List PmmCall → List ℕ → State → Prop
  | init {s₀ s : State} : L.initPmm s₀ = .ok () s → PmmTrace L [] [] s
  | call {t : List PmmCall} {held : List ℕ} {s : State} (op : PmmOp) {r : ℕ} {s' : State} :
      PmmTrace L t held s → (⟨held, s, op, r, s'⟩ : PmmCall).Legal →
      L.pmmCall op s = .ok r s' →
      PmmTrace L (t ++ [⟨held, s, op, r, s'⟩]) (⟨held, s, op, r, s'⟩ : PmmCall).heldAfter s'

/-- What every run keeps: the kernel image is marked, no frame from 2 GB on ever is, and the
client holds frame addresses outside the image. -/
structure PmmInv (L : Layout) (held : List ℕ) (s : State) : Prop where
  image : L.ImageMarked s
  high : ∀ f, 0x80000 ≤ f → f < 0x100000 → s.allocated f = false
  held : ∀ a ∈ held, ∃ f, a = f * 4096 ∧ L.kernelFrames ≤ f ∧ f < 0x100000

theorem PmmInv.asks {L : Layout} {held : List ℕ} {s s' : State} {op : PmmOp} {r : ℕ}
    (h : PmmInv L held s) (hop : ∀ addr, op ≠ .clear addr) (hr : L.pmmCall op s = .ok r s') :
    ∃ f, s.FirstFree f ∧ L.kernelFrames ≤ f ∧ f < 0x100000 ∧ takeFrame f s = .ok r s' ∧
      r = f * 4096 := by
  obtain ⟨f, hle, hf⟩ := FirstFit.exists_first (h.high (0x80000) le_rfl (by norm_num))
  have hlt : f < 0x100000 := by omega
  have hK : L.kernelFrames ≤ f := by
    by_contra hlt
    have := h.image f (by omega)
    rw [hf.1] at this; cases this
  have htake : takeFrame f s = .ok r s' := by
    cases op with
    | kernelFrame => rw [← hr]; exact (L.kernelFrame_eq h.image hf hlt).symm
    | processFrame => rw [← hr]; exact (L.processFrame_eq h.image hf hlt).symm
    | clear addr => exact absurd rfl (hop addr)
  obtain ⟨s₁, hs₁⟩ := takeFrame_ok f s
  rw [hs₁] at htake
  cases htake
  exact ⟨f, hf, hK, hlt, hs₁, rfl⟩

theorem clearFrame_high {f w : ℕ} {s s' : State} (hf : 0x80000 ≤ f)
    (h : clearFrame (f * 4096) s = .ok w s') (g : ℕ) : s'.allocated g = s.allocated g := by
  unfold clearFrame at h
  by_cases hp : 0xC0000000 ≤ f * 4096
  · rw [if_pos hp] at h
    cases h; rfl
  · rw [if_neg hp] at h
    have hneg := index_high hf (by omega)
    rw [setBit, run_bind_ok (run_get s), if_neg (by decide : ¬ FREE = ALLOCATE), if_pos rfl] at h
    cases h
    refine State.allocated_congr (fun i hi => ?_) g
    simp only [State.setBitmap]
    rw [if_neg (by omega)]

theorem PmmInv.call {L : Layout} {held : List ℕ} {s s' : State} {op : PmmOp} {r : ℕ}
    (h : PmmInv L held s) (hlegal : (⟨held, s, op, r, s'⟩ : PmmCall).Legal)
    (hr : L.pmmCall op s = .ok r s') :
    PmmInv L (⟨held, s, op, r, s'⟩ : PmmCall).heldAfter s' := by
  by_cases hop : ∃ addr, op = .clear addr
  · obtain ⟨addr, rfl⟩ := hop
    obtain ⟨f, rfl, hK, hf⟩ := h.held addr (hlegal addr rfl)
    have hbits : ∀ g, s'.allocated g = true ↔ s.allocated g = true ∧ ¬ (g = f ∧ f < 0x80000) := by
      intro g
      by_cases hlow : f < 0x80000
      · obtain ⟨w, hw⟩ := clearFrame_low hlow s
        rw [Layout.pmmCall, hw] at hr
        cases hr
        rw [State.allocated_unmark]
        simp only [Bool.and_eq_true, Bool.not_eq_true', decide_eq_false_iff_not, hlow, and_true]
      · rw [clearFrame_high (Nat.le_of_not_lt hlow) hr]
        simp [hlow]
    refine ⟨fun g hg => (hbits g).mpr ⟨h.image g hg, by omega⟩, fun g h1 h2 => ?_, fun a ha => ?_⟩
    · have := (hbits g).not.mpr (by rw [h.high g h1 h2]; simp)
      simpa using this
    · exact h.held a (List.mem_of_mem_filter ha)
  · have hop : ∀ addr, op ≠ .clear addr := fun addr e => hop ⟨addr, e⟩
    obtain ⟨f, hf, hK, hlt, htake, rfl⟩ := h.asks hop hr
    have hbits : ∀ g, s'.allocated g = true ↔ s.allocated g = true ∨ g = f ∧ f < 0x80000 := by
      intro g
      by_cases hlow : f < 0x80000
      · rw [takeFrame_low hlow] at htake
        cases htake
        rw [State.allocated_take]
        simp only [Bool.or_eq_true, decide_eq_true_eq, hlow, and_true]
      · obtain ⟨s₁, hs₁, hsame⟩ := takeFrame_high (Nat.le_of_not_lt hlow) s
        rw [hs₁] at htake
        cases htake
        rw [hsame]
        simp [hlow]
    refine ⟨fun g hg => (hbits g).mpr (.inl (h.image g hg)), fun g h1 h2 => ?_, fun a ha => ?_⟩
    · have := (hbits g).not.mpr (by rw [h.high g h1 h2]; simp; omega)
      simpa using this
    · have : a = f * 4096 ∨ a ∈ held := by
        unfold PmmCall.heldAfter at ha
        cases op with
        | clear addr => exact absurd rfl (hop addr)
        | _ =>
            simp only at ha
            split_ifs at ha
            · exact .inr ha
            · simpa using ha
      rcases this with rfl | ha
      · exact ⟨f, rfl, hK, hlt⟩
      · exact h.held a ha

theorem PmmTrace.inv {L : Layout} {t : List PmmCall} {held : List ℕ} {s : State}
    (h : PmmTrace L t held s) : PmmInv L held s := by
  have hK : L.kernelFrames ≤ 1024 := L.high
  induction h with
  | @init s₀ s hr =>
      obtain ⟨s', hr', -, hm⟩ := L.initPmm_spec s₀
      rw [hr'] at hr
      cases hr
      refine ⟨fun f hf => by rw [hm f (by omega)]; simpa using hf, fun f h1 h2 => ?_, by simp⟩
      rw [hm f h2]
      simp
      omega
  | call op _ hlegal hr ih => exact ih.call hlegal hr

/-- A call is safe exactly when the search can end below 2 GB. -/
def PmmCall.LowFrameClear (c : PmmCall) : Prop :=
  c.Asks → ∃ f < 0x80000, c.pre.allocated f = false

/-- A call that finds nothing clear below 2 GB hands out a frame it does not mark. -/
theorem PmmInv.lowFrameClear_of_safe {L : Layout} {c : PmmCall} (h : PmmInv L c.held c.pre)
    (hr : L.pmmCall c.op c.pre = .ok c.result c.post) (hsafe : L.SafeCall c) :
    c.LowFrameClear := by
  intro hasks
  obtain ⟨f, hf, hK, hlt, htake, hres⟩ := h.asks hasks hr
  by_contra hfull
  have hhigh : 0x80000 ≤ f := by
    by_contra hlow
    exact hfull ⟨f, by omega, hf.1⟩
  obtain ⟨s₁, hs₁, hsame⟩ := takeFrame_high hhigh c.pre
  have hpost : c.post = s₁ := by
    rw [hs₁] at htake
    exact (EStateM.Result.ok.inj htake).2.symm
  have hmarked := (hsafe hasks (by omega)).2.2.2.1
  rw [hpost, hsame, show c.result / 4096 = f by omega, hf.1] at hmarked
  cases hmarked

/-- The client's frames are marked as long as every call so far was one that could end
below 2 GB. -/
theorem PmmTrace.held_marked {L : Layout} {t : List PmmCall} {held : List ℕ} {s : State}
    (h : PmmTrace L t held s) (hlow : ∀ c ∈ t, c.LowFrameClear) :
    ∀ a ∈ held, a / 4096 < 0x80000 ∧ s.allocated (a / 4096) = true := by
  induction h with
  | init _ => simp
  | @call t held s op r s' ht hlegal hr ih =>
      have hprev := ih (fun c hc => hlow c (List.mem_append_left _ hc))
      have hlast := hlow _ (List.mem_append_right t (List.mem_singleton.mpr rfl))
      have hinv := ht.inv
      by_cases hop : ∃ addr, op = .clear addr
      · obtain ⟨addr, rfl⟩ := hop
        obtain ⟨f, rfl, hK, hf⟩ := hinv.held addr (hlegal addr rfl)
        have hflow := (hprev _ (hlegal _ rfl)).1
        rw [Nat.mul_div_cancel _ (by norm_num)] at hflow
        obtain ⟨w, hw⟩ := clearFrame_low hflow s
        rw [Layout.pmmCall, hw] at hr
        cases hr
        intro a ha
        obtain ⟨ha, hne⟩ := List.mem_filter.mp ha
        obtain ⟨g, rfl, -⟩ := hinv.held a ha
        obtain ⟨h1, h2⟩ := hprev _ ha
        refine ⟨h1, ?_⟩
        rw [Nat.mul_div_cancel _ (by norm_num)] at h2 ⊢
        rw [State.allocated_unmark, h2]
        have : g ≠ f := fun e => by simp [e] at hne
        simp [this]
      · have hop : ∀ addr, op ≠ .clear addr := fun addr e => hop ⟨addr, e⟩
        obtain ⟨f, hf, hK, hlt, htake, rfl⟩ := hinv.asks hop hr
        obtain ⟨g, hg, hclear⟩ := hlast hop
        have hflow : f < 0x80000 := by
          by_contra hhigh
          have := hf.2 g (by omega)
          rw [hclear] at this; cases this
        rw [takeFrame_low hflow] at htake
        cases htake
        have hheld : (⟨held, s, op, f * 4096, s.take f⟩ : PmmCall).heldAfter = f * 4096 :: held := by
          have hpos : f * 4096 ≠ 0 := by have := L.low; simp only [Layout.kernelFrames] at hK; omega
          unfold PmmCall.heldAfter
          cases op with
          | clear addr => exact absurd rfl (hop addr)
          | _ => simp only [if_neg hpos]
        rw [hheld]
        intro a ha
        rcases List.mem_cons.mp ha with rfl | ha
        · rw [Nat.mul_div_cancel _ (by norm_num), State.allocated_take]
          simpa using hflow
        · obtain ⟨h1, h2⟩ := hprev a ha
          exact ⟨h1, by rw [State.allocated_take, h2]; rfl⟩

theorem PmmInv.safe_of_lowFrameClear {L : Layout} {c : PmmCall} (h : PmmInv L c.held c.pre)
    (hheld : ∀ a ∈ c.held, c.pre.allocated (a / 4096) = true)
    (hr : L.pmmCall c.op c.pre = .ok c.result c.post) (hlow : c.LowFrameClear) : L.SafeCall c := by
  intro hasks _
  obtain ⟨f, hf, hK, hlt, htake, hres⟩ := h.asks hasks hr
  obtain ⟨g, hg, hclear⟩ := hlow hasks
  have hflow : f < 0x80000 := by
    by_contra hhigh
    have := hf.2 g (by omega)
    rw [hclear] at this; cases this
  rw [takeFrame_low hflow] at htake
  have hpost : c.post = c.pre.take f := (EStateM.Result.ok.inj htake).2.symm
  have hdiv : c.result / 4096 = f := by omega
  refine ⟨by omega, by omega, by rw [hdiv]; exact hf.1, ?_, fun hmem => ?_, by omega⟩
  · rw [hdiv, hpost, State.allocated_take]
    simp
  · have := hheld _ hmem
    rw [hdiv, hf.1] at this
    cases this

/-- **Safety of the frame allocator.**  In a run from `init_pmm` every call is safe if and
only if every call for a frame is made while some frame below 2 GB is clear. -/
theorem pmmTrace_safe_iff (L : Layout) {t : List PmmCall} {held : List ℕ} {s : State}
    (h : PmmTrace L t held s) :
    (∀ c ∈ t, L.SafeCall c) ↔ ∀ c ∈ t, c.LowFrameClear := by
  induction h with
  | init _ => simp
  | @call t held s op r s' ht hlegal hr ih =>
      have hinv : PmmInv L held s := ht.inv
      constructor
      · intro hsafe c hc
        rcases List.mem_append.mp hc with hc | hc
        · exact ih.mp (fun c hc => hsafe c (List.mem_append_left _ hc)) c hc
        · obtain rfl := List.mem_singleton.mp hc
          exact PmmInv.lowFrameClear_of_safe hinv hr
            (hsafe _ (List.mem_append_right _ (List.mem_singleton.mpr rfl)))
      · intro hlow c hc
        rcases List.mem_append.mp hc with hc | hc
        · exact ih.mpr (fun c hc => hlow c (List.mem_append_left _ hc)) c hc
        · obtain rfl := List.mem_singleton.mp hc
          have hheld := ht.held_marked (fun c hc => hlow c (List.mem_append_left _ hc))
          exact PmmInv.safe_of_lowFrameClear hinv (fun a ha => (hheld a ha).2) hr
            (hlow _ (List.mem_append_right _ (List.mem_singleton.mpr rfl)))

/-! ### Running out of the first half of memory -/

/-- `n` calls of `get_next_free_process_frame` take the `n` frames after the image. -/
theorem processFrames_trace (L : Layout) (s₀ : State) :
    ∀ n, L.kernelFrames + n ≤ 0x80000 →
      ∃ t held s, PmmTrace L t held s ∧ t.length = n ∧ (∀ c ∈ t, c.op = .processFrame) ∧
        ∀ f < 0x100000, s.allocated f = decide (f < L.kernelFrames + n)
  | 0, _ => by
      obtain ⟨s, hr, -, hm⟩ := L.initPmm_spec s₀
      exact ⟨[], [], s, .init hr, rfl, by simp, hm⟩
  | n + 1, hn => by
      obtain ⟨t, held, s, ht, hlen, hops, hm⟩ := processFrames_trace L s₀ n (by omega)
      have hfree : s.FirstFree (L.kernelFrames + n) := by
        refine ⟨by rw [hm _ (by omega)]; simp, fun g hg => ?_⟩
        rw [hm _ (by omega)]
        simpa using hg
      have hr : L.pmmCall .processFrame s = .ok ((L.kernelFrames + n) * 4096)
          (s.take (L.kernelFrames + n)) := by
        rw [Layout.pmmCall, L.processFrame_eq ht.inv.image hfree (by omega),
          takeFrame_low (by omega)]
      refine ⟨_, _, _, .call .processFrame ht (fun addr h => by cases h) hr, by simp [hlen], ?_, ?_⟩
      · intro c hc
        rcases List.mem_append.mp hc with hc | hc
        · exact hops c hc
        · rw [List.mem_singleton.mp hc]
      · intro f hf
        rw [State.allocated_take, hm f hf, Bool.eq_iff_iff]
        simp only [Bool.or_eq_true, decide_eq_true_eq]
        omega

/-- After 523774 frames the next one handed out, at `0x80000000`, is not marked. -/
theorem pmmTrace_hands_out_unmarked :
    ∃ t held s c, PmmTrace Layout.lowest t held s ∧ t.length = 523775 ∧
      (∀ d ∈ t, d.op = .processFrame) ∧ c ∈ t ∧ c.result = 0x80000000 ∧
      c.post.allocated 0x80000 = false ∧ ¬ Layout.lowest.SafeCall c := by
  obtain ⟨t, held, s, ht, hlen, hops, hm⟩ :=
    processFrames_trace Layout.lowest (State.powerOn fun _ _ => 0) 523774 (by decide)
  have hfree : s.FirstFree 0x80000 := by
    refine ⟨by rw [hm _ (by norm_num)]; decide, fun g hg => ?_⟩
    rw [hm _ (by omega)]
    have : Layout.lowest.kernelFrames = 514 := rfl
    simp only [decide_eq_true_eq]
    omega
  obtain ⟨s', hs', hsame⟩ := takeFrame_high (f := 0x80000) le_rfl s
  have hr : Layout.lowest.pmmCall .processFrame s = .ok 0x80000000 s' := by
    rw [Layout.pmmCall, Layout.lowest.processFrame_eq ht.inv.image hfree (by norm_num), hs']
  have hunmarked : s'.allocated 0x80000 = false := by rw [hsame]; exact hfree.1
  refine ⟨_, _, _, ⟨held, s, .processFrame, 0x80000000, s'⟩,
    .call .processFrame ht (fun addr h => by cases h) hr, by simp [hlen], ?_, by simp, rfl,
    hunmarked, fun hsafe => ?_⟩
  · intro c hc
    rcases List.mem_append.mp hc with hc | hc
    · exact hops c hc
    · rw [List.mem_singleton.mp hc]
  · have := (hsafe (fun addr h => by cases h) (by norm_num)).2.2.2.1
    rw [show (0x80000000 : ℕ) / 4096 = 0x80000 by norm_num, hunmarked] at this
    cases this

/-- A run of three calls, which are safe. -/
theorem pmmTrace_safe_iff_three :
    ∃ t held s, PmmTrace Layout.lowest t held s ∧ t.length = 3 ∧
      ((∀ c ∈ t, Layout.lowest.SafeCall c) ↔ ∀ c ∈ t, c.LowFrameClear) := by
  obtain ⟨t, held, s, ht, hlen, -⟩ :=
    processFrames_trace Layout.lowest (State.powerOn fun _ _ => 0) 3 (by decide)
  exact ⟨t, held, s, ht, hlen, pmmTrace_safe_iff Layout.lowest ht⟩

end RaxzusHeap
