import RaxzusHeap.ProcessPages

/-! # Process control blocks in memory

A process control block is a heap block whose words are its fields.  `Layout.fields` reads
them, `storeField_ok` writes one, and the list of processes is a chain through the `next`
fields (`ProcChain`), which `addProcess` extends at the end. -/

namespace RaxzusHeap

open Imperative FirstFit Linked

theorem PcbField.offset_lt (field : PcbField) : field.offset + 4 ≤ PCB_SIZE := by
  cases field <;> simp [PcbField.offset, PCB_SIZE]

theorem PcbField.offset_mod (field : PcbField) : field.offset % 4 = 0 := by cases field <;> rfl

theorem PcbField.offset_inj {a b : PcbField} (h : a.offset = b.offset) : a = b := by
  cases a <;> cases b <;> simp_all [PcbField.offset]

/-- The fields of the block at `p`. -/
def Layout.fields (L : Layout) (s : State) (p : ℕ) (field : PcbField) : Option ℕ :=
  s.peek L.dirFrame (p + field.offset)

/-- The list of processes that starts at `a` consists of the blocks `l`. -/
def ProcChain (L : Layout) (s : State) (a : ℕ) (l : List ℕ) : Prop :=
  Chain (fun p => L.fields s p .next) 0 a l

/-- `b` is an address in a live block. -/
def LiveWord (live : ℕ → Option ℕ) (b : ℕ) : Prop :=
  ∃ p n, live p = some n ∧ n + 4099 < 2 ^ 32 ∧ p ≤ b ∧ b < p + n

section Blocks

variable {L : Layout} {use : ℕ → Use} {live ranges : ℕ → Option ℕ} {p : ℕ} {s s' : State}

theorem HeapInv.live_lt (h : HeapInv L use live ranges s) {p n : ℕ} (hp : live p = some n) :
    p < 0xC0000000 := by
  cases window_cases (h.heap p n hp) with
  | inl hge =>
      obtain ⟨hmod, N, hN, -, -⟩ := h.large.header p n hp hge
      obtain ⟨-, hpos, hle⟩ := h.large.within _ N hN
      have hcle := h.large.cursor_le
      omega
  | inr hd =>
      obtain ⟨d, -, hlt⟩ := hd
      have := d.virtBase_bounds
      omega

/-- Two live blocks share no word. -/
theorem HeapInv.live_apart (h : HeapInv L use live ranges s) {p q n k x y : ℕ}
    (hp : live p = some n) (hq : live q = some k) (hne : p ≠ q) (hn : n + 4099 < 2 ^ 32)
    (hk : k + 4099 < 2 ^ 32) (hx1 : p ≤ x) (hx2 : x < p + n) (hy1 : q ≤ y) (hy2 : y < q + k) :
    x / 4 ≠ y / 4 := by
  rcases window_cases (h.heap p n hp) with hpge | ⟨c, hc1, hc2⟩
  · obtain ⟨hpmod, A, hA, hsize, -⟩ := h.large.header p n hp hpge
    have hsize := hsize hn
    rcases window_cases (h.heap q k hq) with hqge | ⟨d, hd1, hd2⟩
    · obtain ⟨hqmod, B, hB, hsize', -⟩ := h.large.header q k hq hqge
      have hsize' := hsize' hk
      have hpq : p / 4096 ≠ q / 4096 := by omega
      rcases h.large.disjoint _ A _ B hA hB hpq with h3 | h3 <;> omega
    · obtain ⟨hblock, hle⟩ := (h.dom d).live q k hq hd1 hd2
      have hend := (h.dom d).block_end hblock
      have hcle := (h.dom d).cursor_le
      have hbase := d.virtBase_bounds
      omega
  · obtain ⟨hpblock, hple⟩ := (h.dom c).live p n hp hc1 hc2
    have hpend := (h.dom c).block_end hpblock
    have hpcle := (h.dom c).cursor_le
    have hbase := c.virtBase_bounds
    have hpal := hpblock.aligned
    rcases window_cases (h.heap q k hq) with hqge | ⟨d, hd1, hd2⟩
    · omega
    · obtain ⟨hblock, hle⟩ := (h.dom d).live q k hq hd1 hd2
      have hend := (h.dom d).block_end hblock
      have hcle := (h.dom d).cursor_le
      have hal := hblock.aligned
      by_cases hcd : c = d
      · subst hcd
        rcases hpblock.disjoint hblock hne with h3 | h3 <;> omega
      · have hmod := c.virtBase_mod
        have hmod' := d.virtBase_mod
        rcases SizeClass.region_disjoint hcd with h3 | h3 <;> omega

/-! ### Fields -/

theorem HeapInv.backed_field (h : HeapInv L use live ranges s) {p : ℕ}
    (hp : live p = some PCB_SIZE) (field : PcbField) : Backed use ((p + field.offset) / 4096) := by
  have hlt := field.offset_lt
  exact h.backed_live hp (by norm_num [PCB_SIZE]) (Nat.le_add_right p _) (by omega)

theorem HeapInv.field_address (h : HeapInv L use live ranges s) {p : ℕ}
    (hp : live p = some PCB_SIZE) (field : PcbField) : u32 (p + field.offset) = p + field.offset := by
  have hlt := field.offset_lt
  have hp32 := h.live_lt hp
  unfold PCB_SIZE at hlt
  exact u32_of_lt (by omega)

theorem HeapInv.loadField_ok (h : HeapInv L use live ranges s) {p : ℕ}
    (hp : live p = some PCB_SIZE) (field : PcbField) :
    ∃ v < 2 ^ 32, L.fields s p field = some v ∧ L.loadField p field s = .ok v s := by
  obtain ⟨v, hv, hpeek, hload⟩ := h.pages.load (h.backed_field hp field)
  refine ⟨v, hv, hpeek, ?_⟩
  rw [Layout.loadField, h.field_address hp]
  exact hload

/-- The heap blocks other than the one at `p` read as before. -/
structure PcbWritten (L : Layout) (use : ℕ → Use) (live : ℕ → Option ℕ) (p : ℕ) (s s' : State) :
    Prop where
  words : ∀ b q n, live q = some n → n + 4099 < 2 ^ 32 → q ≤ b → b < q + n → q ≠ p →
    s'.peek L.dirFrame b = s.peek L.dirFrame b
  vars : SameVars s s'
  alloc : ∀ g, s'.allocated g = s.allocated g
  maps : s'.maps = s.maps
  spares : Spares use s use s'

/-- `p->field = v`. -/
theorem HeapInv.storeField_ok (h : HeapInv L use live ranges s) {p v : ℕ}
    (hp : live p = some PCB_SIZE) (field : PcbField) (hv : v < 2 ^ 32) :
    ∃ s', L.storeField p field v s = .ok () s' ∧ HeapInv L use live ranges s' ∧
      PcbWritten L use live p s s' ∧
      L.fields s' p = Function.update (L.fields s p) field (some v) := by
  have hlt := field.offset_lt
  have hsize : PCB_SIZE + 4099 < 2 ^ 32 := by norm_num [PCB_SIZE]
  obtain ⟨s', hrun, h', hst⟩ := h.storeLive hp hsize (k := field.offset) (by omega) hv
  refine ⟨s', ?_, h', ⟨?_, hst.vars, hst.alloc, hst.maps, hst.spares⟩, ?_⟩
  · rw [Layout.storeField, h.field_address hp]
    exact hrun
  · intro b q n hq hn hb1 hb2 hqp
    rw [hst.peek b (h.backed_live hq hn hb1 hb2), if_neg]
    exact h.live_apart hq hp hqp hn hsize hb1 hb2 (by omega) (by omega)
  · funext other
    rw [Layout.fields, hst.peek _ (h.backed_field hp other)]
    by_cases ho : other = field
    · rw [ho, Function.update_self, if_pos rfl]
    · have hmod := other.offset_mod
      have hmod' := field.offset_mod
      have hoff : other.offset ≠ field.offset := fun heq => ho (PcbField.offset_inj heq)
      rw [Function.update_of_ne ho, if_neg (by omega), Layout.fields]

theorem fields_congr {p : ℕ} (hp : live p = some PCB_SIZE)
    (hw : ∀ b, LiveWord live b → s'.peek L.dirFrame b = s.peek L.dirFrame b) :
    L.fields s' p = L.fields s p := by
  funext field
  have hlt := field.offset_lt
  exact hw _ ⟨p, PCB_SIZE, hp, by norm_num [PCB_SIZE], by omega, by omega⟩

theorem HeapInv.same_words (h : HeapInv L use live ranges s) (hs : SameHeap L use s s') :
    ∀ b, LiveWord live b → s'.peek L.dirFrame b = s.peek L.dirFrame b := by
  rintro b ⟨p, n, hp, hn, h1, h2⟩
  exact hs b (h.backed_live hp hn h1 h2)

/-! ### The list -/

/-- The walk ends at the last block of the list. -/
theorem Layout.walkToEnd_ok (h : HeapInv L use live ranges s) {a c fuel : ℕ} {l : List ℕ}
    (hl : ProcChain L s a l) (hlive : ∀ p ∈ l, live p = some PCB_SIZE)
    (hlast : l.getLast? = some c) (hfuel : l.length ≤ fuel) :
    L.walkToEnd fuel a s = .ok c s := by
  induction hl generalizing fuel with
  | nil => cases hlast
  | @cons a b t hne hnext ht ih =>
      obtain ⟨n, rfl⟩ := Nat.exists_eq_add_of_lt (show 0 < fuel by
        rw [List.length_cons] at hfuel; omega)
      rw [Nat.zero_add] at hfuel ⊢
      rw [List.length_cons] at hfuel
      obtain ⟨v, -, hfield, hload⟩ := h.loadField_ok (hlive a List.mem_cons_self) .next
      rw [hnext] at hfield
      cases hfield
      rw [Layout.walkToEnd, run_bind_ok hload]
      cases t with
      | nil =>
          cases hlast
          rw [if_neg (not_not.mpr ht.of_nil)]
          rfl
      | cons d t =>
          have hb : b ≠ 0 := by
            rw [ht.head_eq]
            exact ht.ne_null List.mem_cons_self
          rw [if_pos hb]
          rw [List.getLast?_cons_cons] at hlast
          exact ih (fun p hp => hlive p (List.mem_cons_of_mem _ hp)) hlast (by omega)

theorem Layout.walkToEnd_null (h : HeapPages L use s) (fuel : ℕ) :
    ∃ e, L.walkToEnd fuel 0 s = .error e s := by
  cases fuel with
  | zero => exact ⟨.halted, rfl⟩
  | succ n =>
      refine ⟨.pageFault (u32 (0 + PcbField.next.offset)), run_bind_error ?_⟩
      apply L.load_fault
      exact h.walk_low (by norm_num [PcbField.offset, u32])

theorem HeapInv.chain_length (h : HeapInv L use live ranges s) {a : ℕ} {l : List ℕ}
    (hl : ProcChain L s a l) (hlive : ∀ p ∈ l, live p = some PCB_SIZE) : l.length ≤ WALK_FUEL := by
  have hsub : l.toFinset ⊆ Finset.range 0xC0000000 := by
    intro p hp
    exact Finset.mem_range.mpr (h.live_lt (hlive p (List.mem_toFinset.mp hp)))
  have hcard := Finset.card_le_card hsub
  rw [List.toFinset_card_of_nodup hl.nodup, Finset.card_range] at hcard
  unfold WALK_FUEL
  omega

/-- What the end of `create_process` does: the block at `p` joins the list `l`. -/
structure Joined (L : Layout) (use : ℕ → Use) (live : ℕ → Option ℕ) (p : ℕ) (l : List ℕ)
    (s s' : State) : Prop where
  list : ProcChain L s' s'.processLists (if s.currentIndex = 0 then [p] else l ++ [p])
  index : s'.currentIndex = (s.currentIndex + 1) % 2 ^ 16
  words : ∀ b q n, live q = some n → n + 4099 < 2 ^ 32 → q ≤ b → b < q + n → q ≠ p → q ∉ l →
    s'.peek L.dirFrame b = s.peek L.dirFrame b
  fields : ∀ q, live q = some PCB_SIZE → ∀ field, field ≠ .next → field ≠ .prev →
    L.fields s' q field = L.fields s q field
  domains : s'.domains = s.domains
  large : s'.large = s.large
  alloc : ∀ g, s'.allocated g = s.allocated g
  maps : s'.maps = s.maps
  spares : Spares use s use s'

theorem HeapInv.setProcess (h : HeapInv L use live ranges s) (lists index : ℕ) :
    HeapInv L use live ranges { s with processLists := lists, currentIndex := index } :=
  h.frame (h.pages.congr rfl (fun _ => rfl) rfl rfl fun o => by cases o <;> rfl)
    (fun _ _ _ _ => rfl) (fun _ => Iff.rfl) (HeapPages.sameHeap_of_mem rfl) rfl rfl

theorem PcbWritten.fields (h : PcbWritten L use live p s s') {q : ℕ} (hq : live q = some PCB_SIZE)
    (hqp : q ≠ p) : L.fields s' q = L.fields s q := by
  funext field
  have hlt := field.offset_lt
  exact h.words _ q PCB_SIZE hq (by norm_num [PCB_SIZE]) (by omega) (by omega) hqp

/-- `addProcess` puts the block at the end of the list. -/
theorem HeapInv.addProcess_ends (h : HeapInv L use live ranges s) {p : ℕ} {l : List ℕ}
    (hp : live p = some PCB_SIZE) (hl : ProcChain L s s.processLists l)
    (hlive : ∀ q ∈ l, live q = some PCB_SIZE) (hnew : p ∉ l)
    (hnext : L.fields s p .next = some 0) :
    Ends (L.addProcess p) s
      (fun _ s' => HeapInv L use live ranges s' ∧ Joined L use live p l s s' ∧
        (l = [] → s.currentIndex = 0))
      (fun _ => s.currentIndex ≠ 0 ∧ l = []) := by
  have hp0 : p ≠ 0 := by
    have := h.heap p _ hp
    omega
  have hp32 : p < 2 ^ 32 := lt_trans (h.live_lt hp) (by norm_num)
  unfold Layout.addProcess
  apply Ends.bind_ok (run_get s)
  by_cases hindex : s.currentIndex = 0
  · rw [if_pos hindex]
    have hw : ∀ b, ({ s with
        processLists := p, currentIndex := (s.currentIndex + 1) % 2 ^ 16 } : State).peek L.dirFrame b =
          s.peek L.dirFrame b := fun _ => rfl
    refine Ends.of_ok rfl ⟨h.setProcess p _, ⟨?_, rfl, fun b _ _ _ _ _ _ _ _ => hw b,
      fun q _ field _ _ => hw _, rfl, rfl, fun _ => rfl, rfl, .of_mem rfl rfl fun _ _ => rfl⟩,
      fun _ => hindex⟩
    rw [if_pos hindex]
    exact .cons hp0 ((hw _).trans hnext) .nil
  · rw [if_neg hindex]
    apply Ends.bind_ok (run_modify _ s)
    have h₁ := h.setProcess s.processLists ((s.currentIndex + 1) % 2 ^ 16)
    generalize hs₁ : ({ s with currentIndex := (s.currentIndex + 1) % 2 ^ 16 } : State) = s₁ at h₁ ⊢
    have hpeek₁ : s₁.peek L.dirFrame = s.peek L.dirFrame := by rw [← hs₁]; rfl
    have hfields₁ : ∀ q, L.fields s₁ q = L.fields s q := fun q => by
      funext field
      rw [Layout.fields, hpeek₁, Layout.fields]
    have hl₁ : ProcChain L s₁ s.processLists l := by
      rw [ProcChain]
      simp only [hfields₁]
      exact hl
    cases hlast : l.getLast? with
    | none =>
        have hnil := List.getLast?_eq_none_iff.mp hlast
        rw [hnil] at hl
        obtain ⟨e, hr⟩ := Layout.walkToEnd_null h₁.pages WALK_FUEL
        rw [hl.of_nil]
        exact Ends.of_error (run_bind_error hr) ⟨hindex, hnil⟩
    | some c =>
        have hc := List.mem_of_getLast? hlast
        have hc32 : c < 2 ^ 32 := lt_trans (h.live_lt (hlive c hc)) (by norm_num)
        have hcp : c ≠ p := fun hcp => hnew (hcp ▸ hc)
        apply Ends.bind_ok (Layout.walkToEnd_ok h₁ hl₁ hlive hlast (h.chain_length hl hlive))
        obtain ⟨s₂, hr₂, h₂, hw₂, hf₂⟩ := h₁.storeField_ok (hlive c hc) .next hp32
        apply Ends.bind_ok hr₂
        obtain ⟨s₃, hr₃, h₃, hw₃, hf₃⟩ := h₂.storeField_ok hp .prev hc32
        have hvars : s₃.processLists = s.processLists ∧
            s₃.currentIndex = (s.currentIndex + 1) % 2 ^ 16 := by
          rw [hw₃.vars.processLists, hw₂.vars.processLists, hw₃.vars.currentIndex,
            hw₂.vars.currentIndex, ← hs₁]
          exact ⟨rfl, rfl⟩
        -- the fields of every block afterwards
        have hfc : L.fields s₃ c = Function.update (L.fields s c) .next (some p) := by
          rw [hw₃.fields (hlive c hc) hcp, hf₂, hfields₁]
        have hfp : L.fields s₃ p = Function.update (L.fields s p) .prev (some c) := by
          rw [hf₃, hw₂.fields hp hcp.symm, hfields₁]
        have hfo : ∀ q, live q = some PCB_SIZE → q ≠ p → q ≠ c → L.fields s₃ q = L.fields s q := by
          intro q hq hqp hqc
          rw [hw₃.fields hq hqp, hw₂.fields hq hqc, hfields₁]
        have hlne : l = [] → s.currentIndex = 0 := by
          rintro rfl
          cases hlast
        refine Ends.of_ok hr₃ ⟨h₃, ⟨?_, hvars.2, ?_, ?_, ?_, ?_, ?_, ?_, ?_⟩, hlne⟩
        · rw [if_neg hindex, hvars.1]
          apply Chain.snoc hl hlast hp0
          · show L.fields s₃ c .next = some p
            rw [hfc, Function.update_self]
          · show L.fields s₃ p .next = some 0
            rw [hfp, Function.update_of_ne (by simp), hnext]
          · intro q hq hqc
            show L.fields s₃ q .next = L.fields s q .next
            rw [hfo q (hlive q hq) (fun hqp => hnew (hqp ▸ hq)) hqc]
        · intro b q n hq hn hb1 hb2 hqp hql
          have hqc : q ≠ c := fun hqc => hql (hqc ▸ hc)
          rw [hw₃.words b q n hq hn hb1 hb2 hqp, hw₂.words b q n hq hn hb1 hb2 hqc, hpeek₁]
        · intro q hq field hfn hfprev
          by_cases hqp : q = p
          · rw [hqp, hfp, Function.update_of_ne hfprev]
          · by_cases hqc : q = c
            · rw [hqc, hfc, Function.update_of_ne hfn]
            · rw [hfo q hq hqp hqc]
        · rw [hw₃.vars.domains, hw₂.vars.domains, ← hs₁]
        · rw [hw₃.vars.large, hw₂.vars.large, ← hs₁]
        · intro g
          rw [hw₃.alloc, hw₂.alloc, ← hs₁]
          rfl
        · rw [hw₃.maps, hw₂.maps, ← hs₁]
        · refine .trans (.of_mem ?_ ?_ fun _ _ => ?_) (hw₂.spares.trans hw₃.spares)
          all_goals rw [← hs₁]

end Blocks

end RaxzusHeap
