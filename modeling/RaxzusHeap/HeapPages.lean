import RaxzusHeap.MapPage
import RaxzusHeap.Lib.Chain

/-! # The pages of the heap

Every heap page is mapped twice, in the directory of the domain it belongs to and in the
kernel directory, to one frame of its own (`HeapPages`).  For the code above, that makes
memory at heap addresses behave like an array: a load finds the word last stored there
(`HeapPages.load`, `HeapPages.store`), whatever else the allocator does to frames, tables
and other pages (`SameHeap`). -/

namespace RaxzusHeap

open Imperative FirstFit

/-- The directory that page `p` of the heap belongs to. -/
def homeOf (p : ℕ) : Owner :=
  if p < 0x20000 then .cls .heap64
  else if p < 0x30000 then .cls .heap128
  else if p < 0x40000 then .cls .heap256
  else if p < 0x50000 then .cls .heap512
  else if p < 0x60000 then .cls .heap1k
  else if p < 0x70000 then .cls .heap2k
  else if p < 0x80000 then .cls .heap4k
  else .large

theorem homeOf_ne_proc (p : ℕ) : homeOf p ≠ .proc := by
  unfold homeOf
  split_ifs <;> simp

theorem homeOf_large {p : ℕ} (h : 0x80000 ≤ p) : homeOf p = .large := by
  unfold homeOf
  simp only [show ¬ p < 0x20000 by omega, show ¬ p < 0x30000 by omega,
    show ¬ p < 0x40000 by omega, show ¬ p < 0x50000 by omega, show ¬ p < 0x60000 by omega,
    show ¬ p < 0x70000 by omega, show ¬ p < 0x80000 by omega, if_false]

/-- The record of a domain names its directory. -/
def State.dirAddr (s : State) : Owner → ℕ
  | .cls d => (s.domains d).pageDirectory
  | .large => s.large.pageDirectory
  | .proc => 0

/-- Some frame backs heap page `p`. -/
def Backed (use : ℕ → Use) (p : ℕ) : Prop := ∃ f, use f = .page p

/-- Both mappings of every heap page. -/
structure HeapPages (L : Layout) (use : ℕ → Use) (s : State) : Prop where
  inv : PageInv L use s
  dirs : ∀ o D, use D = .dir o → o ≠ .proc → s.dirAddr o = KERNEL_BASE + D * 4096
  kernelMap : ∀ f p, use f = .page p → s.maps L.dirFrame p = some (f * 4096 + 3)
  homeMap : ∀ f p, use f = .page p →
    ∃ D, use D = .dir (homeOf p) ∧ s.maps D p = some (f * 4096 + 3)
  owner : ∀ d p e, s.maps d p = some e → use (e / 4096) = .page p →
    d = L.dirFrame ∨ use d = .dir (homeOf p)
  priv : ∀ f d p, use f = .priv d p → use d = .dir .proc
  region : ∀ f p, use f = .page p → 0x10000 ≤ p ∧ p < 0xC0000

/-- What the kernel reads at heap addresses has not changed. -/
def SameHeap (L : Layout) (use : ℕ → Use) (s s' : State) : Prop :=
  ∀ b, Backed use (b / 4096) → s'.peek L.dirFrame b = s.peek L.dirFrame b

/-- The word at heap address `a` is now `v`; nothing else changed. -/
structure Stored (L : Layout) (use : ℕ → Use) (a v : ℕ) (s s' : State) : Prop where
  peek : ∀ b, Backed use (b / 4096) →
    s'.peek L.dirFrame b = if b / 4 = a / 4 then some v else s.peek L.dirFrame b
  vars : SameVars s s'
  alloc : ∀ g, s'.allocated g = s.allocated g
  maps : s'.maps = s.maps
  stale : s'.stale = s.stale
  mem : ∀ g, ¬ (use g).Data → s'.mem g = s.mem g

theorem Stored.spares {L : Layout} {use : ℕ → Use} {a v : ℕ} {s s' : State}
    (h : Stored L use a v s s') : Spares use s use s' := by
  refine Spares.of_mem h.maps h.stale fun g hg => h.mem g fun hdata => ?_
  rcases hg with hfree | ⟨d, i, ht⟩
  · rw [hfree] at hdata
    exact hdata
  · rw [ht] at hdata
    exact hdata

/-- A frame was taken for the new page `p`; the pages that were there read as before. -/
structure Added (L : Layout) (D p f : ℕ) (use : ℕ → Use) (s : State) (use' : ℕ → Use)
    (s' : State) : Prop where
  pages : HeapPages L use' s'
  grown : Grown L D p f use s use' s'
  backed : ∀ q, Backed use' q ↔ Backed use q ∨ q = p
  same : SameHeap L use s s'

/-- Page `p` in frame `f` was unmapped and its frame released. -/
structure Removed (L : Layout) (p f : ℕ) (use : ℕ → Use) (s s' : State) : Prop where
  pages : HeapPages L (Function.update use f .free) s'
  same : SameHeap L (Function.update use f .free) s s'
  vars : SameVars s s'
  alloc : ∀ g, s'.allocated g = (s.unmark f).allocated g
  stale : s'.stale = s.stale
  maps : ∀ d q, q ≠ p → s'.maps d q = s.maps d q
  sub : ∀ d q e, s'.maps d q = some e → s.maps d q = some e

theorem Table.label {use use' : ℕ → Use} {s s' : State} {d i : ℕ} (h : Table use s d i use' s')
    {t c j : ℕ} (ht : use' t = .table c j) : use t = .table c j ∨ (c = d ∧ j = i) := by
  cases h with
  | found _ hu _ => exact Or.inl (by rw [← hu]; exact ht)
  | @taken u hnone hfirst hlt hu ha =>
      subst hu
      by_cases htu : t = u
      · rw [htu, Function.update_self] at ht
        cases ht
        exact Or.inr ⟨rfl, rfl⟩
      · rw [Function.update_of_ne htu] at ht
        exact Or.inl ht

namespace HeapPages

variable {L : Layout} {use use' : ℕ → Use} {s s' : State}

theorem dir_unique (h : HeapPages L use s) {o : Owner} {D D' : ℕ} (hD : use D = .dir o)
    (hD' : use D' = .dir o) (ho : o ≠ .proc) : D = D' := by
  have h1 := h.dirs o D hD ho
  have h2 := h.dirs o D' hD' ho
  omega

theorem frame_unique (h : HeapPages L use s) {f g p : ℕ} (hf : use f = .page p)
    (hg : use g = .page p) : f = g := by
  have h1 := h.kernelMap f p hf
  rw [h.kernelMap g p hg] at h1
  have := Option.some.inj h1
  omega

theorem of_kernelMap (h : HeapPages L use s) {p e : ℕ} (hm : s.maps L.dirFrame p = some e) :
    ∃ f, use f = .page p ∧ e = f * 4096 + 3 := by
  rcases h.inv.backed _ p e hm with hu | hu
  · have := h.kernelMap _ p hu
    rw [hm] at this
    exact ⟨_, hu, Option.some.inj this⟩
  · have := h.priv _ _ p hu
    rw [h.inv.use_dirFrame] at this
    cases this

theorem peek_page (h : HeapPages L use s) {f b : ℕ} (hf : use f = .page (b / 4096)) :
    s.peek L.dirFrame b = some (s.mem f (b % 4096 / 4)).toNat := by
  have hb : b = b / 4096 * 4096 + b % 4096 := by omega
  have hpeek := h.inv.peek_of_maps (h.kernelMap f _ hf)
    (Nat.mod_lt b (show 4096 > 0 by norm_num))
  rw [← hb, show (f * 4096 + 3) / 4096 = f by omega] at hpeek
  exact hpeek

theorem load (h : HeapPages L use s) {b : ℕ} (hb : Backed use (b / 4096)) :
    ∃ v < 2 ^ 32, s.peek L.dirFrame b = some v ∧ L.load b s = .ok v s := by
  obtain ⟨f, hf⟩ := hb
  have hp := h.peek_page hf
  exact ⟨_, (s.mem f (b % 4096 / 4)).isLt, hp, L.load_of_peek hp⟩

/-! ### Stores -/

theorem write (h : HeapPages L use s) {f p : ℕ} (hf : use f = .page p) (i v : ℕ) :
    HeapPages L use (s.write f i v) where
  inv := h.inv.writeData (by rw [hf]; exact id) i v
  dirs := fun o D hD ho => by
    have := h.dirs o D hD ho
    cases o <;> exact this
  kernelMap := h.kernelMap
  homeMap := h.homeMap
  owner := h.owner
  priv := h.priv
  region := h.region

theorem store (h : HeapPages L use s) {a v : ℕ} (ha : Backed use (a / 4096)) (hv : v < 2 ^ 32) :
    ∃ s', L.store a v s = .ok () s' ∧ HeapPages L use s' ∧ Stored L use a v s s' := by
  obtain ⟨f, hf⟩ := ha
  have ha' : a = a / 4096 * 4096 + a % 4096 := by omega
  have hwalk := h.inv.walk_of_maps (h.kernelMap f _ hf)
    (Nat.mod_lt a (show 4096 > 0 by norm_num))
  rw [← ha'] at hwalk
  have hw := h.write hf (a % 4096 / 4) v
  refine ⟨s.write f (a % 4096 / 4) v, ?_, hw, ?_⟩
  · rw [L.store_of_walk v hwalk, show (f * 4096 + 3) / 4096 = f by omega]
  · refine ⟨fun b ⟨g, hg⟩ => ?_, ⟨rfl, rfl, rfl, rfl⟩, fun _ => rfl, rfl, rfl, fun g hg => ?_⟩
    · rw [hw.peek_page hg, h.peek_page hg, State.mem_write]
      by_cases hab : b / 4 = a / 4
      · have hpage : b / 4096 = a / 4096 := by omega
        rw [hpage] at hg
        rw [if_pos ⟨h.frame_unique hg hf, by omega⟩, if_pos hab, BitVec.toNat_ofNat,
          Nat.mod_eq_of_lt hv]
      · rw [if_neg hab, if_neg]
        rintro ⟨rfl, hi⟩
        rw [hf] at hg
        injection hg with hpage
        omega
    · refine s.mem_write_ne_frame _ _ ?_
      rintro rfl
      rw [hf] at hg
      exact hg trivial

/-- The invariant does not read the variables other than the directories' addresses. -/
theorem congr (h : HeapPages L use s) (hmem : s'.mem = s.mem)
    (halloc : ∀ g, s'.allocated g = s.allocated g) (hmaps : s'.maps = s.maps)
    (hstale : s'.stale = s.stale) (hdir : ∀ o, s'.dirAddr o = s.dirAddr o) :
    HeapPages L use s' where
  inv := h.inv.relabel (fun _ _ _ => Iff.rfl)
    (fun f hf => by rw [halloc]; exact h.inv.alloc f hf) h.inv.range
    (fun _ _ => by rw [hmem]) hmaps hstale h.inv.backed
  dirs o D hD ho := by rw [hdir]; exact h.dirs o D hD ho
  kernelMap f p hf := by rw [hmaps]; exact h.kernelMap f p hf
  homeMap f p hf := by rw [hmaps]; exact h.homeMap f p hf
  owner d p e hm := by rw [hmaps] at hm; exact h.owner d p e hm
  priv := h.priv
  region := h.region

theorem sameHeap_of_mem (hmem : s'.mem = s.mem) : SameHeap L use s s' := by
  intro b _
  have hwalk : s'.walk L.dirFrame b = s.walk L.dirFrame b := by
    unfold State.walk State.pde
    rw [hmem]
  unfold State.peek
  rw [hwalk, hmem]

/-! ### Mapping a new page -/

theorem kept_of_grown {D p f : ℕ} (hf : use f = .free) (hg : Grown L D p f use s use' s') (g : ℕ)
    (hne : use g ≠ .free) : use' g = use g := by
  have hgf : g ≠ f := by rintro rfl; exact hne hf
  rw [hg.labels.kept g (by rw [Function.update_of_ne hgf]; exact hne), Function.update_of_ne hgf]

theorem table_of_grown {D p f c t i : ℕ} (hg : Grown L D p f use s use' s') (hcK : c ≠ L.dirFrame)
    (hcD : c ≠ D) (ht : use' t = .table c i) : use t = .table c i := by
  obtain ⟨u₁, s₁, ht₁, ht₂⟩ := hg.tables
  have h1 := (ht₂.label ht).resolve_right fun e => hcK e.1
  have h2 := (ht₁.label h1).resolve_right fun e => hcD e.1
  have htf : t ≠ f := by rintro rfl; rw [Function.update_self] at h2; cases h2
  rwa [Function.update_of_ne htf] at h2

theorem label_of_grown {D p f : ℕ} (hf : use f = .free) (hg : Grown L D p f use s use' s')
    {g : ℕ} {v : Use} (hv : v ≠ .free) (hvt : ∀ d i, v ≠ .table d i) :
    use' g = v ↔ use g = v ∨ (g = f ∧ v = .page p) := by
  rw [hg.labels.iff hv hvt g]
  by_cases hgf : g = f
  · subst hgf
    rw [Function.update_self, hf]
    constructor
    · rintro rfl; exact Or.inr ⟨rfl, rfl⟩
    · rintro (e | ⟨_, rfl⟩)
      · exact absurd e.symm hv
      · rfl
  · rw [Function.update_of_ne hgf]
    simp [hgf]

theorem added (h : HeapPages L use s) {D p f : ℕ} (hf : use f = .free)
    (hD : use D = .dir (homeOf p)) (hp : ¬ Backed use p) (hlo : 0x10000 ≤ p) (hhi : p < 0xC0000)
    (hg : Grown L D p f use s use' s') : Added L D p f use s use' s' := by
  have hpage : ∀ g q, use' g = .page q ↔ use g = .page q ∨ (g = f ∧ q = p) := fun g q => by
    rw [label_of_grown hf hg (by simp) (by simp)]
    simp
  have hdir : ∀ d o, use' d = .dir o ↔ use d = .dir o := fun d o => by
    rw [label_of_grown hf hg (by simp) (by simp)]
    simp
  have hold : ∀ g q, use g = .page q → q ≠ p := fun g q hq e => hp ⟨g, e ▸ hq⟩
  have hpages : HeapPages L use' s' :=
    { inv := hg.inv
      dirs := fun o d hd ho => by
        have := h.dirs o d ((hdir d o).mp hd) ho
        cases o with
        | cls c => rw [← this]; exact congrArg (fun r => (r c).pageDirectory) hg.vars.domains
        | large => rw [← this]; exact congrArg LargeDomain.pageDirectory hg.vars.large
        | proc => exact absurd rfl ho
      kernelMap := fun g q hq => by
        rw [hg.maps]
        rcases (hpage g q).mp hq with hq | ⟨rfl, rfl⟩
        · rw [if_neg (fun hc => hold g q hq hc.2)]
          exact h.kernelMap g q hq
        · rw [if_pos ⟨Or.inr rfl, rfl⟩]
      homeMap := fun g q hq => by
        rcases (hpage g q).mp hq with hq | ⟨rfl, rfl⟩
        · obtain ⟨d, hd, hm⟩ := h.homeMap g q hq
          refine ⟨d, (hdir d _).mpr hd, ?_⟩
          rw [hg.maps, if_neg (fun hc => hold g q hq hc.2)]
          exact hm
        · refine ⟨D, (hdir D _).mpr hD, ?_⟩
          rw [hg.maps, if_pos ⟨Or.inl rfl, rfl⟩]
      owner := fun d q e hm hq => by
        rw [hg.maps] at hm
        split_ifs at hm with hc
        · obtain ⟨rfl | rfl, rfl⟩ := hc
          · exact Or.inr ((hdir d _).mpr hD)
          · exact Or.inl rfl
        · rcases (hpage _ q).mp hq with hq | ⟨hef, _⟩
          · rcases h.owner d q e hm hq with hd | hd
            · exact Or.inl hd
            · exact Or.inr ((hdir d _).mpr hd)
          · -- the frame was free, so nothing rests on it
            have := h.inv.data_of_maps hm
            rw [hef, hf] at this
            exact this.elim
      priv := fun g d q hq => by
        rw [label_of_grown hf hg (by simp) (by simp)] at hq
        rw [hdir]
        exact h.priv g d q (by simpa using hq)
      region := fun g q hq => by
        rcases (hpage g q).mp hq with hq | ⟨_, rfl⟩
        · exact h.region g q hq
        · exact ⟨hlo, hhi⟩ }
  refine ⟨hpages, hg, fun q => ?_, fun b ⟨g, hb⟩ => ?_⟩
  · constructor
    · rintro ⟨g, hq⟩
      rcases (hpage g q).mp hq with hq | ⟨_, rfl⟩
      · exact Or.inl ⟨g, hq⟩
      · exact Or.inr rfl
    · rintro (⟨g, hq⟩ | rfl)
      · exact ⟨g, (hpage g q).mpr (Or.inl hq)⟩
      · exact ⟨f, (hpage f q).mpr (Or.inr ⟨rfl, rfl⟩)⟩
  · rw [h.peek_page hb, hpages.peek_page ((hpage g _).mpr (Or.inl hb)),
      hg.data g (by rw [hb]; trivial)]

theorem mapBoth {α : Type} {k : Kernel α} {Q : α → State → Prop} {E : State → Prop}
    (h : HeapPages L use s) {D p f m : ℕ} (hD : use D = .dir (homeOf p)) (hf : use f = .free)
    (hflt : f < 0x80000) (hp : ¬ Backed use p) (hlo : 0x10000 ≤ p) (hhi : p < 0xC0000)
    (hroom : s.newTables L D p ≠ 0 → Room s.allocated (1 + s.newTables L D p) m)
    (hm : m ≤ 0x50000) (hk : ∀ use' s', Added L D p f use s use' s' → Ends k s' Q E)
    (hE : ∀ s', 0x40000 < m → Faulted L p s s' → E s') :
    Ends (do
      L.mapPage (KERNEL_BASE + D * 4096) (p * 4096) (f * 4096) PAGE_KERNEL
      L.mapPage L.kernelPageDir (p * 4096) (f * 4096) PAGE_KERNEL
      k) (s.take f) Q E :=
  h.inv.mapBoth hD hf hflt hlo hhi hroom hm
    (fun use' s' hg => hk use' s' (h.added hf hD hp hlo hhi hg)) hE

/-! ### Unmapping a page of the large domain -/

theorem unmap (h : HeapPages L use s) {p f : ℕ} (hf : use f = .page p) (hp : 0x80000 ≤ p) :
    ∃ s', L.largeUnmapPage (p * 4096) true s = .ok () s' ∧ Removed L p f use s s' := by
  obtain ⟨D, hD, hmD⟩ := h.homeMap f p hf
  rw [homeOf_large hp] at hD
  have hmK := h.kernelMap f p hf
  have hdir : s.large.pageDirectory = KERNEL_BASE + D * 4096 := h.dirs .large D hD (by simp)
  obtain ⟨_, _, tD, htD, _⟩ := h.inv.pte D p _ hmD
  obtain ⟨_, _, tK, htK, _⟩ := h.inv.pte L.dirFrame p _ hmK
  have hDK : L.dirFrame ≠ D := by rintro rfl; rw [h.inv.use_dirFrame] at hD; cases hD
  have h₁ := h.inv.resetEntry htD
  set s₁ := (s.write tD (p % 1024) 0).uninstall (KERNEL_BASE + D * 4096) (p * 4096) with hs₁
  have hm₁ : s₁.maps L.dirFrame p = some (f * 4096 + 3) := by
    rw [hs₁, State.maps_uninstall, if_neg (fun hc => hDK hc.1)]
    exact hmK
  have h₂ := h₁.resetEntry htK
  set s₂ := (s₁.write tK (p % 1024) 0).uninstall (KERNEL_BASE + L.dirFrame * 4096) (p * 4096)
    with hs₂
  have hmaps₂ : ∀ d q, s₂.maps d q =
      if (d = D ∨ d = L.dirFrame) ∧ q = p then none else s.maps d q := fun d q => by
    rw [hs₂, State.maps_uninstall, State.maps_write, hs₁, State.maps_uninstall, State.maps_write]
    by_cases hq : q = p <;> by_cases hK : d = L.dirFrame <;> by_cases hd : d = D <;>
      simp [hq, hK, hd]
  have hdiv : (f * 4096 + 3) / 4096 = f := by omega
  -- no mapping of the frame is left
  have hnone : ∀ d q e, s₂.maps d q = some e → e / 4096 ≠ f := by
    intro d q e hm hef
    rw [hmaps₂] at hm
    split_ifs at hm with hc
    have hq : q = p := by
      rcases h.inv.backed d q e hm with hu | hu <;> rw [hef, hf] at hu <;> cases hu
      rfl
    subst hq
    rcases h.owner d q e hm (by rw [hef, hf]) with hd | hd
    · exact hc ⟨Or.inr hd, rfl⟩
    · rw [homeOf_large hp] at hd
      exact hc ⟨Or.inl (h.dir_unique hd hD (by simp)), rfl⟩
  have h₃ := h₂.freeData (by rw [hf]; trivial) hnone
  refine ⟨s₂.unmark f, ?_, ?_⟩
  · unfold Layout.largeUnmapPage
    rw [run_bind_ok (run_get s), hdir, run_bind_ok (L.clearEntry_keep h.inv htD)]
    have := L.clearEntry_free h₁ htK hm₁
    rw [hdiv] at this
    exact this
  have hpage : ∀ g q, Function.update use f Use.free g = .page q ↔ use g = .page q ∧ g ≠ f := by
    intro g q
    by_cases hgf : g = f
    · subst hgf; simp
    · simp [hgf]
  have hdirs : ∀ d o, Function.update use f Use.free d = .dir o ↔ use d = .dir o := by
    intro d o
    by_cases hdf : d = f
    · subst hdf; simp [hf]
    · simp [hdf]
  have hne : ∀ g q, use g = .page q → g ≠ f → q ≠ p := fun g q hq hgf e =>
    hgf (h.frame_unique (e ▸ hq) hf)
  have hmaps : ∀ d q, q ≠ p → (s₂.unmark f).maps d q = s.maps d q := fun d q hq => by
    show s₂.maps d q = _
    rw [hmaps₂, if_neg (fun hc => hq hc.2)]
  have hpages : HeapPages L (Function.update use f .free) (s₂.unmark f) :=
    { inv := h₃
      dirs := fun o d hd ho => by
        have := h.dirs o d ((hdirs d o).mp hd) ho
        cases o <;> exact this
      kernelMap := fun g q hq => by
        obtain ⟨hq, hgf⟩ := (hpage g q).mp hq
        rw [hmaps _ _ (hne g q hq hgf)]
        exact h.kernelMap g q hq
      homeMap := fun g q hq => by
        obtain ⟨hq, hgf⟩ := (hpage g q).mp hq
        obtain ⟨d, hd, hm⟩ := h.homeMap g q hq
        refine ⟨d, (hdirs d _).mpr hd, ?_⟩
        rw [hmaps _ _ (hne g q hq hgf)]
        exact hm
      owner := fun d q e hm hq => by
        obtain ⟨hq, hgf⟩ := (hpage _ q).mp hq
        rw [hmaps _ _ (hne _ q hq hgf)] at hm
        rw [hdirs]
        exact h.owner d q e hm hq
      priv := fun g d q hq => by
        rw [hdirs]
        refine h.priv g d q ?_
        by_cases hgf : g = f
        · rw [hgf, Function.update_self] at hq; cases hq
        · rwa [Function.update_of_ne hgf] at hq
      region := fun g q hq => h.region g q ((hpage g q).mp hq).1 }
  refine ⟨hpages, fun b ⟨g, hb⟩ => ?_, ⟨rfl, rfl, rfl, rfl⟩, fun g => rfl, rfl, hmaps,
    fun d q e hm => ?_⟩
  · have hg := ((hpage g _).mp hb).1
    have htab : ∀ t d i, use t = .table d i → g ≠ t := by
      rintro t d i ht rfl
      rw [ht] at hg; cases hg
    rw [hpages.peek_page hb, h.peek_page hg, State.mem_unmark, hs₂, State.mem_uninstall,
      State.mem_write_ne_frame _ _ _ (htab tK _ _ htK), hs₁, State.mem_uninstall,
      State.mem_write_ne_frame _ _ _ (htab tD _ _ htD)]
  · change s₂.maps d q = some e at hm
    rw [hmaps₂] at hm
    split_ifs at hm
    exact hm

theorem backed_release (h : HeapPages L use s) {p f : ℕ} (hf : use f = .page p) (q : ℕ) :
    Backed (Function.update use f .free) q ↔ Backed use q ∧ q ≠ p := by
  constructor
  · rintro ⟨g, hg⟩
    have hgf : g ≠ f := by rintro rfl; rw [Function.update_self] at hg; cases hg
    rw [Function.update_of_ne hgf] at hg
    exact ⟨⟨g, hg⟩, by rintro rfl; exact hgf (h.frame_unique hg hf)⟩
  · rintro ⟨⟨g, hg⟩, hq⟩
    have hgf : g ≠ f := by
      rintro rfl
      rw [hf] at hg
      injection hg with e
      exact hq e.symm
    exact ⟨g, by rw [Function.update_of_ne hgf]; exact hg⟩

end HeapPages

end RaxzusHeap
