import RaxzusHeap.ContextRuns

/-! # One process after another

`Creates o l o'`: successful calls of `create_process` took the machine from `o` to `o'`, and
`l` are the blocks they made, in order.

`create_process` asks the 16-bit `current_index` whether the list is empty.  The counter
wraps after 65536 calls, and the next process then becomes the whole list.  `Listed` splits
the processes into those lost so (`old`) and the list (`cur`); `process_list_iff` says that
none is lost exactly as long as there are at most 65536. -/

namespace RaxzusHeap

open Linked

namespace Sched

variable {s s' : Sched} {l : List Word} {fuel : ℕ}

/-- The list consists of `l`, `next` and `prev` are inverse along it, and no two processes
have the same PID. -/
structure WellFormed (s : Sched) (l : List Word) : Prop where
  list : ProcessList s l
  inverse : ∀ a ∈ l, ∀ b ∈ l, (s.pcb a).next = b ↔ (s.pcb b).prev = a
  first : ∀ a ∈ l.head?, (s.pcb a).prev = 0
  pids : (l.map fun a => (s.pcb a).pid).Nodup

/-- The processes `cur` form the list; `old` are those created before it started. -/
structure Listed (s : Sched) (old cur : List Word) : Prop where
  list : ProcessList s cur
  back : cur.IsChain fun a b => (s.pcb b).prev = a
  first : ∀ a ∈ cur.head?, (s.pcb a).prev = 0
  pids : (cur.map fun a => (s.pcb a).pid) = List.range cur.length
  index : s.currentIndex = cur.length % 2 ^ 16
  few : cur.length ≤ 2 ^ 16
  rest : cur = [] → old = []
  lost : old = [] ∨ 2 ^ 16 ≤ old.length

namespace Listed

variable {old cur : List Word} {new : Word}

theorem congr (h : Listed s old cur) (hpcb : ∀ a ∈ cur, s'.pcb a = s.pcb a)
    (hlists : s'.processLists = s.processLists) (hindex : s'.currentIndex = s.currentIndex) :
    Listed s' old cur where
  list := by
    rw [ProcessList, hlists]
    exact h.list.congr fun b hb => by rw [hpcb b hb]
  back := h.back.imp_of_mem_imp fun a b _ hb hab => by rw [hpcb b hb, hab]
  first a ha := by rw [hpcb a (List.mem_of_mem_head? ha), h.first a ha]
  pids := by rw [← h.pids]; exact List.map_congr_left fun a ha => by rw [hpcb a ha]
  index := hindex.trans h.index
  few := h.few
  rest := h.rest
  lost := h.lost

theorem write_outside (h : Listed s old cur) (hmem : new ∉ cur) (f : PCB → PCB) :
    Listed (s.setPcb new f) old cur :=
  h.congr (fun _ ha => if_neg (ne_of_mem_of_not_mem ha hmem)) rfl rfl

/-- The counter stands at zero: the new process is the list. -/
theorem restart (h : Listed s old cur) (hindex : s.currentIndex = 0) (hne : new ≠ 0)
    (hnext : (s.pcb new).next = 0) (hprev : (s.pcb new).prev = 0)
    (hpid : (s.pcb new).pid = s.currentIndex) (hrun : s.addToList fuel new = some s') :
    Listed s' (old ++ cur) [new] := by
  obtain ⟨hlist, hindex', -⟩ := addToList_first hindex hne hnext hrun
  rw [addToList, if_pos hindex, Option.some.injEq] at hrun
  subst hrun
  have hidx := h.index
  have hfew := h.few
  refine ⟨hlist, .singleton _, fun a ha => ?_, ?_, hindex', by simp, by simp, ?_⟩
  · cases ha
    exact hprev
  · show [(s.pcb new).pid] = _
    rw [hpid, hindex]
    rfl
  · rw [hindex] at hidx
    by_cases hcur : cur.length = 0
    · have hnil := List.eq_nil_of_length_eq_zero hcur
      rw [h.rest hnil, hnil]
      exact .inl rfl
    · rw [List.length_append]
      exact .inr (by omega)

/-- The counter is not zero: the new process joins the list. -/
theorem append (h : Listed s old cur) (hindex : s.currentIndex ≠ 0) (hne : new ≠ 0)
    (hmem : new ∉ cur) (hnext : (s.pcb new).next = 0)
    (hpid : (s.pcb new).pid = s.currentIndex) (hrun : s.addToList fuel new = some s') :
    Listed s' old (cur ++ [new]) := by
  have hidx := h.index
  have hfew := h.few
  have hlt : cur.length < 2 ^ 16 := by
    rcases Nat.lt_or_eq_of_le hfew with hlt | heq
    · exact hlt
    · rw [heq, Nat.mod_self] at hidx
      exact absurd hidx hindex
  rw [Nat.mod_eq_of_lt hlt] at hidx
  have hcur : cur ≠ [] := by
    rintro rfl
    exact hindex hidx
  obtain ⟨d, hd, hs'⟩ := h.list.addToList_eq hcur hindex hrun
  have hdl : d ∈ cur := List.mem_of_getLast? hd
  have hdn : d ≠ new := ne_of_mem_of_not_mem hdl hmem
  -- the blocks of the list, and the new one, afterwards
  have hpcb : ∀ a ∈ cur, s'.pcb a = { s.pcb a with next := if a = d then new else (s.pcb a).next } := by
    intro a ha
    have han : a ≠ new := ne_of_mem_of_not_mem ha hmem
    by_cases had : a = d
    · simp [hs', setPcb, had, hdn]
    · simp [hs', setPcb, han, had]
  have hnew : s'.pcb new = { s.pcb new with prev := d } := by simp [hs', setPcb, hdn.symm]
  have hlists : s'.processLists = s.processLists := by rw [hs']; rfl
  have hindex' : s'.currentIndex = (s.currentIndex + 1) % 2 ^ 16 := by rw [hs']; rfl
  refine ⟨?_, ?_, fun a ha => ?_, ?_, ?_, ?_, fun hnil => absurd hnil (by simp), h.lost⟩
  · rw [ProcessList, hlists]
    refine h.list.snoc hd hne ?_ ?_ fun a ha had => ?_
    · rw [hpcb d hdl, if_pos rfl]
    · rw [hnew, hnext]
    · rw [hpcb a ha, if_neg had]
  · refine List.isChain_append.mpr ⟨?_, .singleton _, fun a ha b hb => ?_⟩
    · exact h.back.imp_of_mem_imp fun a b _ hb hab => by rw [hpcb b hb, hab]
    · cases hb
      rw [hd] at ha
      cases ha
      rw [hnew]
  · have ha' : a ∈ cur.head? := by rwa [List.head?_append_of_ne_nil _ hcur] at ha
    rw [hpcb a (List.mem_of_mem_head? ha'), h.first a ha']
  · have hold : (cur.map fun a => (s'.pcb a).pid) = List.range cur.length := by
      rw [← h.pids]
      exact List.map_congr_left fun a ha => by rw [hpcb a ha]
    rw [List.map_append, hold, List.length_append, List.length_singleton, List.range_succ,
      List.map_singleton, hnew, hpid, hidx]
  · rw [hindex', hidx, List.length_append, List.length_singleton]
  · rw [List.length_append, List.length_singleton]
    omega

theorem addToList (h : Listed s old cur) (hne : new ≠ 0) (hmem : new ∉ cur)
    (hnext : (s.pcb new).next = 0) (hprev : (s.pcb new).prev = 0)
    (hpid : (s.pcb new).pid = s.currentIndex) (hrun : s.addToList fuel new = some s') :
    ∃ old' cur', old' ++ cur' = old ++ cur ++ [new] ∧ Listed s' old' cur' := by
  by_cases hindex : s.currentIndex = 0
  · exact ⟨old ++ cur, [new], rfl, h.restart hindex hne hnext hprev hpid hrun⟩
  · exact ⟨old, cur ++ [new], by rw [List.append_assoc], h.append hindex hne hmem hnext hpid hrun⟩

/-- No process is lost while there are at most 65536, and some are when there are more. -/
theorem wellFormed_iff (h : Listed s old cur) :
    WellFormed s (old ++ cur) ↔ (old ++ cur).length ≤ 2 ^ 16 := by
  constructor
  · intro hwf
    rw [hwf.list.unique h.list]
    exact h.few
  · intro hle
    rw [List.length_append] at hle
    have hold : old = [] := by
      rcases h.lost with hold | hlost
      · exact hold
      · exact h.rest (List.eq_nil_of_length_eq_zero (by omega))
    subst hold
    refine ⟨h.list, fun a ha b hb => ?_, h.first, ?_⟩
    · rw [← h.list.inverse h.back h.first ha hb, Option.some.injEq]
    · rw [List.nil_append, h.pids]
      exact List.nodup_range

end Listed

end Sched

/-! ### Runs -/

namespace Os

variable {o o' : Os} {l : List Word} {fuel func : ℕ} {isUser : Bool} {new : NewProcess}

/-- Successful calls of `create_process`, one after another: `kmalloc` returned a block that
is not null and not in use. -/
inductive Creates : Os → List Word → Os → Prop where
  | nil (o : Os) : Creates o [] o
  | create {o o₁ o₂ : Os} {l : List Word} {fuel func : ℕ} {isUser : Bool} {new : NewProcess} :
      Creates o l o₁ → new.pcb ≠ 0 → new.pcb ∉ l →
      o₁.createProcess fuel func isUser new = some o₂ → Creates o (l ++ [new.pcb]) o₂

theorem listed_create {old cur : List Word} (h : o.sched.Listed old cur) (hne : new.pcb ≠ 0)
    (hmem : new.pcb ∉ cur) (hrun : o.createProcess fuel func isUser new = some o') :
    ∃ old' cur', old' ++ cur' = old ++ cur ++ [new.pcb] ∧ o'.sched.Listed old' cur' := by
  obtain ⟨-, -, esp, hadd, -⟩ := createProcess_eq_some hrun
  have hself : (o.sched.setPcb new.pcb fun _ => o.newBlock new esp).pcb new.pcb =
      o.newBlock new esp := if_pos rfl
  exact (h.write_outside hmem _).addToList hne hmem (by rw [hself]; rfl) (by rw [hself]; rfl) (by rw [hself]; rfl) hadd

theorem Creates.listed (h : Creates o l o') (hindex : o.sched.currentIndex = 0)
    (hlists : o.sched.processLists = 0) :
    ∃ old cur, l = old ++ cur ∧ o'.sched.Listed old cur := by
  induction h with
  | nil =>
      refine ⟨[], [], rfl, ?_, .nil, by simp, rfl, hindex, by simp, fun _ => rfl, .inl rfl⟩
      rw [Sched.ProcessList, hlists]
      exact .nil
  | create _ hne hmem hrun ih =>
      obtain ⟨old, cur, rfl, hlisted⟩ := ih
      obtain ⟨old', cur', heq, hlisted'⟩ :=
        listed_create hlisted hne (fun hc => hmem (List.mem_append_right _ hc)) hrun
      exact ⟨old', cur', heq.symm, hlisted'⟩

theorem Creates.exists_create (h : Creates o l o') (hindex : o.sched.currentIndex = 0)
    (hlists : o.sched.processLists = 0) (func : ℕ) (isUser : Bool) {new : NewProcess}
    (hmem : new.pcb ∉ l) : ∃ fuel o₂, o'.createProcess fuel func isUser new = some o₂ := by
  obtain ⟨old, cur, rfl, hlisted⟩ := h.listed hindex hlists
  refine ⟨cur.length, createProcess_of_addToList fun esp => ?_⟩
  have hset := hlisted.write_outside (fun hc => hmem (List.mem_append_right _ hc))
    fun _ => o'.newBlock new esp
  by_cases hnil : cur = []
  · have hzero := hset.index
    rw [hnil] at hzero
    exact ⟨_, if_pos hzero⟩
  · exact hset.list.exists_addToList hnil

/-- From an empty list on, the list is well formed as long as at most 65536 processes were
created; the next call of `create_process` returns in any case. -/
theorem process_list_iff (o o' : Os) (l : List Word) (hindex : o.sched.currentIndex = 0)
    (hlists : o.sched.processLists = 0) (h : Creates o l o') :
    (o'.sched.WellFormed l ↔ l.length ≤ 2 ^ 16) ∧
      ∀ func isUser (new : NewProcess), new.pcb ∉ l →
        ∃ fuel o₂, o'.createProcess fuel func isUser new = some o₂ := by
  refine ⟨?_, fun func isUser new hmem => h.exists_create hindex hlists func isUser hmem⟩
  obtain ⟨old, cur, rfl, hlisted⟩ := h.listed hindex hlists
  exact hlisted.wellFormed_iff

/-- The blocks `heap_128` hands out one after another. -/
def pcbBlock (i : ℕ) : Word := BitVec.ofNat 32 (0x20000000 + 128 * i)

theorem pcbBlock_toNat {i : ℕ} (hi : i < 2 ^ 21) : (pcbBlock i).toNat = 0x20000000 + 128 * i := by
  rw [pcbBlock, BitVec.toNat_ofNat]
  omega

/-- From the idle machine on, up to `2 ^ 21` processes can be created on those blocks. -/
theorem exists_creates (n : ℕ) (hn : n ≤ 2 ^ 21) :
    ∃ o, Creates idle ((List.range n).map pcbBlock) o := by
  induction n with
  | zero => exact ⟨idle, .nil idle⟩
  | succ k ih =>
      obtain ⟨o, ho⟩ := ih (by omega)
      have hk := pcbBlock_toNat (i := k) (by omega)
      have hne : pcbBlock k ≠ 0 := by
        intro h0
        have hzero : (0 : Word).toNat = 0 := rfl
        rw [h0, hzero] at hk
        omega
      have hmem : pcbBlock k ∉ (List.range k).map pcbBlock := by
        intro hin
        obtain ⟨i, hi, heq⟩ := List.mem_map.mp hin
        have hik := List.mem_range.mp hi
        have hi' := pcbBlock_toNat (i := i) (by omega)
        rw [heq, hk] at hi'
        omega
      obtain ⟨fuel, o₂, hrun⟩ : ∃ fuel o₂, o.createProcess fuel 0xC0101000 false
          ⟨pcbBlock k, 0xC0A09000, 0x70000000⟩ = some o₂ :=
        ho.exists_create rfl rfl 0xC0101000 false hmem
      refine ⟨o₂, ?_⟩
      rw [List.range_succ, List.map_append, List.map_singleton]
      exact .create ho hne hmem hrun

/-- One process. -/
theorem process_list_iff_one : ∃ o, Creates idle [0x20000000] o ∧
    o.sched.WellFormed [0x20000000] := by
  obtain ⟨o, ho⟩ := exists_creates 1 (by norm_num)
  exact ⟨o, ho, (process_list_iff idle o _ rfl rfl ho).1.mpr (by simp)⟩

/-- The counter is back at zero after 65536 processes, and the next one replaces the list. -/
theorem process_list_restarts : ∃ l o, Creates idle l o ∧ l.length = 65537 ∧
    ¬ o.sched.WellFormed l := by
  obtain ⟨o, ho⟩ := exists_creates 65537 (by norm_num)
  refine ⟨_, o, ho, by simp, fun hwf => ?_⟩
  obtain ⟨old, cur, heq, hlisted⟩ := ho.listed rfl rfl
  rw [heq, hlisted.wellFormed_iff, ← heq, List.length_map, List.length_range] at hwf
  omega

end Os

end RaxzusHeap
