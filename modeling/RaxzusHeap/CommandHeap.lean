import RaxzusHeap.Ledger
import RaxzusHeap.Tokens

/-! # The heap during a command

The memory tests keep their ledger (`Held`) from call to call: each turn of their loops fills
or frees entries of the tables.  The runs considered are those whose heap calls all stay within
the limits of memory. -/

namespace RaxzusHeap

open Imperative Shell

/-- All heap calls so far stayed within the limits of memory. -/
def CallsWithin (L : Layout) (t : ShellState) : Prop := ∀ c ∈ t.calls, WithinLimits L c

/-- The ledger of a state of the shell. -/
def Holding (L : Layout) (live₀ : ℕ → Option ℕ) (roots : List ℕ) (tables : List PtrTable)
    (slot : PtrTable × ℕ → EntryState) (t : ShellState) : Prop :=
  Held L live₀ roots tables slot t.live t.machine

/-- `p` is a root of `n` bytes and no table. -/
structure Rooted (L : Layout) (live₀ : ℕ → Option ℕ) (roots : List ℕ) (tables : List PtrTable)
    (slot : PtrTable × ℕ → EntryState) (p n : ℕ) (t : ShellState) : Prop where
  held : Holding L live₀ (p :: roots) tables slot t
  live : t.live p = some n
  base : ∀ c ∈ tables, c.base ≠ p

section Steps

variable {α : Type} {L : Layout} {P : ShellState → Prop}

theorem yields_lift {x : Kernel α} {Q : α → ShellState → Prop}
    (h : ∀ t a s, x t.machine = .ok a s → P t → Q a { t with machine := s }) :
    Yields (CallsWithin L) P (lift x) Q := by
  refine .of_ok fun t a t' hr hW => ?_
  obtain ⟨s, hx, rfl⟩ := lift_eq_ok hr
  exact ⟨hW, h t a s hx⟩

theorem yields_emit {e : Event} {Q : Unit → ShellState → Prop}
    (h : ∀ t, P t → Q () { t with events := t.events ++ [e] }) :
    Yields (CallsWithin L) P (emit e) Q := by
  refine .of_ok fun t a t' hr hW => ?_
  cases hr
  exact ⟨hW, h t⟩

theorem yields_call {op : HeapOp} {Q : ℕ → ShellState → Prop}
    (h : ∀ t a s, L.heapCall op t.machine = .ok a s →
      WithinLimits L ⟨t.live, t.machine, op, a, s⟩ → P t →
      Q a ⟨s, t.events, liveAfter t.live op a, t.calls ++ [⟨t.live, t.machine, op, a, s⟩]⟩) :
    Yields (CallsWithin L) P (call L op) Q := by
  refine .of_ok fun t a t' hr hW => ?_
  obtain ⟨s, hx, rfl⟩ := call_eq_ok hr
  exact ⟨fun c hc => hW c (List.mem_append_left _ hc),
    h t a s hx (hW _ (List.mem_append_right _ List.mem_cons_self))⟩

end Steps

section Heap

variable {L : Layout} {live₀ : ℕ → Option ℕ} {roots : List ℕ} {tables : List PtrTable}
  {slot : PtrTable × ℕ → EntryState} {c : PtrTable} {rest : List ℕ} {i p n : ℕ}

/-! ### Allocation and release -/

theorem kmalloc_yields :
    Yields (CallsWithin L) (Holding L live₀ roots tables slot) (Shell.kmalloc L n)
      fun a t => a ≠ 0 ∧ Rooted L live₀ roots tables slot a n t := by
  refine yields_call fun t a s hr hG ht => ?_
  obtain ⟨ha, hbase, h'⟩ := Held.kmalloc ht hr hG
  have hlive : liveAfter t.live (.kmalloc n) a = Function.update t.live a (some n) := if_neg ha
  refine ⟨ha, ?_, ?_, hbase⟩
  · unfold Holding
    rw [hlive]
    exact h'
  · show liveAfter t.live (.kmalloc n) a a = some n
    rw [hlive, Function.update_self]

theorem kfree_yields (l₁ l₂ : List ℕ) :
    Yields (CallsWithin L) (fun t => Holding L live₀ (l₁ ++ p :: l₂) tables slot t ∧
        ∀ c ∈ tables, c.base ≠ p) (Shell.kfree L p)
      fun _ => Holding L live₀ (l₁ ++ l₂) tables slot := by
  refine (yields_call (Q := fun _ => Holding L live₀ (l₁ ++ l₂) tables slot) ?_).bind
    fun _ => .pure fun _ h => h
  intro t a s hr hG ht
  exact Held.kfree l₁ l₂ ht.1 ht.2 hr hG

theorem kfree_root_yields (l₁ l₂ : List ℕ) (p : ℕ) :
    Yields (CallsWithin L) (Holding L live₀ (l₁ ++ p :: l₂) [] noSlots) (Shell.kfree L p)
      fun _ => Holding L live₀ (l₁ ++ l₂) [] noSlots :=
  (kfree_yields l₁ l₂).mono (fun _ ht => ⟨ht, fun _ hc => by cases hc⟩) fun _ _ h => h

theorem kfree_zero_yields :
    Yields (CallsWithin L) (Holding L live₀ roots tables slot) (Shell.kfree L 0)
      fun _ => Holding L live₀ roots tables slot := by
  refine (yields_call (Q := fun _ => Holding L live₀ roots tables slot) ?_).bind
    fun _ => .pure fun _ h => h
  intro t a s hr _ ht
  have hs : L.heapCall (.kfree 0) t.machine = .ok 0 t.machine := rfl
  rw [hs] at hr
  cases hr
  have hzero : t.live 0 = none := by
    cases h0 : t.live 0 with
    | none => rfl
    | some k => exact absurd rfl (Held.heap ht |>.live_ne_zero h0)
  have hlive : liveAfter t.live (.kfree 0) 0 = t.live := by
    rw [liveAfter_freed rfl, ← hzero, Function.update_eq_self]
  show Held L live₀ roots tables slot (liveAfter t.live (.kfree 0) 0) t.machine
  rw [hlive]
  exact ht

/-! ### Entries of a table -/

theorem Held.entry_eq {live : ℕ → Option ℕ} {s : State} (h : Held L live₀ roots tables slot live s)
    (hc : c ∈ tables) (hi : i < FRAG_N) : u32 (c.base + 4 * i) = c.entry i := by
  obtain ⟨h1, h2⟩ := Held.entry_mem (x := (c, i)) hi
  exact u32_of_lt (h.heap.addr_lt (h.table c hc).2 h1 h2)

theorem fillEntry_yields (hc : c ∈ tables) (hi : i < FRAG_N) (hslot : slot (c, i) = .empty)
    (hsize : 4 ≤ c.size) :
    Yields (CallsWithin L) (Holding L live₀ roots tables slot) (L.fillEntry c i)
      fun _ => Holding L live₀ roots tables (Function.update slot (c, i) .full) := by
  refine kmalloc_yields.bind fun p => Yields.bind (Q := fun _ t =>
      Rooted L live₀ roots tables slot p c.size t ∧
      t.machine.peek L.dirFrame (c.entry i) = some p) ?_ fun _ => Yields.bind (Q := fun q t =>
      q = p ∧ Rooted L live₀ roots tables slot p c.size t ∧
      t.machine.peek L.dirFrame (c.entry i) = some p) ?_ fun q => ?_
  · refine yields_lift fun t _ s hr ht => ?_
    obtain ⟨-, hheld, hlive, hbase⟩ := ht
    obtain ⟨s', hrun, h', hpeek⟩ := Held.storeEntry hheld (x := (c, i)) hc hi hslot
      (hheld.heap.live_lt hlive)
    rw [hheld.entry_eq hc hi, hrun] at hr
    cases hr
    exact ⟨⟨h', hlive, hbase⟩, hpeek⟩
  · refine yields_lift fun t q s hr ht => ?_
    obtain ⟨⟨hheld, hlive, hbase⟩, hentry⟩ := ht
    rw [hheld.entry_eq hc hi] at hr
    obtain ⟨rfl, hq⟩ := L.load_ok hr
    rw [hentry] at hq
    exact ⟨(Option.some.inj hq).symm, ⟨hheld, hlive, hbase⟩, hentry⟩
  · refine yields_lift fun t _ s hr ht => ?_
    obtain ⟨rfl, ⟨hheld, hlive, hbase⟩, hentry⟩ := ht
    obtain ⟨s', hrun, h', hpeek⟩ := Held.storeRoot hheld (k := 0) (v := c.mark i)
      List.mem_cons_self hbase hlive (by omega) (Nat.mod_lt _ (by norm_num))
    obtain ⟨h1, h2⟩ := Held.entry_mem (x := (c, i)) hi
    have hl := (hheld.table c hc).2
    rw [show u32 ((i + 1) * c.factor) = c.mark i from rfl, ← Nat.add_zero q, hrun] at hr
    cases hr
    refine Held.adopt (x := (c, i)) h' hc hi hslot hsize hbase hlive ?_ ?_
    · rw [hpeek _ _ hl _ h1 h2, if_neg, hentry]
      exact hheld.heap.live_apart hl hlive (hbase c hc) h1 h2 (by omega) (by omega)
    · rw [hpeek _ _ hlive q le_rfl (by omega)]
      exact if_pos rfl

theorem tableEntry_yields {P : ℕ → Prop} (hc : c ∈ tables) (hi : i < FRAG_N)
    (h : ∀ t q, Holding L live₀ roots tables slot t →
      t.machine.peek L.dirFrame (c.entry i) = some q → P q) :
    Yields (CallsWithin L) (Holding L live₀ roots tables slot) (L.tableEntry c i)
      fun q t => P q ∧ t.machine.peek L.dirFrame (c.entry i) = some q ∧
        Holding L live₀ roots tables slot t := by
  refine yields_lift fun t q s hr ht => ?_
  rw [Held.entry_eq ht hc hi] at hr
  obtain ⟨rfl, hq⟩ := L.load_ok hr
  exact ⟨h t q ht hq, hq, ht⟩

theorem clearEntry_yields (hc : c ∈ tables) (hi : i < FRAG_N) :
    Yields (CallsWithin L) (Holding L live₀ roots tables (Function.update slot (c, i) .empty))
      (lift (L.store (u32 (c.base + 4 * i)) 0))
      fun _ => Holding L live₀ roots tables (Function.update slot (c, i) .freed) := by
  refine yields_lift fun t _ s hr ht => ?_
  have hempty : Function.update slot (c, i) EntryState.empty (c, i) = .empty :=
    Function.update_self ..
  obtain ⟨s', hrun, h', hpeek⟩ := Held.storeEntry ht (x := (c, i)) (v := 0) hc hi hempty
    (by norm_num)
  rw [Held.entry_eq ht hc hi, hrun] at hr
  cases hr
  have h'' := h'.relabel (x := (c, i)) (e := .freed) (by rw [hempty]; simp) (by simp)
    (fun _ => ⟨hc, hi⟩) (fun _ => hpeek)
  rwa [Function.update_idem] at h''

theorem freeEntry_yields (hc : c ∈ tables) (hi : i < FRAG_N) (hslot : slot (c, i) ≠ .empty) :
    Yields (CallsWithin L) (Holding L live₀ roots tables slot) (L.freeEntry c i)
      fun _ => Holding L live₀ roots tables (Function.update slot (c, i) .freed) := by
  cases he : slot (c, i) with
  | empty => exact absurd he hslot
  | full =>
      refine Yields.bind (Q := fun q t =>
        Holding L live₀ (q :: roots) tables (Function.update slot (c, i) .empty) t ∧
          ∀ c ∈ tables, c.base ≠ q) ?_ fun q =>
        (kfree_yields [] roots).bind fun _ => clearEntry_yields hc hi
      refine (tableEntry_yields (P := fun _ => True) hc hi fun _ _ _ _ => trivial).mono
        (fun _ h => h) fun q t ⟨_, hq, ht⟩ => ?_
      obtain ⟨p, hp, hroots, h'⟩ := Held.release ht he
      rw [hq] at hp
      cases hp
      exact ⟨h', fun c' hc' => Held.base_ne ht hc' hroots⟩
  | freed =>
      refine (tableEntry_yields (P := fun q => q = 0) hc hi fun t q ht hq => ?_).bind fun q => ?_
      · have := Held.freed ht _ he
        rw [hq] at this
        exact Option.some.inj this
      · refine Yields.bind (Q := fun _ => Holding L live₀ roots tables slot) ?_ fun _ =>
          (clearEntry_yields hc hi).mono (fun t ht => ?_) fun _ _ h => h
        · refine .of_ok fun t a t' hr hW => ?_
          by_cases hq : q = 0
          · subst hq
            obtain ⟨h1, h2⟩ := kfree_zero_yields.ok hr hW
            exact ⟨h1, fun ht => h2 ht.2.2⟩
          · have hany : Yields (CallsWithin L) (fun _ => False) (Shell.kfree L q) fun _ _ => True :=
              (yields_call (Q := fun _ _ => True) fun _ _ _ _ _ _ => trivial).bind
                fun _ => .pure fun _ _ => trivial
            exact ⟨(hany.ok hr hW).1, fun ht => absurd ht.1 hq⟩
        · exact Held.relabel ht (by rw [he]; simp) (by simp) (fun h => absurd rfl h)
            (fun h => by cases h)

/-! ### Checks -/

theorem entryKept_yields (hc : c ∈ tables) (hi : i < FRAG_N) (hslot : slot (c, i) = .full) :
    Yields (CallsWithin L) (Holding L live₀ roots tables slot) (L.entryKept c i)
      fun b t => b = true ∧ Holding L live₀ roots tables slot t := by
  refine (tableEntry_yields (P := fun _ => True) hc hi fun _ _ _ _ => trivial).bind fun q =>
    Yields.bind (Q := fun v t => v = c.mark i ∧ Holding L live₀ roots tables slot t) ?_ fun v =>
    .pure fun t ⟨hv, ht⟩ => ⟨decide_eq_true hv, ht⟩
  refine yields_lift fun t v s hr ⟨_, hq, ht⟩ => ?_
  obtain ⟨rfl, hv⟩ := L.load_ok hr
  obtain ⟨_, p, hp, _, _, _, hmark⟩ := Held.full ht _ hslot
  rw [hq] at hp
  cases hp
  rw [hmark] at hv
  exact ⟨(Option.some.inj hv).symm, ht⟩

theorem entriesKept_yields (hi : i < FRAG_N) {cs : List PtrTable}
    (hcs : ∀ c ∈ cs, c ∈ tables ∧ slot (c, i) = .full) :
    Yields (CallsWithin L) (Holding L live₀ roots tables slot) (L.entriesKept i cs)
      fun b t => b = true ∧ Holding L live₀ roots tables slot t := by
  induction cs with
  | nil => exact .pure fun t ht => ⟨rfl, ht⟩
  | cons c cs ih =>
      obtain ⟨hc, hslot⟩ := hcs c List.mem_cons_self
      refine (entryKept_yields hc hi hslot).bind fun b => ?_
      cases b with
      | true =>
          exact (ih fun c hc => hcs c (List.mem_cons_of_mem _ hc)).mono (fun _ ht => ht.2)
            fun _ _ h => h
      | false => exact .pure fun t ht => ⟨ht.1, ht.2⟩

theorem checkTables_yields {cs : ℕ → List PtrTable}
    (hcs : ∀ i < FRAG_N, ∀ c ∈ cs i, c ∈ tables ∧ slot (c, i) = .full) :
    Yields (CallsWithin L) (Holding L live₀ roots tables slot) (L.checkTables cs)
      fun b t => b = true ∧ Holding L live₀ roots tables slot t := by
  refine (Yields.iterate (fun _ b t => b = true ∧ Holding L live₀ roots tables slot t)
    fun i hi b => ?_).mono (fun _ ht => ⟨rfl, ht⟩) fun _ _ h => h
  cases b with
  | true => exact (entriesKept_yields hi (hcs i hi)).mono (fun _ ht => ht.2) fun _ _ h => h
  | false => exact .pure fun t ht => ht

/-! ### `memtest 1` -/

theorem timeSamples_yields :
    Yields (CallsWithin L) (Holding L live₀ roots tables slot) L.timeSamples
      fun _ => Holding L live₀ roots tables slot := by
  refine Yields.times (fun _ => Holding L live₀ roots tables slot) fun _ _ =>
    kmalloc_yields.bind fun p => Yields.bind (Q := fun _ t =>
      Holding L live₀ (p :: roots) tables slot t ∧ ∀ c ∈ tables, c.base ≠ p) ?_ fun _ =>
    kfree_yields [] roots
  refine yields_lift fun t _ s hr ⟨_, hheld, hlive, hbase⟩ => ?_
  obtain ⟨s', hrun, h', _⟩ := Held.storeRoot hheld (k := 0) (v := 42) List.mem_cons_self hbase hlive
    (by norm_num) (by norm_num)
  rw [← Nat.add_zero p, hrun] at hr
  cases hr
  exact ⟨h', hbase⟩

/-- The entries below `i` of all tables are full. -/
def filled (tables : List PtrTable) (i : ℕ) : PtrTable × ℕ → EntryState :=
  fun x => if x.1 ∈ tables ∧ x.2 < i then .full else .empty

/-- The entries that satisfy `P` are freed. -/
def freedWhere (slot : PtrTable × ℕ → EntryState) (P : PtrTable × ℕ → Prop) [DecidablePred P] :
    PtrTable × ℕ → EntryState := fun x => if P x then .freed else slot x

/-- Freeing every second entry of a table. -/
theorem freeEven_yields (hc : c ∈ tables) (hslot : ∀ i < FRAG_N, slot (c, i) ≠ .empty) :
    Yields (CallsWithin L) (Holding L live₀ roots tables slot)
      (times FRAG_N fun k => if k % 2 = 0 then L.freeEntry c k else pure ())
      fun _ => Holding L live₀ roots tables
        (freedWhere slot fun x => x.1 = c ∧ x.2 < FRAG_N ∧ x.2 % 2 = 0) := by
  refine (Yields.times (fun k => Holding L live₀ roots tables
    (freedWhere slot fun x => x.1 = c ∧ x.2 < k ∧ x.2 % 2 = 0)) fun k hk => ?_).mono
    (fun t ht => ?_) fun _ _ h => h
  · split_ifs with heven
    · refine (freeEntry_yields hc hk ?_).mono (fun _ h => h) fun _ t ht => ?_
      · unfold freedWhere
        rw [if_neg (by omega)]
        exact hslot k hk
      · have hstep : Function.update (freedWhere slot fun x => x.1 = c ∧ x.2 < k ∧ x.2 % 2 = 0)
            (c, k) .freed = freedWhere slot fun x => x.1 = c ∧ x.2 < k + 1 ∧ x.2 % 2 = 0 := by
          funext x
          by_cases hx : x = (c, k)
          · rw [hx, Function.update_self]
            exact (if_pos ⟨rfl, by omega, heven⟩).symm
          · rw [Function.update_of_ne hx]
            unfold freedWhere
            refine if_congr (and_congr_right fun h1 => ?_) rfl rfl
            have h2 : x.2 ≠ k := fun h2 => hx (Prod.ext h1 h2)
            omega
        rw [← hstep]
        exact ht
    · refine .pure fun t ht => ?_
      have hstep : (freedWhere slot fun x => x.1 = c ∧ x.2 < k + 1 ∧ x.2 % 2 = 0) =
          freedWhere slot fun x => x.1 = c ∧ x.2 < k ∧ x.2 % 2 = 0 := by
        funext x
        unfold freedWhere
        refine if_congr (and_congr_right fun _ => ?_) rfl rfl
        omega
      rw [hstep]
      exact ht
  · have hstep : (freedWhere slot fun x => x.1 = c ∧ x.2 < 0 ∧ x.2 % 2 = 0) = slot := by
      funext x
      exact if_neg (by omega)
    rw [hstep]
    exact ht

/-- Entry `i` of the tables `cs` changes to `e`. -/
def setRow (slot : PtrTable × ℕ → EntryState) (e : EntryState) (i : ℕ) (cs : List PtrTable) :
    PtrTable × ℕ → EntryState := fun x => if x.1 ∈ cs ∧ x.2 = i then e else slot x

theorem setRow_nil (slot : PtrTable × ℕ → EntryState) (e : EntryState) (i : ℕ) :
    setRow slot e i [] = slot := by
  funext x
  exact if_neg fun h => by cases h.1

theorem setRow_cons (slot : PtrTable × ℕ → EntryState) (e : EntryState) (i : ℕ) (c : PtrTable)
    (cs : List PtrTable) :
    setRow slot e i (c :: cs) = Function.update (setRow slot e i cs) (c, i) e := by
  funext x
  unfold setRow
  by_cases hx : x = (c, i)
  · rw [hx, Function.update_self]
    exact if_pos ⟨List.mem_cons_self, rfl⟩
  · rw [Function.update_of_ne hx]
    refine if_congr (and_congr_left fun h2 => ?_) rfl rfl
    rw [List.mem_cons]
    exact ⟨fun h => h.resolve_left fun h1 => hx (Prod.ext h1 h2), Or.inr⟩

theorem fillNext_yields {cs : List PtrTable} (hc : c ∈ tables) (hi : i < FRAG_N) (hnew : c ∉ cs)
    (hslot : slot (c, i) = .empty) (hsize : 4 ≤ c.size) :
    Yields (CallsWithin L) (Holding L live₀ roots tables (setRow slot .full i cs)) (L.fillEntry c i)
      fun _ => Holding L live₀ roots tables (setRow slot .full i (c :: cs)) := by
  rw [setRow_cons]
  refine fillEntry_yields hc hi ?_ hsize
  unfold setRow
  rw [if_neg fun h => hnew h.1, hslot]

theorem freeNext_yields {cs : List PtrTable} (hc : c ∈ tables) (hi : i < FRAG_N)
    (hslot : slot (c, i) ≠ .empty) :
    Yields (CallsWithin L) (Holding L live₀ roots tables (setRow slot .freed i cs))
      (L.freeEntry c i) fun _ => Holding L live₀ roots tables (setRow slot .freed i (c :: cs)) := by
  rw [setRow_cons]
  refine freeEntry_yields hc hi ?_
  unfold setRow
  split_ifs
  · simp
  · exact hslot

theorem setRow_filled (tables : List PtrTable) (i : ℕ) :
    setRow (filled tables i) .full i tables = filled tables (i + 1) := by
  funext x
  unfold setRow filled
  by_cases hx : x.1 ∈ tables
  · by_cases hlt : x.2 < i
    · simp [hx, hlt, show x.2 < i + 1 by omega]
    · by_cases heq : x.2 = i
      · simp [hx, heq]
      · simp [hx, hlt, heq, show ¬ x.2 < i + 1 by omega]
  · simp [hx]

/-- The entries below `i` of all tables are freed. -/
def freedBelow (slot : PtrTable × ℕ → EntryState) (tables : List PtrTable) (i : ℕ) :
    PtrTable × ℕ → EntryState := freedWhere slot fun x => x.1 ∈ tables ∧ x.2 < i

theorem setRow_freedBelow (slot : PtrTable × ℕ → EntryState) (tables : List PtrTable) (i : ℕ) :
    setRow (freedBelow slot tables i) .freed i tables = freedBelow slot tables (i + 1) := by
  funext x
  unfold setRow freedBelow freedWhere
  by_cases hx : x.1 ∈ tables
  · by_cases hlt : x.2 < i
    · simp [hx, hlt, show x.2 < i + 1 by omega]
    · by_cases heq : x.2 = i
      · simp [hx, heq]
      · simp [hx, hlt, heq, show ¬ x.2 < i + 1 by omega]
  · simp [hx]

section Memtest

variable {c64 c128 c256 c512 c1024 : PtrTable}

theorem fillLoop_yields (hT : tables = [c1024, c512, c256, c128, c64]) (hnodup : tables.Nodup)
    (hsize : ∀ c ∈ tables, 4 ≤ c.size) :
    Yields (CallsWithin L) (Holding L live₀ roots tables noSlots)
      (times FRAG_N fun i => do
        L.fillEntry c64 i
        L.fillEntry c128 i
        L.fillEntry c256 i
        L.fillEntry c512 i
        L.fillEntry c1024 i)
      fun _ => Holding L live₀ roots tables (filled tables FRAG_N) := by
  refine (Yields.times (fun i => Holding L live₀ roots tables (filled tables i)) fun i hi => ?_).mono
    (fun t ht => ?_) fun _ _ h => h
  · have hempty : ∀ c, filled tables i (c, i) = .empty := fun c => if_neg (by simp)
    rw [← setRow_filled]
    subst hT
    simp only [List.nodup_cons] at hnodup
    obtain ⟨h1, h2, h3, h4, -⟩ := hnodup
    refine Yields.mono (P := Holding L live₀ roots _ (setRow _ .full i [])) ?_
      (fun t ht => by rw [setRow_nil]; exact ht) (fun _ _ h => h)
    exact (fillNext_yields (by simp) hi (by simp) (hempty _) (hsize _ (by simp))).bind fun _ =>
      (fillNext_yields (by simp) hi h4 (hempty _) (hsize _ (by simp))).bind fun _ =>
      (fillNext_yields (by simp) hi h3 (hempty _) (hsize _ (by simp))).bind fun _ =>
      (fillNext_yields (by simp) hi h2 (hempty _) (hsize _ (by simp))).bind fun _ =>
      fillNext_yields (by simp) hi h1 (hempty _) (hsize _ (by simp))
  · have hstart : filled tables 0 = noSlots := by
      funext x
      exact if_neg (by simp)
    rw [hstart]
    exact ht

theorem freeLoop_yields (hT : tables = [c1024, c512, c256, c128, c64])
    (hslot : ∀ c ∈ tables, ∀ i < FRAG_N, slot (c, i) ≠ .empty) :
    Yields (CallsWithin L) (Holding L live₀ roots tables slot)
      (times FRAG_N fun i => do
        L.freeEntry c64 i
        L.freeEntry c128 i
        L.freeEntry c256 i
        L.freeEntry c512 i
        L.freeEntry c1024 i)
      fun _ => Holding L live₀ roots [] noSlots := by
  refine (Yields.times (fun i => Holding L live₀ roots tables (freedBelow slot tables i))
    fun i hi => ?_).mono (fun t ht => ?_) fun _ t ht => ?_
  · have hfull : ∀ c ∈ tables, freedBelow slot tables i (c, i) ≠ .empty := by
      intro c hc
      unfold freedBelow freedWhere
      rw [if_neg (by simp)]
      exact hslot c hc i hi
    rw [← setRow_freedBelow]
    subst hT
    refine Yields.mono (P := Holding L live₀ roots _ (setRow _ .freed i [])) ?_
      (fun t ht => by rw [setRow_nil]; exact ht) (fun _ _ h => h)
    exact (freeNext_yields (by simp) hi (hfull _ (by simp))).bind fun _ =>
      (freeNext_yields (by simp) hi (hfull _ (by simp))).bind fun _ =>
      (freeNext_yields (by simp) hi (hfull _ (by simp))).bind fun _ =>
      (freeNext_yields (by simp) hi (hfull _ (by simp))).bind fun _ =>
      freeNext_yields (by simp) hi (hfull _ (by simp))
  · have hstart : freedBelow slot tables 0 = slot := by
      funext x
      exact if_neg (by simp)
    rw [hstart]
    exact ht
  · refine Held.closeTables ht fun x hx => ?_
    have hdom := Held.dom ht x (by rw [hx]; simp)
    unfold freedBelow freedWhere at hx
    rw [if_pos hdom] at hx
    cases hx

/-- The bases of the tables that `cmd_memtest_v1` has allocated so far. -/
def TableRoots (L : Layout) (live₀ : ℕ → Option ℕ) (bases roots : List ℕ) (t : ShellState) : Prop :=
  Holding L live₀ (bases ++ roots) [] noSlots t ∧ ∀ b ∈ bases, t.live b = some (FRAG_N * 4)

theorem tableRoot_yields {bases : List ℕ} :
    Yields (CallsWithin L) (TableRoots L live₀ bases roots) (Shell.kmalloc L (FRAG_N * 4))
      fun a => TableRoots L live₀ (a :: bases) roots := by
  refine yields_call fun t a s hr hG ht => ?_
  obtain ⟨ha, -, h'⟩ := Held.kmalloc ht.1 hr hG
  have hlive : liveAfter t.live (.kmalloc (FRAG_N * 4)) a =
      Function.update t.live a (some (FRAG_N * 4)) := if_neg ha
  have hnew := (List.nodup_cons.mp h'.nodup).1
  constructor
  · unfold Holding
    rw [hlive]
    exact h'
  · intro b hb
    show liveAfter t.live (.kmalloc (FRAG_N * 4)) a b = _
    rw [hlive]
    rcases List.mem_cons.mp hb with hba | hb'
    · rw [hba, Function.update_self]
    · have hba : b ≠ a := by
        rintro rfl
        exact hnew (List.mem_append_left _ hb')
      rw [Function.update_of_ne hba]
      exact ht.2 b hb'

theorem TableRoots.openTables {s64 s128 s256 s512 s1024 : ℕ} {t : ShellState}
    (h : TableRoots L live₀ [s1024, s512, s256, s128, s64] roots t) :
    Holding L live₀ ([s1024, s512, s256, s128, s64] ++ roots)
      [⟨s1024, 1000, 17⟩, ⟨s512, 500, 13⟩, ⟨s256, 200, 11⟩, ⟨s128, 100, 7⟩, ⟨s64, 50, 3⟩]
      noSlots t := by
  refine Held.openTables h.1 (fun c hc => ?_) ?_
  · simp only [List.mem_cons, List.not_mem_nil, or_false] at hc
    rcases hc with rfl | rfl | rfl | rfl | rfl <;> exact ⟨by simp, h.2 _ (by simp)⟩
  · have hbases := (List.nodup_append.mp (Held.nodup h.1)).1
    intro c hc c' hc'
    exact List.inj_on_of_nodup_map (l := [⟨s1024, 1000, 17⟩, ⟨s512, 500, 13⟩, ⟨s256, 200, 11⟩,
      ⟨s128, 100, 7⟩, ⟨s64, 50, 3⟩]) (f := PtrTable.base) hbases hc hc'

end Memtest

end Heap

end RaxzusHeap
