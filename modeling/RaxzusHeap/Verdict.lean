import RaxzusHeap.CommandHeap

/-! # What the memory tests do and say

The tests compare memory with what they wrote and print verdicts.  On a heap that any run has
left, as long as the calls of the test stay within the limits of memory:

* `memtest 1` gives back all it allocates and never prints its panic (`cmdMemtestV1_yields`);
* `memtest 2` gives back all it allocates and prints that both its buffers were verified; its
  third verdict is about the order of their addresses, which says nothing about an overlap: the
  buffers are apart in any case (`cmdMemtestV2_yields`).

Code that is `Silent` prints no verdict, so the ledger and the verdicts are carried along side by
side (`Silent.beside`). -/

namespace RaxzusHeap

open Imperative Shell

/-! ### Verdicts -/

/-- The messages in which the tests report what they found in memory. -/
def verdictMessages : List String :=
  ["One of the blocks has been corrupted, PANIC!!",
    "  FAIL: kmalloc(64K) returned NULL\n",
    "  PASS: 64 KB written and verified (65536 bytes, zero errors)\n",
    "  FAIL: %d bytes corrupted in 64 KB region\n",
    "  FAIL: kmalloc(1MB) returned NULL\n",
    "  PASS: 1 MB written and verified (1048576 bytes, zero errors)\n",
    "  FAIL: %d bytes corrupted in 1 MB region\n",
    "  PASS: Regions are non-overlapping and virtually contiguous\n",
    "  FAIL: Region addresses overlap!\n"]

def isVerdict : Event → Bool
  | .print message => decide (message ∈ verdictMessages)
  | _ => false

/-- The verdicts among what was shown, in order. -/
def verdicts (shown : List Event) : List Event := shown.filter isVerdict

/-- What was asked of the heap so far, with the answers. -/
def answers (calls : List HeapCall) : List (HeapOp × ℕ) := calls.map fun c => (c.op, c.result)

/-- The verdicts of `memtest 2` on two sound buffers at these addresses. -/
def bufferVerdicts (buf64k buf1m : ℕ) : List Event :=
  [.print "  PASS: 64 KB written and verified (65536 bytes, zero errors)\n",
    .print "  PASS: 1 MB written and verified (1048576 bytes, zero errors)\n",
    .print (if buf64k < buf1m then "  PASS: Regions are non-overlapping and virtually contiguous\n"
      else "  FAIL: Region addresses overlap!\n")]

theorem verdicts_append_pos {e : Event} (he : isVerdict e = true) (shown : List Event) :
    verdicts (shown ++ [e]) = verdicts shown ++ [e] := by simp [verdicts, he]

theorem verdicts_append_neg {e : Event} (he : isVerdict e = false) (shown : List Event) :
    verdicts (shown ++ [e]) = verdicts shown := by simp [verdicts, he]

/-- The verdicts are those shown, and the heap was asked at least for what `asked` says. -/
def Heard (shown : List Event) (asked : List (HeapOp × ℕ)) (t : ShellState) : Prop :=
  verdicts t.events = shown ∧ asked <+: answers t.calls

/-- The verdicts are those shown, and the heap was asked for what `asked` says. -/
def Noted (shown : List Event) (asked : List (HeapOp × ℕ)) (t : ShellState) : Prop :=
  verdicts t.events = shown ∧ answers t.calls = asked

theorem Noted.heard {shown : List Event} {asked : List (HeapOp × ℕ)} {t : ShellState}
    (h : Noted shown asked t) : Heard shown asked t := ⟨h.1, h.2 ▸ List.prefix_rfl⟩

theorem Noted.emit {shown : List Event} {asked : List (HeapOp × ℕ)} {t : ShellState} {e : Event}
    (h : Noted shown asked t) (he : isVerdict e = true) :
    Noted (shown ++ [e]) asked { t with events := t.events ++ [e] } :=
  ⟨by rw [← h.1]; exact verdicts_append_pos he t.events, h.2⟩

theorem keeps_noted_lift {α : Type} (x : Kernel α) (shown : List Event)
    (asked : List (HeapOp × ℕ)) : Keeps (Noted shown asked) (Shell.lift x) := by
  intro t h
  unfold Shell.lift
  cases x t.machine <;> exact h

/-- `x` prints no verdict, and it takes back no heap call. -/
def Silent {α : Type} (x : Shell α) : Prop := ∀ shown asked, Keeps (Heard shown asked) x

namespace Silent

variable {α β : Type} {L : Layout} {x : Shell α}

theorem lift (x : Kernel α) : Silent (Shell.lift x) := by
  intro shown asked t h
  unfold Shell.lift
  cases x t.machine <;> exact h

theorem call (op : HeapOp) : Silent (Shell.call L op) := by
  intro shown asked t h
  unfold Shell.call
  cases L.heapCall op t.machine with
  | ok a s =>
      refine ⟨h.1, h.2.trans ?_⟩
      simp [answers]
  | error e s => exact h

theorem emit {e : Event} (he : isVerdict e = false) : Silent (Shell.emit e) :=
  fun _ _ t h => ⟨(verdicts_append_neg he t.events).trans h.1, h.2⟩

theorem pure (a : α) : Silent (Pure.pure a : Shell α) := fun _ _ => Keeps.pure _ _

theorem bind {f : α → Shell β} (hx : Silent x) (hf : ∀ a, Silent (f a)) : Silent (x >>= f) :=
  fun shown asked => (hx shown asked).bind fun a => hf a shown asked

theorem iterate {body : ℕ → α → Shell α} (h : ∀ i a, Silent (body i a)) (n : ℕ) (a : α) :
    Silent (Imperative.iterate n a body) :=
  fun shown asked => Keeps.iterate (fun i a => h i a shown asked) n a

theorem times {body : ℕ → Shell Unit} (h : ∀ i, Silent (body i)) (n : ℕ) :
    Silent (Imperative.times n body) := fun shown asked => Keeps.times (fun i => h i shown asked) n

theorem kmalloc (n : ℕ) : Silent (Shell.kmalloc L n) := call _

theorem kfree (p : ℕ) : Silent (Shell.kfree L p) := (call _).bind fun _ => pure _

theorem beside {W P : ShellState → Prop} {Q : α → ShellState → Prop} (hx : Silent x)
    (h : Yields W P x Q) (shown : List Event) (asked : List (HeapOp × ℕ)) :
    Yields W (fun t => P t ∧ Heard shown asked t) x fun a t => Q a t ∧ Heard shown asked t :=
  h.keeps (hx shown asked)

end Silent

namespace Layout

variable (L : Layout)

theorem silent_tableEntry (c : PtrTable) (i : ℕ) : Silent (L.tableEntry c i) := Silent.lift _

theorem silent_fillEntry (c : PtrTable) (i : ℕ) : Silent (L.fillEntry c i) :=
  (Silent.kmalloc _).bind fun _ => (Silent.lift _).bind fun _ =>
    (L.silent_tableEntry c i).bind fun _ => Silent.lift _

theorem silent_freeEntry (c : PtrTable) (i : ℕ) : Silent (L.freeEntry c i) :=
  (L.silent_tableEntry c i).bind fun _ => (Silent.kfree _).bind fun _ => Silent.lift _

theorem silent_entryKept (c : PtrTable) (i : ℕ) : Silent (L.entryKept c i) :=
  (L.silent_tableEntry c i).bind fun _ => (Silent.lift _).bind fun _ => Silent.pure _

theorem silent_entriesKept (i : ℕ) (cs : List PtrTable) : Silent (L.entriesKept i cs) := by
  induction cs with
  | nil => exact Silent.pure _
  | cons c cs ih =>
      refine (L.silent_entryKept c i).bind fun kept => ?_
      cases kept with
      | true => exact ih
      | false => exact Silent.pure _

theorem silent_checkTables (tables : ℕ → List PtrTable) : Silent (L.checkTables tables) := by
  refine Silent.iterate (fun i good => ?_) _ _
  cases good with
  | true => exact L.silent_entriesKept i _
  | false => exact Silent.pure _

theorem silent_timeSamples : Silent L.timeSamples :=
  Silent.times (fun _ => (Silent.kmalloc _).bind fun _ => (Silent.lift _).bind fun _ =>
    Silent.kfree _) _

theorem silent_freeEven (c : PtrTable) :
    Silent (times FRAG_N fun k => if k % 2 = 0 then L.freeEntry c k else pure ()) := by
  refine Silent.times (fun k => ?_) _
  split_ifs
  · exact L.silent_freeEntry c k
  · exact Silent.pure _

end Layout

/-! ### `memtest 1` -/

section Memtest

variable {L : Layout} {live₀ : ℕ → Option ℕ} {roots rest : List ℕ} {tables : List PtrTable}
  {c64 c128 c256 c512 c1024 : PtrTable} {shown : List Event} {asked : List (HeapOp × ℕ)}

/-- After every second entry of two tables has been freed, an entry is full unless it is one of
them. -/
theorem full_of_kept {c c' d : PtrTable} {i : ℕ} (hd : d ∈ tables) (hi : i < FRAG_N)
    (h : d = c ∨ d = c' → i % 2 ≠ 0) :
    freedWhere (freedWhere (filled tables FRAG_N) fun x => x.1 = c ∧ x.2 < FRAG_N ∧ x.2 % 2 = 0)
      (fun x => x.1 = c' ∧ x.2 < FRAG_N ∧ x.2 % 2 = 0) (d, i) = .full := by
  unfold freedWhere
  rw [if_neg fun hx => h (Or.inr hx.1) hx.2.2, if_neg fun hx => h (Or.inl hx.1) hx.2.2]
  exact if_pos ⟨hd, hi⟩

/-- The last part of the test. -/
theorem Layout.silent_freeAll (L : Layout) (c64 c128 c256 c512 c1024 : PtrTable) :
    Silent (do
      L.timeSamples
      times FRAG_N fun i => do
        L.freeEntry c64 i
        L.freeEntry c128 i
        L.freeEntry c256 i
        L.freeEntry c512 i
        L.freeEntry c1024 i
      Shell.kfree L c64.base
      Shell.kfree L c256.base
      Shell.kfree L c512.base
      Shell.kfree L c128.base
      Shell.kfree L c1024.base
      L.timeSamples) := by
  refine L.silent_timeSamples.bind fun _ => (Silent.times (fun i => ?_) _).bind fun _ =>
    (Silent.kfree _).bind fun _ => (Silent.kfree _).bind fun _ => (Silent.kfree _).bind fun _ =>
    (Silent.kfree _).bind fun _ => (Silent.kfree _).bind fun _ => L.silent_timeSamples
  exact (L.silent_freeEntry c64 i).bind fun _ => (L.silent_freeEntry c128 i).bind fun _ =>
    (L.silent_freeEntry c256 i).bind fun _ => (L.silent_freeEntry c512 i).bind fun _ =>
    L.silent_freeEntry c1024 i

/-- The test frees everything it has filled; both rounds of checks pass, so the panic is not
printed. -/
theorem memtestTables_yields (hT : tables = [c1024, c512, c256, c128, c64])
    (hnodup : tables.Nodup)
    (hroots : roots = c1024.base :: c512.base :: c256.base :: c128.base :: c64.base :: rest) :
    Yields (CallsWithin L)
      (fun t => Holding L live₀ roots tables (filled tables FRAG_N) t ∧ Heard shown asked t)
      (L.memtestTables c64 c128 c256 c512 c1024)
      fun _ t => Holding L live₀ rest [] noSlots t ∧ Heard shown asked t := by
  have hfull : ∀ c ∈ tables, ∀ i < FRAG_N, filled tables FRAG_N (c, i) = .full :=
    fun c hc i hi => if_pos ⟨hc, hi⟩
  have hmem : ∀ c, c = c64 ∨ c = c128 ∨ c = c256 ∨ c = c512 ∨ c = c1024 → c ∈ tables := by
    intro c hc
    rw [hT]
    simp only [List.mem_cons]
    tauto
  have hpanic : ∀ (m : String) (P : ShellState → Prop) (Q : Unit → ShellState → Prop),
      Yields (CallsWithin L) (fun t => (false = true ∧ P t) ∧ Heard shown asked t)
        (emit (.print m)) Q := fun m P Q => yields_emit fun _ ht => by cases ht.1.1
  refine ((L.silent_checkTables _).beside (checkTables_yields fun i hi c hc => ?_) _ _).bind
    fun kept => ?_
  · have hc' := hmem c (by simpa using hc)
    exact ⟨hc', hfull c hc' i hi⟩
  cases kept with
  | false => exact hpanic _ _ _
  | true =>
      have h64 : c64 ∈ tables := hmem c64 (by simp)
      have h256 : c256 ∈ tables := hmem c256 (by simp)
      refine Yields.mono (P := fun t =>
        Holding L live₀ roots tables (filled tables FRAG_N) t ∧ Heard shown asked t) ?_
        (fun t ht => ⟨ht.1.2, ht.2⟩) fun _ _ h => h
      refine ((L.silent_freeEven c64).beside (freeEven_yields h64 fun i hi => ?_) _ _).bind
        fun _ => ?_
      · rw [hfull c64 h64 i hi]
        simp
      refine ((L.silent_freeEven c256).beside (freeEven_yields h256 fun i hi => ?_) _ _).bind
        fun _ => ?_
      · unfold freedWhere
        rw [hfull c256 h256 i hi]
        split_ifs <;> simp
      refine ((L.silent_checkTables _).beside (checkTables_yields fun i hi c hc => ?_) _ _).bind
        fun kept => ?_
      · -- an entry of the first and the third table is looked at when its number is odd
        have hodd : (c = c64 ∨ c = c256) ∧ i % 2 ≠ 0 ∨ c = c128 ∨ c = c512 ∨ c = c1024 := by
          split_ifs at hc <;> simp at hc <;> tauto
        have hc' : c ∈ tables := hmem c (by tauto)
        refine ⟨hc', full_of_kept hc' hi fun hfreed => ?_⟩
        rw [hT] at hnodup
        simp only [List.nodup_cons, List.mem_cons, not_or] at hnodup
        rcases hodd with hodd | rfl | rfl | rfl
        · exact hodd.2
        all_goals
          rcases hfreed with rfl | rfl <;> tauto
      cases kept with
      | false => exact hpanic _ _ _
      | true =>
          refine ((L.silent_freeAll c64 c128 c256 c512 c1024).beside
            (timeSamples_yields.bind fun _ => (freeLoop_yields hT fun c hc i hi => ?_).bind fun _ =>
              (kfree_root_yields [c1024.base, c512.base, c256.base, c128.base] rest c64.base).bind
                fun _ =>
              (kfree_root_yields [c1024.base, c512.base] (c128.base :: rest) c256.base).bind fun _ =>
              (kfree_root_yields [c1024.base] (c128.base :: rest) c512.base).bind fun _ =>
              (kfree_root_yields [c1024.base] rest c128.base).bind fun _ =>
              (kfree_root_yields [] rest c1024.base).bind fun _ => timeSamples_yields) _ _).mono
            (fun t ht => ⟨hroots ▸ ht.1.2, ht.2⟩) fun _ _ h => h
          unfold freedWhere
          rw [hfull c hc i hi]
          split_ifs <;> simp

/-- From any heap that a run leaves, as long as the calls of the test stay within the limits of
memory, `memtest 1` gives back all it allocates and finds no block corrupted. -/
theorem cmdMemtestV1_yields :
    Yields (CallsWithin L) (fun t => Holding L live₀ roots [] noSlots t ∧ Heard shown asked t)
      L.cmdMemtestV1 fun _ t => Holding L live₀ roots [] noSlots t ∧ Heard shown asked t := by
  refine Yields.mono (P := fun t => TableRoots L live₀ [] roots t ∧ Heard shown asked t) ?_
    (fun t ht => ⟨⟨ht.1, fun b hb => by cases hb⟩, ht.2⟩) fun _ _ h => h
  have hroot : ∀ bases, Yields (CallsWithin L)
      (fun t => TableRoots L live₀ bases roots t ∧ Heard shown asked t)
      (Shell.kmalloc L (FRAG_N * 4))
      fun a t => TableRoots L live₀ (a :: bases) roots t ∧ Heard shown asked t := fun bases =>
    (Silent.kmalloc _).beside tableRoot_yields _ _
  refine (hroot _).bind fun s64 => (hroot _).bind fun s128 => (hroot _).bind fun s256 =>
    (hroot _).bind fun s512 => (hroot _).bind fun s1024 => ?_
  have hnodup : ([⟨s1024, 1000, 17⟩, ⟨s512, 500, 13⟩, ⟨s256, 200, 11⟩, ⟨s128, 100, 7⟩,
      ⟨s64, 50, 3⟩] : List PtrTable).Nodup := by simp
  have hfill : Silent (times FRAG_N fun i => do
      L.fillEntry ⟨s64, 50, 3⟩ i
      L.fillEntry ⟨s128, 100, 7⟩ i
      L.fillEntry ⟨s256, 200, 11⟩ i
      L.fillEntry ⟨s512, 500, 13⟩ i
      L.fillEntry ⟨s1024, 1000, 17⟩ i) :=
    Silent.times (fun i => (L.silent_fillEntry _ i).bind fun _ =>
      (L.silent_fillEntry _ i).bind fun _ => (L.silent_fillEntry _ i).bind fun _ =>
      (L.silent_fillEntry _ i).bind fun _ => L.silent_fillEntry _ i) _
  exact ((hfill.beside (fillLoop_yields rfl hnodup (by simp)) _ _).mono
    (fun t ht => ⟨TableRoots.openTables ht.1, ht.2⟩) fun _ _ h => h).bind fun _ =>
    memtestTables_yields rfl hnodup rfl

end Memtest

/-! ### `memtest 2` -/

theorem BoundedHeap.storeByte_byteAt {L : Layout} {live : ℕ → Option ℕ} {s s' : State}
    {p n k b x : ℕ} (h : BoundedHeap L live s) (hp : live p = some n) (hk : k < n)
    (hr : L.storeByte (p + k) b s = .ok () s') (h1 : p ≤ x) (h2 : x < p + n) :
    L.byteAt s' x = if x = p + k then some (b % 256) else L.byteAt s x := by
  obtain ⟨use, ranges, hh⟩ := h.heap
  have hn := h.fit p n hp
  obtain ⟨w, t, hpeek, hw, hrun, -, hst⟩ := hh.write (b := b) hp hn hk
  rw [hrun] at hr
  cases hr
  exact hst.byteAt hpeek hw (hh.backed_live hp hn h1 h2)

section Pattern

variable {L : Layout} {live₀ : ℕ → Option ℕ} {roots : List ℕ} {pattern : ℕ → ℕ}
  {buffer n k i : ℕ} {shown : List Event}

/-- The first `k` bytes of a buffer of `n` bytes hold the pattern. -/
structure Patterned (L : Layout) (live₀ : ℕ → Option ℕ) (roots : List ℕ) (pattern : ℕ → ℕ)
    (buffer n k : ℕ) (t : ShellState) : Prop where
  root : Rooted L live₀ roots [] noSlots buffer n t
  bytes : ∀ j < k, L.byteAt t.machine (buffer + j) = some (pattern j)

theorem Patterned.address {t : ShellState} (h : Patterned L live₀ roots pattern buffer n k t)
    (hi : i < n) : u32 (buffer + i) = buffer + i :=
  u32_of_lt (h.root.held.heap.addr_lt h.root.live (Nat.le_add_right _ _) (by omega))

theorem storePattern_yields (hbyte : ∀ i, pattern i < 256) (hi : i < n) :
    Yields (CallsWithin L) (Patterned L live₀ roots pattern buffer n i)
      (lift (L.storeByte (u32 (buffer + i)) (pattern i)))
      fun _ => Patterned L live₀ roots pattern buffer n (i + 1) := by
  refine yields_lift fun t _ s hr ht => ?_
  obtain ⟨hheld, hlive, hbase⟩ := ht.root
  rw [ht.address hi] at hr
  obtain ⟨s', hrun, h'⟩ :=
    Held.storeByteRoot hheld (b := pattern i) List.mem_cons_self hbase hlive hi
  rw [hrun] at hr
  cases hr
  refine ⟨⟨h', hlive, hbase⟩, fun j hj => ?_⟩
  have hbytes := hheld.heap.storeByte_byteAt (x := buffer + j) hlive hi hrun
    (Nat.le_add_right _ _) (by omega)
  by_cases hji : j = i
  · rw [hbytes, hji, if_pos rfl, Nat.mod_eq_of_lt (hbyte i)]
  · rw [hbytes, if_neg (by omega)]
    exact ht.bytes j (by omega)

theorem checkPattern_yields (hi : i < n) {bad : ℕ} :
    Yields (CallsWithin L) (fun t => bad = 0 ∧ Patterned L live₀ roots pattern buffer n n t)
      (do
        let b ← lift (L.loadByte (u32 (buffer + i)))
        pure (if b ≠ pattern i then bad + 1 else bad))
      fun bad t => bad = 0 ∧ Patterned L live₀ roots pattern buffer n n t := by
  refine Yields.bind (Q := fun b t => (b = pattern i ∧ bad = 0) ∧
    Patterned L live₀ roots pattern buffer n n t) ?_ fun b => .pure fun t ht => ?_
  · refine yields_lift fun t b s hr ht => ?_
    rw [ht.2.address hi, Layout.loadByte_of_byteAt (ht.2.bytes i hi)] at hr
    cases hr
    exact ⟨⟨rfl, ht.1⟩, ht.2⟩
  · obtain ⟨⟨hb, hbad⟩, ht⟩ := ht
    rw [if_neg (not_not.mpr hb)]
    exact ⟨hbad, ht⟩

theorem kmalloc_noted (n : ℕ) : Yields (CallsWithin L)
    (fun t => Holding L live₀ roots [] noSlots t ∧ Noted shown asked t) (Shell.kmalloc L n)
    fun a t => (a ≠ 0 ∧ Rooted L live₀ roots [] noSlots a n t) ∧
      Noted shown (asked ++ [(.kmalloc n, a)]) t := by
  refine (kmalloc_yields.mono (fun _ ht => ht.1) fun _ _ h => h).and (yields_call
    fun t a s _ _ ht => ⟨ht.2.1, ?_⟩)
  rw [← ht.2.2]
  simp [answers]

/-- A buffer of `memtest 2` reads back as it was written. -/
theorem patternBuffer_yields (hbyte : ∀ i, pattern i < 256) {fail pass wrong : String}
    (hpass : isVerdict (.print pass) = true) :
    Yields (CallsWithin L)
      (fun t => Holding L live₀ roots [] noSlots t ∧ Noted shown asked t)
      (L.patternBuffer n pattern fail pass wrong)
      fun a t => (a ≠ 0 ∧ Rooted L live₀ roots [] noSlots a n t) ∧
        Noted (shown ++ [.print pass]) (asked ++ [(.kmalloc n, a)]) t := by
  refine (kmalloc_noted n).bind fun buffer => ?_
  dsimp only
  split_ifs with hzero
  · exact (yields_emit (Q := fun _ _ => False) fun _ ht => ht.1.1 hzero).bind
      fun _ => .pure fun _ h => h.elim
  · generalize hasked : asked ++ [(HeapOp.kmalloc n, buffer)] = asked'
    refine Yields.mono (P := fun t => Patterned L live₀ roots pattern buffer n 0 t ∧
      Noted shown asked' t) ?_
      (fun t ht => ⟨⟨ht.1.2, fun j hj => absurd hj (Nat.not_lt_zero j)⟩, ht.2⟩) fun _ _ h => h
    have hwrite := (Yields.times (Patterned L live₀ roots pattern buffer n) fun i hi =>
      storePattern_yields hbyte hi).keeps (Keeps.times (fun i => keeps_noted_lift
        (L.storeByte (u32 (buffer + i)) (pattern i)) shown asked') n)
    have hread := (Yields.iterate (a := 0) (fun _ bad t => bad = 0 ∧
        Patterned L live₀ roots pattern buffer n n t) fun i hi bad => checkPattern_yields hi).keeps
      (Keeps.iterate (fun i bad => (keeps_noted_lift (L.loadByte (u32 (buffer + i))) shown
        asked').bind fun b => Keeps.pure _ (if b ≠ pattern i then bad + 1 else bad)) n 0)
    refine hwrite.bind fun _ => (hread.mono (fun t ht => ⟨⟨rfl, ht.1⟩, ht.2⟩) fun _ _ h => h).bind
      fun bad => ?_
    split_ifs with hbad
    · exact (yields_emit (Q := fun _ t => Rooted L live₀ roots [] noSlots buffer n t ∧
        Noted (shown ++ [.print pass]) asked' t) fun t ht =>
          ⟨⟨ht.1.2.root.held, ht.1.2.root.live, ht.1.2.root.base⟩, ht.2.emit hpass⟩).bind
        fun _ => .pure fun t ht => ⟨⟨hzero, ht.1⟩, hasked ▸ ht.2⟩
    · exact (yields_emit (Q := fun _ _ => False) fun _ ht => hbad ht.1.1).bind
        fun _ => .pure fun _ h => h.elim

/-- The buffer that is there when the next one is allocated has no byte in common with it. -/
theorem nextBuffer_yields (hbyte : ∀ i, pattern i < 256) {fail pass wrong : String}
    (hpass : isVerdict (.print pass) = true) (hn : 0 < n) {p m : ℕ} (hm : 0 < m) :
    Yields (CallsWithin L)
      (fun t => Rooted L live₀ roots [] noSlots p m t ∧ Noted shown asked t)
      (L.patternBuffer n pattern fail pass wrong)
      fun q t => ((q ≠ 0 ∧ (p + m ≤ q ∨ q + n ≤ p)) ∧
        Holding L live₀ (q :: p :: roots) [] noSlots t) ∧
        Noted (shown ++ [.print pass]) (asked ++ [(.kmalloc n, q)]) t := by
  refine .of_ok fun t q t' hr hW => ?_
  have hbuffer : ∀ live roots, Yields (CallsWithin L)
      (fun t => Holding L live roots [] noSlots t ∧ Noted shown asked t)
      (L.patternBuffer n pattern fail pass wrong)
      fun a t => (a ≠ 0 ∧ Rooted L live roots [] noSlots a n t) ∧
        Noted (shown ++ [.print pass]) (asked ++ [(.kmalloc n, a)]) t :=
    fun _ _ => patternBuffer_yields hbyte hpass
  have hroots := (hbuffer live₀ (p :: roots)).ok hr hW
  have hnew := (hbuffer t.live []).ok hr hW
  refine ⟨hroots.1, fun ht => ?_⟩
  obtain ⟨⟨hq, hrooted⟩, hnoted⟩ := hroots.2 ⟨ht.1.held, ht.2⟩
  obtain ⟨⟨-, hnew⟩, -⟩ := hnew.2 ⟨Held.start ht.1.held.heap, ht.2⟩
  refine ⟨⟨⟨hq, ?_⟩, hrooted.held⟩, hnoted⟩
  have hp : t'.live p = some m := hnew.held.kept p m ht.1.live
  have hpq : p ≠ q := by
    rintro rfl
    have hnone := (hnew.held.root p List.mem_cons_self).1
    rw [ht.1.live] at hnone
    cases hnone
  by_contra hover
  -- the higher of the two addresses would be a byte of both
  by_cases hle : p ≤ q
  · exact hnew.held.heap.live_apart (x := q) (y := q) hp hnew.live hpq hle (by omega) le_rfl
      (by omega) rfl
  · exact hnew.held.heap.live_apart (x := p) (y := p) hp hnew.live hpq le_rfl (by omega) (by omega)
      (by omega) rfl

end Pattern

section LargeTest

variable {L : Layout} {live₀ : ℕ → Option ℕ} {roots : List ℕ} {shown : List Event}
  {asked : List (HeapOp × ℕ)}

theorem Layout.silent_largeTimings (L : Layout) (buf64k buf1m : ℕ) :
    Silent (L.largeTimings buf64k buf1m) := by
  have hfree : ∀ p : ℕ, Silent (if p ≠ 0 then Shell.kfree L p else pure PUnit.unit) := by
    intro p
    split_ifs
    · exact Silent.kfree p
    · exact Silent.pure _
  refine (Silent.kmalloc _).bind fun _ => (Silent.kmalloc _).bind fun _ =>
    (Silent.kmalloc _).bind fun _ => (Silent.kfree _).bind fun _ => (Silent.kfree _).bind fun _ =>
    (Silent.kfree _).bind fun _ => ?_
  by_cases h : buf64k = 0
  · simpa [h] using hfree buf1m
  · simpa [h] using (Silent.kfree buf64k).bind fun _ => hfree buf1m

/-- Both buffers are there, and they are apart. -/
structure Buffers (L : Layout) (live₀ : ℕ → Option ℕ) (roots : List ℕ) (buf64k buf1m : ℕ)
    (t : ShellState) : Prop where
  ne64 : buf64k ≠ 0
  ne1m : buf1m ≠ 0
  apart : buf64k + 64 * 1024 ≤ buf1m ∨ buf1m + 1024 * 1024 ≤ buf64k
  held : Holding L live₀ (buf1m :: buf64k :: roots) [] noSlots t

/-- In the end the test gives everything back. -/
theorem largeTimings_yields (buf64k buf1m : ℕ) :
    Yields (CallsWithin L) (fun t => (buf64k ≠ 0 ∧ buf1m ≠ 0) ∧
        Holding L live₀ (buf1m :: buf64k :: roots) [] noSlots t) (L.largeTimings buf64k buf1m)
      fun _ => Holding L live₀ roots [] noSlots := by
  have hnew : ∀ (n : ℕ) (l : List ℕ), Yields (CallsWithin L) (Holding L live₀ l [] noSlots)
      (Shell.kmalloc L n) fun a => Holding L live₀ (a :: l) [] noSlots := fun n l =>
    kmalloc_yields.mono (fun _ h => h) fun _ _ h => h.2.held
  have hlast : Yields (CallsWithin L)
      (fun t => buf1m ≠ 0 ∧ Holding L live₀ (buf1m :: roots) [] noSlots t)
      (if buf1m ≠ 0 then Shell.kfree L buf1m else pure ())
      fun _ => Holding L live₀ roots [] noSlots := by
    split_ifs with h1
    · exact (kfree_root_yields [] roots buf1m).mono (fun _ h => h.2) fun _ _ h => h
    · exact .pure fun _ h => absurd h.1 h1
  refine ((hnew _ _).const _).bind fun tbuf => ((hnew _ _).const _).bind fun tbuf8 =>
    ((hnew _ _).const _).bind fun tbig => ((kfree_root_yields [] _ tbig).const _).bind fun _ =>
    ((kfree_root_yields [tbuf8] _ tbuf).const _).bind fun _ =>
    ((kfree_root_yields [] _ tbuf8).const _).bind fun _ => ?_
  dsimp only
  by_cases h64 : buf64k ≠ 0
  · rw [if_pos h64]
    exact (((kfree_root_yields [buf1m] roots buf64k).const (buf1m ≠ 0)).mono
      (fun t ht => ⟨ht.1.2, ht.2⟩) fun _ _ h => h).bind fun _ => hlast
  · rw [if_neg h64]
    exact hlast.mono (fun t ht => absurd ht.1.1 h64) fun _ _ h => h

theorem compareBuffers_yields (buf64k buf1m : ℕ) :
    Yields (CallsWithin L)
      (fun t => Buffers L live₀ roots buf64k buf1m t ∧ Noted shown asked t)
      (Layout.compareBuffers buf64k buf1m)
      fun _ t => Buffers L live₀ roots buf64k buf1m t ∧ Noted (shown ++ [.print
        (if buf64k < buf1m then "  PASS: Regions are non-overlapping and virtually contiguous\n"
          else "  FAIL: Region addresses overlap!\n")]) asked t := by
  have hsay : ∀ m, isVerdict (.print m) = true → Yields (CallsWithin L)
      (fun t => Buffers L live₀ roots buf64k buf1m t ∧ Noted shown asked t) (emit (.print m))
      fun _ t => Buffers L live₀ roots buf64k buf1m t ∧ Noted (shown ++ [.print m]) asked t :=
    fun m hm => yields_emit fun t ht =>
      ⟨⟨ht.1.ne64, ht.1.ne1m, ht.1.apart, ht.1.held⟩, ht.2.emit hm⟩
  unfold Layout.compareBuffers
  by_cases hboth : buf64k ≠ 0 ∧ buf1m ≠ 0
  · rw [if_pos hboth]
    split_ifs
    · exact hsay _ (by decide)
    · exact hsay _ (by decide)
  · rw [if_neg hboth]
    exact .pure fun t ht => absurd ⟨ht.1.ne64, ht.1.ne1m⟩ hboth

/-- The two buffers were apart, and the verdicts are those on sound buffers. -/
def Judged (shown : List Event) (asked : List (HeapOp × ℕ)) (t : ShellState) : Prop :=
  ∃ buf64k buf1m rest, answers t.calls = asked ++
      (.kmalloc (64 * 1024), buf64k) :: (.kmalloc (1024 * 1024), buf1m) :: rest ∧
    (buf64k + 64 * 1024 ≤ buf1m ∨ buf1m + 1024 * 1024 ≤ buf64k) ∧
    verdicts t.events = shown ++ bufferVerdicts buf64k buf1m

/-- From any heap that a run leaves, as long as the calls of the test stay within the limits of
memory, `memtest 2` gives back all it allocates, is given both its buffers, apart from each other,
and finds no byte of them changed. -/
theorem cmdMemtestV2_yields :
    Yields (CallsWithin L) (fun t => Holding L live₀ roots [] noSlots t ∧ Noted shown asked t)
      L.cmdMemtestV2 fun _ t => Holding L live₀ roots [] noSlots t ∧ Judged shown asked t := by
  have hbyte : ∀ i, i &&& 0xFF < 256 := fun i => Nat.lt_succ_of_le Nat.and_le_right
  refine (patternBuffer_yields hbyte (by decide)).bind fun buf64k => ?_
  refine (((nextBuffer_yields (fun i => hbyte _) (by decide) (by norm_num) (by norm_num)).const
    (buf64k ≠ 0)).mono (fun t ht => ⟨ht.1.1, ht.1.2, ht.2⟩) fun _ _ h => h).bind fun buf1m => ?_
  refine ((compareBuffers_yields buf64k buf1m).mono (fun t ht =>
    ⟨⟨ht.1, ht.2.1.1.1, ht.2.1.1.2, ht.2.1.2⟩, ht.2.2⟩) fun _ _ h => h).bind fun _ => ?_
  refine ((L.silent_largeTimings buf64k buf1m).beside ((largeTimings_yields buf64k buf1m).const
    (buf64k + 64 * 1024 ≤ buf1m ∨ buf1m + 1024 * 1024 ≤ buf64k)) _ _).mono (fun t ht =>
    ⟨⟨ht.1.apart, ⟨ht.1.ne64, ht.1.ne1m⟩, ht.1.held⟩, ht.2.heard⟩) fun _ t ht => ?_
  obtain ⟨⟨hapart, hheld⟩, hshown, rest, hrest⟩ := ht
  refine ⟨hheld, buf64k, buf1m, rest, ?_, hapart, ?_⟩
  · simp [← hrest]
  · simp [hshown, bufferVerdicts]

end LargeTest

end RaxzusHeap
