import RaxzusHeap.Memtest

/-! # The tokenizer on a sound heap

`wordStarts` and `blanked` describe the words of a line without the heap.  While the words
fit into the block of `argv`, `tokinize_words` leaves the heap sound and `argv[k]` points to
word `k` (`tokinizeWords_spec`). -/

namespace RaxzusHeap

open Imperative Shell

/-- Inside quotation marks after character `c`. -/
def quoted (isString : Bool) (c : Byte) : Bool := if c = 34 then !isString else isString

/-- Where the words after the first start, in a line that begins at `pos`. -/
def wordStarts : List Byte → Bool → ℕ → List ℕ
  | [], _, _ => []
  | c :: rest, isString, pos =>
      if c = char ' ' ∧ quoted isString c = false then
        (pos + 1) :: wordStarts rest (quoted isString c) (pos + 1)
      else wordStarts rest (quoted isString c) (pos + 1)

/-- The line with NULs behind its words. -/
def blanked : List Byte → Bool → List Byte
  | [], _ => []
  | c :: rest, isString =>
      (if c = char ' ' ∧ quoted isString c = false then 0 else c) ::
        blanked rest (quoted isString c)

section Step

variable {c : Byte} {rest : List Byte} {isString : Bool} {pos : ℕ}

theorem wordStarts_blank (h : c = char ' ' ∧ quoted isString c = false) :
    wordStarts (c :: rest) isString pos =
      (pos + 1) :: wordStarts rest (quoted isString c) (pos + 1) := if_pos h

theorem wordStarts_other (h : ¬ (c = char ' ' ∧ quoted isString c = false)) :
    wordStarts (c :: rest) isString pos = wordStarts rest (quoted isString c) (pos + 1) := if_neg h

theorem blanked_blank (h : c = char ' ' ∧ quoted isString c = false) :
    blanked (c :: rest) isString = 0 :: blanked rest (quoted isString c) := by
  rw [blanked, if_pos h]

theorem blanked_other (h : ¬ (c = char ' ' ∧ quoted isString c = false)) :
    blanked (c :: rest) isString = c :: blanked rest (quoted isString c) := by
  rw [blanked, if_neg h]

end Step

theorem wordStarts_lt {line : List Byte} {isString : Bool} {pos x : ℕ}
    (h : x ∈ wordStarts line isString pos) : pos < x ∧ x ≤ pos + line.length := by
  induction line generalizing isString pos with
  | nil => cases h
  | cons c rest ih =>
      rw [wordStarts] at h
      rw [List.length_cons]
      split_ifs at h
      · rcases List.mem_cons.mp h with rfl | h
        · omega
        · have := ih h
          omega
      · have := ih h
        omega

/-- Only kernel code has run: the machine has changed and nothing else. -/
structure SameShell (t t' : ShellState) : Prop where
  events : t'.events = t.events
  live : t'.live = t.live
  calls : t'.calls = t.calls

theorem SameShell.refl (t : ShellState) : SameShell t t := ⟨rfl, rfl, rfl⟩

section Heap

variable {L : Layout} {use : ℕ → Use} {live ranges : ℕ → Option ℕ}

/-- The words of the heap outside `[lo, hi)` and all kernel variables are as before. -/
structure SameOutside (L : Layout) (use : ℕ → Use) (lo hi : ℕ) (s s' : State) : Prop where
  peek : ∀ x, Backed use (x / 4096) → x / 4 * 4 < lo ∨ hi ≤ x / 4 * 4 →
    s'.peek L.dirFrame x = s.peek L.dirFrame x
  vars : SameVars s s'
  alloc : ∀ g, s'.allocated g = s.allocated g

theorem SameOutside.refl (lo hi : ℕ) (s : State) : SameOutside L use lo hi s s :=
  ⟨fun _ _ _ => rfl, SameVars.refl s, fun _ => rfl⟩

theorem SameOutside.trans {lo lo' hi : ℕ} {s₁ s₂ s₃ : State} (hlo : lo ≤ lo')
    (h₁ : SameOutside L use lo hi s₁ s₂) (h₂ : SameOutside L use lo' hi s₂ s₃) :
    SameOutside L use lo hi s₁ s₃ :=
  ⟨fun x hx hout => (h₂.peek x hx (by omega)).trans (h₁.peek x hx hout), h₁.vars.trans h₂.vars,
    fun g => (h₂.alloc g).trans (h₁.alloc g)⟩

theorem Stored.sameOutside {lo hi a v : ℕ} {s s' : State} (h : Stored L use a v s s')
    (halign : a % 4 = 0) (hlo : lo ≤ a) (hhi : a < hi) : SameOutside L use lo hi s s' := by
  refine ⟨fun x hx hout => ?_, h.vars, h.alloc⟩
  rw [h.peek x hx, if_neg (by omega)]

/-- The loop stores the addresses of the words from `argv[index]` on. -/
theorem Layout.tokinizeLoop_spec {argv n input : ℕ} (hargv : live argv = some n)
    (halign : argv % 4 = 0) (hn : n + 4099 < 2 ^ 32) {line : List Byte} :
    ∀ {isString : Bool} {pos index : ℕ} {t : ShellState},
      HeapInv L use live ranges t.machine →
      4 * (index + (wordStarts line isString pos).length) ≤ n →
      input + pos + line.length < 2 ^ 32 →
      ∃ t', L.tokinizeLoop argv input line isString pos index t =
          .ok (blanked line isString, index + (wordStarts line isString pos).length) t' ∧
        HeapInv L use live ranges t'.machine ∧ SameShell t t' ∧
        SameOutside L use (argv + 4 * index) (argv + n) t.machine t'.machine ∧
        ∀ k x, (wordStarts line isString pos)[k]? = some x →
          t'.machine.peek L.dirFrame (argv + 4 * (index + k)) = some (input + x) := by
  induction line with
  | nil =>
      intro isString pos index t h _ _
      exact ⟨t, rfl, h, .refl t, .refl _ _ _, fun k x hk => by simp [wordStarts] at hk⟩
  | cons c rest ih =>
      intro isString pos index t h hfit hin
      rw [List.length_cons] at hin
      unfold Layout.tokinizeLoop
      dsimp only
      rw [show (if c = 34 then !isString else isString) = quoted isString c from rfl]
      by_cases hblank : c = char ' ' ∧ quoted isString c = false
      · rw [wordStarts_blank hblank, List.length_cons] at hfit
        rw [wordStarts_blank hblank, blanked_blank hblank, if_pos hblank]
        have hback := h.backed_live hargv hn (Nat.le_add_right argv (4 * index)) (by omega)
        obtain ⟨s, hstore, h₁, hst⟩ := h.storeLive (k := 4 * index) (v := input + (pos + 1)) hargv hn
          (by omega) (by omega)
        have hlt : argv + 4 * index < 2 ^ 32 := by
          obtain ⟨f, hf⟩ := hback
          have := h.pages.region f _ hf
          omega
        have hroom : 4 * (index + 1 + (wordStarts rest (quoted isString c) (pos + 1)).length) ≤ n := by
          omega
        have hfits : input + (pos + 1) + rest.length < 2 ^ 32 := by omega
        obtain ⟨t', hr, h', hsame, hout, hwords⟩ := ih (t := { t with machine := s }) h₁ hroom hfits
        refine ⟨t', ?_, h', ⟨hsame.events, hsame.live, hsame.calls⟩,
          (hst.sameOutside (by omega) le_rfl (by omega)).trans (by omega) hout, fun k x hk => ?_⟩
        · have hcount : index + ((wordStarts rest (quoted isString c) (pos + 1)).length + 1) =
              index + 1 + (wordStarts rest (quoted isString c) (pos + 1)).length := by omega
          rw [u32_of_lt hlt, run_bind_ok (lift_ok hstore), List.length_cons, hcount]
          exact run_bind_ok hr
        · cases k with
          | zero =>
              obtain rfl : pos + 1 = x := by simpa using hk
              rw [Nat.add_zero, hout.peek _ hback (by omega), hst.peek _ hback, if_pos rfl]
          | succ k =>
              rw [show index + (k + 1) = index + 1 + k by omega]
              exact hwords k x hk
      · rw [wordStarts_other hblank] at hfit
        rw [wordStarts_other hblank, blanked_other hblank, if_neg hblank]
        have hfits : input + (pos + 1) + rest.length < 2 ^ 32 := by omega
        obtain ⟨t', hr, h', hsame, hout, hwords⟩ := ih h hfit hfits
        exact ⟨t', run_bind_ok hr, h', hsame, hout, hwords⟩

/-- The words of a line. -/
def lineWords (line : List Byte) : List (List Byte) :=
  (0 :: wordStarts line false 0).map fun x => ((blanked line false).drop x).takeWhile (· ≠ 0)

theorem length_lineWords (line : List Byte) :
    (lineWords line).length = 1 + (wordStarts line false 0).length := by
  rw [lineWords, List.length_map, List.length_cons, Nat.add_comm]

/-- `argv[k]` holds the address of word `k` of the line. -/
structure Tokenized (L : Layout) (line : List Byte) (w : Words) (s : State) : Prop where
  text : w.text = blanked line false
  count : w.count = (lineWords line).length
  fits : w.argv + 4 * w.count ≤ 2 ^ 32
  ptr : ∀ k x, (0 :: wordStarts line false 0)[k]? = some x →
    s.peek L.dirFrame (w.argv + 4 * k) = some (w.input + x)

theorem Tokenized.wordPtr {line : List Byte} {w : Words} {t : ShellState}
    (h : Tokenized L line w t.machine) {k x : ℕ} (hk : (0 :: wordStarts line false 0)[k]? = some x) :
    L.wordPtr w k t = .ok (w.input + x) t := by
  have hlt : k < (0 :: wordStarts line false 0).length := (List.getElem?_eq_some_iff.mp hk).1
  have hfits := h.fits
  rw [h.count, length_lineWords] at hfits
  rw [List.length_cons] at hlt
  unfold Layout.wordPtr
  rw [u32_of_lt (by omega)]
  exact lift_ok (L.load_of_peek (h.ptr k x hk))

theorem Tokenized.word {line : List Byte} {w : Words} {t : ShellState}
    (h : Tokenized L line w t.machine) {k : ℕ} {str : List Byte}
    (hk : (lineWords line)[k]? = some str) : L.word w k t = .ok str t := by
  rw [lineWords, List.getElem?_map, Option.map_eq_some_iff] at hk
  obtain ⟨x, hx, rfl⟩ := hk
  unfold Layout.word
  rw [run_bind_ok (h.wordPtr hx)]
  show EStateM.Result.ok (stringAt w.input w.text (w.input + x)) t = _
  rw [stringAt, Nat.add_sub_cancel_left, h.text]

/-- `tokinize_words` once its block of at least `4 * count` bytes is there. -/
theorem Layout.tokinizeWords_spec {input n a : ℕ} {line : List Byte} {t : ShellState} {s : State}
    (hk : L.kmalloc 200 t.machine = .ok a s) (h : HeapInv L use live ranges s)
    (ha : live a = some n) (halign : a % 4 = 0) (hn : n + 4099 < 2 ^ 32)
    (hfit : 4 * (lineWords line).length ≤ n) (hin : input + line.length < 2 ^ 32) :
    ∃ t', L.tokinizeWords input line t =
        .ok (a, blanked line false, (lineWords line).length) t' ∧
      HeapInv L use live ranges t'.machine ∧ t'.events = t.events ∧
      t'.live = liveAfter t.live (.kmalloc 200) a ∧
      t'.calls = t.calls ++ [⟨t.live, t.machine, .kmalloc 200, a, s⟩] ∧
      SameOutside L use a (a + n) s t'.machine ∧
      Tokenized L line ⟨a, input, blanked line false, (lineWords line).length⟩ t'.machine := by
  rw [length_lineWords] at hfit
  obtain ⟨s₁, hstore, h₁, hst⟩ := h.storeLive (k := 0) (v := input) ha hn (by omega) (by omega)
  rw [Nat.add_zero] at hstore hst
  obtain ⟨t', hr, h', hsame, hout, hwords⟩ := L.tokinizeLoop_spec
    ha halign hn
    (t := ⟨s₁, t.events, liveAfter t.live (.kmalloc 200) a,
      t.calls ++ [⟨t.live, t.machine, .kmalloc 200, a, s⟩]⟩) h₁ hfit (by omega)
  have hback : ∀ y, a ≤ y → y < a + n → Backed use (y / 4096) := fun y h1 h2 =>
    h.backed_live ha hn h1 h2
  refine ⟨t', ?_, h', hsame.events, hsame.live, hsame.calls,
    (hst.sameOutside halign le_rfl (by omega)).trans (by omega) hout, rfl, rfl, ?_, ?_⟩
  · unfold Layout.tokinizeWords
    rw [run_bind_ok (kmalloc_ok hk), run_bind_ok (lift_ok hstore), run_bind_ok hr, length_lineWords]
    rfl
  · obtain ⟨f, hf⟩ := hback (a + n - 1) (by omega) (by omega)
    have := h.pages.region f _ hf
    rw [length_lineWords]
    show a + 4 * (1 + (wordStarts line false 0).length) ≤ 2 ^ 32
    omega
  · intro k x hkx
    show t'.machine.peek L.dirFrame (a + 4 * k) = some (input + x)
    cases k with
    | zero =>
        obtain rfl : 0 = x := by simpa using hkx
        have ha0 := hback a le_rfl (by omega)
        rw [Nat.mul_zero, Nat.add_zero, hout.peek a ha0 (by omega), hst.peek a ha0, if_pos rfl]
        rfl
    | succ k =>
        rw [Nat.add_comm k 1]
        exact hwords k x hkx

end Heap

end RaxzusHeap
