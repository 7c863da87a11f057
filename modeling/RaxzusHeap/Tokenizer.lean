import RaxzusHeap.LineEditor
import RaxzusHeap.Disk
import RaxzusHeap.Ledger
import Mathlib.Data.Nat.Count

/-! # Splitting a line (`tokinize_words`)

A space separates two words if it stands behind an even number of double quotes.

* **Splitting.** With at most 49 such spaces the words in memory are the pieces of the line
  between them (`tokinizeWords_splits`).
* **Bounds.** `argvStores` lists the stores into `argv` behind the first; they stay inside the
  200 bytes asked for exactly with at most 49 such spaces (`argv_fits_iff`). -/

namespace RaxzusHeap

open Imperative Shell

/-- Character `i` is a space behind an even number of double quotes. -/
def Separates (text : List Byte) (i : ℕ) : Prop :=
  text[i]? = some (char ' ') ∧ Even ((text.take i).count 34)

instance (text : List Byte) : DecidablePred (Separates text) := fun _ =>
  inferInstanceAs (Decidable (_ ∧ _))

/-- The number of separating spaces. -/
def separators (text : List Byte) : ℕ := Nat.count (Separates text) text.length

/-- The same in the rest of a line; `isString` tells on which side of a quote it begins. -/
def SeparatesFrom (isString : Bool) (text : List Byte) (i : ℕ) : Prop :=
  text[i]? = some (char ' ') ∧ (Even ((text.take i).count 34) ↔ isString = false)

instance (isString : Bool) (text : List Byte) : DecidablePred (SeparatesFrom isString text) :=
  fun _ => inferInstanceAs (Decidable (_ ∧ _))

section Line

variable {c : Byte} {rest text : List Byte} {isString : Bool} {pos i : ℕ}

theorem separatesFrom_false : SeparatesFrom false text i ↔ Separates text i := by
  simp [SeparatesFrom, Separates]

theorem separatesFrom_zero :
    SeparatesFrom isString (c :: rest) 0 ↔ c = char ' ' ∧ quoted isString c = false := by
  rw [SeparatesFrom, List.getElem?_cons_zero, Option.some_inj]
  refine and_congr_right fun hc => ?_
  rw [quoted, if_neg (by rw [hc]; decide)]
  simp

theorem separatesFrom_succ :
    SeparatesFrom isString (c :: rest) (i + 1) ↔ SeparatesFrom (quoted isString c) rest i := by
  rw [SeparatesFrom, SeparatesFrom, List.getElem?_cons_succ, List.take_succ_cons]
  refine and_congr_right fun _ => ?_
  by_cases hc : c = 34
  · rw [hc, List.count_cons_self, Nat.even_add_one, quoted, if_pos rfl]
    cases isString <;> simp
  · rw [List.count_cons_of_ne hc, quoted, if_neg hc]

theorem length_wordStarts (text : List Byte) (isString : Bool) (pos : ℕ) :
    (wordStarts text isString pos).length = Nat.count (SeparatesFrom isString text) text.length := by
  induction text generalizing isString pos with
  | nil => rfl
  | cons c rest ih =>
      rw [List.length_cons, Nat.count_succ']
      simp only [separatesFrom_succ, separatesFrom_zero]
      by_cases hblank : c = char ' ' ∧ quoted isString c = false
      · rw [wordStarts_blank hblank, List.length_cons, ih, if_pos hblank]
      · rw [wordStarts_other hblank, ih, if_neg hblank, Nat.add_zero]

theorem length_wordStarts_line (text : List Byte) :
    (wordStarts text false 0).length = separators text := by
  rw [length_wordStarts, separators]
  exact le_antisymm (Nat.count_mono_left fun _ _ => separatesFrom_false.mp)
    (Nat.count_mono_left fun _ _ => separatesFrom_false.mpr)

theorem blanked_getElem? (text : List Byte) (isString : Bool) (i : ℕ) :
    (blanked text isString)[i]? = if SeparatesFrom isString text i then some 0 else text[i]? := by
  induction text generalizing isString i with
  | nil => simp [blanked, SeparatesFrom]
  | cons c rest ih =>
      cases i with
      | zero =>
          by_cases hblank : c = char ' ' ∧ quoted isString c = false
          · rw [blanked_blank hblank, if_pos (separatesFrom_zero.mpr hblank)]
            rfl
          · rw [blanked_other hblank, if_neg (mt separatesFrom_zero.mp hblank)]
            rfl
      | succ i =>
          rw [blanked, List.getElem?_cons_succ, List.getElem?_cons_succ, ih]
          simp only [separatesFrom_succ]

/-- The words of the rest of a line. -/
def wordsFrom (text : List Byte) (isString : Bool) (pos : ℕ) : List (List Byte) :=
  (pos :: wordStarts text isString pos).map fun x =>
    ((blanked text isString).drop (x - pos)).takeWhile (· ≠ 0)

theorem map_wordStarts_cons (c' : Byte) :
    ((wordStarts rest isString (pos + 1)).map fun x =>
        ((c' :: blanked rest isString).drop (x - pos)).takeWhile (· ≠ 0)) =
      (wordStarts rest isString (pos + 1)).map fun x =>
        ((blanked rest isString).drop (x - (pos + 1))).takeWhile (· ≠ 0) := by
  refine List.map_congr_left fun x hx => ?_
  have := (wordStarts_lt hx).1
  rw [show x - pos = x - (pos + 1) + 1 by omega, List.drop_succ_cons]

theorem wordsFrom_blank (h : c = char ' ' ∧ quoted isString c = false) :
    wordsFrom (c :: rest) isString pos = [] :: wordsFrom rest (quoted isString c) (pos + 1) := by
  rw [wordsFrom, wordsFrom, wordStarts_blank h, blanked_blank h]
  simp only [List.map_cons, map_wordStarts_cons]
  simp

theorem wordsFrom_other (h : ¬ (c = char ' ' ∧ quoted isString c = false)) (hc : c ≠ 0) :
    wordsFrom (c :: rest) isString pos =
      (wordsFrom rest (quoted isString c) (pos + 1)).modifyHead (c :: ·) := by
  rw [wordsFrom, wordsFrom, wordStarts_other h, blanked_other h]
  simp only [List.map_cons, map_wordStarts_cons, Nat.sub_self, List.drop_zero,
    List.modifyHead_cons]
  rw [List.takeWhile_cons_of_pos (by simpa using hc)]

theorem wordsFrom_ne_nil (text : List Byte) (isString : Bool) (pos : ℕ) :
    wordsFrom text isString pos ≠ [] := by simp [wordsFrom]

theorem intercalate_wordsFrom (hnul : ∀ c ∈ text, c ≠ 0) :
    [char ' '].intercalate (wordsFrom text isString pos) = text := by
  induction text generalizing isString pos with
  | nil => simp [wordsFrom, wordStarts, blanked]
  | cons c rest ih =>
      have hrest := fun x hx => hnul x (List.mem_cons_of_mem c hx)
      by_cases hblank : c = char ' ' ∧ quoted isString c = false
      · rw [wordsFrom_blank hblank, List.intercalate_cons_of_ne_nil (wordsFrom_ne_nil _ _ _), ih hrest,
          hblank.1]
        rfl
      · rw [wordsFrom_other hblank (hnul c List.mem_cons_self)]
        obtain ⟨w, ws, hw⟩ := List.exists_cons_of_ne_nil (wordsFrom_ne_nil rest (quoted isString c) (pos + 1))
        have hjoin : [char ' '].intercalate (wordsFrom rest (quoted isString c) (pos + 1)) = rest :=
          ih hrest
        rw [hw] at hjoin ⊢
        rw [List.modifyHead_cons, List.intercalate_cons_cons_left, hjoin]

theorem lineWords_eq (text : List Byte) : lineWords text = wordsFrom text false 0 := rfl

end Line

/-! ### The words in memory -/

/-- The words in memory are the pieces of the line between its separating spaces. -/
structure Splits (L : Layout) (text : List Byte) (w : Words) (t : ShellState) : Prop where
  count : w.count = 1 + separators text
  joined : ∃ strings : List (List Byte), strings.length = w.count ∧
    (∀ k str, strings[k]? = some str → L.word w k t = .ok str t) ∧
    [char ' '].intercalate strings = text
  unquoted : ∀ k str, k < w.count → L.word w k t = .ok str t →
    ∃ x, L.wordPtr w k t = .ok (w.input + x) t ∧
      ∀ i, i < str.length → str[i]? = text[x + i]? ∧ ¬ Separates text (x + i)
  kept : ∀ i, w.text[i]? = if Separates text i then some 0 else text[i]?

theorem blanked_line_getElem? (text : List Byte) (i : ℕ) :
    (blanked text false)[i]? = if Separates text i then some 0 else text[i]? := by
  rw [blanked_getElem?]
  simp only [separatesFrom_false]

theorem word_getElem? {text : List Byte} {x i : ℕ}
    (hi : i < (((blanked text false).drop x).takeWhile (· ≠ 0)).length) :
    (((blanked text false).drop x).takeWhile (· ≠ 0))[i]? = text[x + i]? ∧
      ¬ Separates text (x + i) := by
  have hget : (((blanked text false).drop x).takeWhile (· ≠ 0))[i]? = (blanked text false)[x + i]? := by
    rw [List.getElem?_eq_getElem hi, (List.takeWhile_prefix _).getElem hi, ← List.getElem?_eq_getElem,
      List.getElem?_drop]
  have hne : (((blanked text false).drop x).takeWhile (· ≠ 0))[i]? ≠ some 0 := fun hzero => by
    have hmem := List.mem_takeWhile_imp (List.mem_of_getElem? hzero)
    simp at hmem
  rw [hget, blanked_line_getElem?] at hne ⊢
  by_cases hsep : Separates text (x + i)
  · rw [if_pos hsep] at hne
    exact absurd rfl hne
  · exact ⟨if_neg hsep, hsep⟩

theorem Tokenized.splits {L : Layout} {text : List Byte} {w : Words} {t : ShellState}
    (h : Tokenized L text w t.machine) (hnul : ∀ c ∈ text, c ≠ 0) : Splits L text w t where
  count := by rw [h.count, length_lineWords, length_wordStarts_line]
  joined := ⟨lineWords text, h.count.symm, fun _ _ hk => h.word hk,
    lineWords_eq text ▸ intercalate_wordsFrom hnul⟩
  unquoted := fun k str hk hr => by
    rw [h.count, length_lineWords] at hk
    obtain ⟨x, hx⟩ : ∃ x, (0 :: wordStarts text false 0)[k]? = some x :=
      ⟨_, List.getElem?_eq_getElem (by rw [List.length_cons]; omega)⟩
    refine ⟨x, h.wordPtr hx, ?_⟩
    have hword : (lineWords text)[k]? = some (((blanked text false).drop x).takeWhile (· ≠ 0)) := by
      rw [lineWords, List.getElem?_map, hx]
      rfl
    rw [h.word hword] at hr
    cases hr
    exact fun i hi => word_getElem? hi
  kept := fun i => by rw [h.text, blanked_line_getElem?]

/-- In a sound heap in which `kmalloc(200)` has returned a block, a line with at most 49
separating spaces is split there. -/
theorem tokinizeWords_splits {L : Layout} {use : ℕ → Use} {live ranges : ℕ → Option ℕ}
    (input : ℕ) (text : List Byte) (t : ShellState) {a : ℕ} {s : State} (hnul : ∀ c ∈ text, c ≠ 0)
    (hend : input + text.length < 2 ^ 32) (hfit : separators text ≤ 49)
    (hk : L.kmalloc 200 t.machine = .ok a s) (heap : HeapInv L use live ranges s)
    (ha : live a = some 200) :
    ∃ w t', L.tokinizeWords input text t = .ok (w.argv, w.text, w.count) t' ∧ w.argv = a ∧
      w.input = input ∧ Splits L text w t' := by
  have hroom : 4 * (lineWords text).length ≤ 200 := by
    rw [length_lineWords, length_wordStarts_line]
    omega
  obtain ⟨t', hr, -, -, -, -, -, hwords⟩ := L.tokinizeWords_spec hk heap ha (heap.live_aligned ha)
    (by norm_num) hroom hend
  exact ⟨⟨a, input, blanked text false, (lineWords text).length⟩, t', hr, rfl, rfl,
    hwords.splits hnul⟩

theorem exists_argv :
    ∃ use live ranges s a s₁, Layout.lowest.boot (State.powerOn fun _ _ => 0) = .ok () s ∧
      Layout.lowest.kmalloc 200 s = .ok a s₁ ∧ HeapInv Layout.lowest use live ranges s₁ ∧
      live a = some 200 := by
  obtain ⟨use, m, s, hboot, hb⟩ := Layout.lowest.boot_spec fun _ _ => 0
  have hne := hb.head_ne_zero .heap256
  obtain ⟨a, s₁, _, hr, _, _⟩ := hb.heap.alloc_ok hne
  obtain ⟨use₁, h₁, -⟩ := (hb.heap.domainAlloc .heap256 (n := 200) (m := 0x40000) (by decide)
    (by norm_num) (fun hnil => absurd hnil hne)).ok hr
  refine ⟨use₁, _, _, s, a, s₁, hboot, ?_, h₁, Function.update_self ..⟩
  rw [Layout.lowest.kmalloc_small (show classOf 200 = some .heap256 from rfl)]
  exact hr

/-- `" a" b`: a quoted space, and an empty word between two spaces. -/
theorem tokinizeWords_splits_quoted :
    ∃ s w t', Layout.lowest.boot (State.powerOn fun _ _ => 0) = .ok () s ∧
      Layout.lowest.tokinizeWords 0xC0108000 (cstr "\" a\"  b") ⟨s, [], noLive, []⟩ =
        .ok (w.argv, w.text, w.count) t' ∧
      w.count = 3 ∧ Splits Layout.lowest (cstr "\" a\"  b") w t' := by
  obtain ⟨use, live, ranges, s, a, s₁, hboot, hk, heap, ha⟩ := exists_argv
  obtain ⟨w, t', hr, -, -, hsplits⟩ := tokinizeWords_splits 0xC0108000
    (cstr "\" a\"  b") ⟨s, [], noLive, []⟩ (by decide) (by decide) (by decide) hk heap ha
  exact ⟨s, w, t', hboot, hr, hsplits.count.trans (by decide), hsplits⟩

/-! ### The stores into `argv` -/

/-- What the loop stores into `argv`, in order: an index and a pointer each. -/
def argvStores (input : ℕ) (text : List Byte) : List (ℕ × ℕ) :=
  ((wordStarts text false 0).zipIdx 1).map fun x => (x.2, input + x.1)

/-- The stores, one after the other. -/
def Layout.storeAll (L : Layout) (argv : ℕ) : List (ℕ × ℕ) → Shell Unit
  | [] => pure ()
  | (index, p) :: stores => do
      lift (L.store (u32 (argv + 4 * index)) p)
      L.storeAll argv stores

theorem Layout.tokinizeLoop_eq (L : Layout) (argv input : ℕ) (text : List Byte) (isString : Bool)
    (pos index : ℕ) :
    L.tokinizeLoop argv input text isString pos index = (do
      L.storeAll argv (((wordStarts text isString pos).zipIdx index).map fun x =>
        (x.2, input + x.1))
      pure (blanked text isString, index + (wordStarts text isString pos).length)) := by
  induction text generalizing isString pos index with
  | nil => rfl
  | cons c rest ih =>
      unfold Layout.tokinizeLoop
      dsimp only
      rw [show (if c = 34 then !isString else isString) = quoted isString c from rfl]
      by_cases hblank : c = char ' ' ∧ quoted isString c = false
      · rw [if_pos hblank, wordStarts_blank hblank, blanked_blank hblank, ih, List.zipIdx_cons,
          List.map_cons, Layout.storeAll, List.length_cons]
        simp only [bind_assoc, pure_bind]
        rw [show ∀ n, index + 1 + n = index + (n + 1) from fun n => by omega]
      · rw [if_neg hblank, wordStarts_other hblank, blanked_other hblank, ih]
        simp only [bind_assoc, pure_bind]

theorem mem_argvStores {input : ℕ} {text : List Byte} {index p : ℕ}
    (h : (index, p) ∈ argvStores input text) : 1 ≤ index ∧ index ≤ separators text := by
  obtain ⟨⟨x, k⟩, hx, he⟩ := List.mem_map.mp h
  obtain rfl : k = index := congrArg Prod.fst he
  have hk := List.mem_zipIdx hx
  rw [length_wordStarts_line] at hk
  omega

theorem exists_mem_argvStores (input : ℕ) {text : List Byte} {index : ℕ} (h1 : 1 ≤ index)
    (h2 : index ≤ separators text) : ∃ p, (index, p) ∈ argvStores input text := by
  rw [← length_wordStarts_line] at h2
  have hlt : index - 1 < (wordStarts text false 0).length := by omega
  refine ⟨input + (wordStarts text false 0)[index - 1], List.mem_map.mpr
    ⟨((wordStarts text false 0)[index - 1], index), ?_, rfl⟩⟩
  rw [List.mem_zipIdx_iff_le_and_getElem?_sub]
  exact ⟨h1, List.getElem?_eq_getElem hlt⟩

/-- `tokinize_words` makes the store of `argv[0]` and those of `argvStores`, and they stay inside
the 200 bytes exactly if at most 49 spaces separate words. -/
theorem argv_fits_iff (L : Layout) (input : ℕ) (text : List Byte) :
    (L.tokinizeWords input text = do
      let argv ← Shell.kmalloc L 200
      lift (L.store argv input)
      L.storeAll argv (argvStores input text)
      pure (argv, blanked text false, 1 + separators text)) ∧
    ((∀ index p, (index, p) ∈ argvStores input text → 4 * index + 4 ≤ 200) ↔
      separators text ≤ 49) := by
  refine ⟨?_, fun h => ?_, fun h index p hmem => ?_⟩
  · unfold Layout.tokinizeWords
    simp only [L.tokinizeLoop_eq, length_wordStarts_line, bind_assoc, pure_bind]
    rfl
  · by_contra hmany
    obtain ⟨p, hp⟩ := exists_mem_argvStores input (show 1 ≤ 50 by norm_num)
      (show 50 ≤ separators text by omega)
    have := h 50 p hp
    omega
  · have := mem_argvStores hmem
    omega

/-- The key of the space bar. -/
def SPACE : Byte := 0x39

/-- Fifty spaces typed into the prompt: `argv[50]` lies behind the 200 bytes. -/
theorem argv_overrun :
    ¬ ∀ (c : Console) (keys : List Byte) (t : Terminal) (strings : List (List Byte)) (key : Byte)
      (text : List Byte) (input : ℕ), Terminal.Session c keys t strings →
      t.passed key = some text →
      ∀ index p, (index, p) ∈ argvStores input text → 4 * index + 4 ≤ 200 := by
  intro hall
  obtain ⟨t, strings, run⟩ := Terminal.exists_session ⟨fun _ => char ' ', 0, 0, 0x0F, []⟩
    (fun c b => (c, b)) (List.replicate 50 SPACE)
  have hfit : ∀ pre ∈ (List.replicate 50 SPACE).inits, (edit (typed pre)).line.length ≤ 255 := by
    decide +kernel
  obtain ⟨hedits, -⟩ := run.edits fun pre hpre => hfit pre ((List.mem_inits _ _).mpr hpre)
  have hline : t.line = List.replicate 50 (char ' ') := by
    rw [hedits.line]
    decide +kernel
  have hpos : t.bufferPos < 256 := by
    rw [← t.line_length, hline]
    decide
  have hpassed : t.passed Terminal.ENTER = some (List.replicate 50 (char ' ')) := by
    rw [Terminal.passed, if_pos (Terminal.ascii_eq_newline_iff.mpr rfl),
      Terminal.bufferText_terminated hpos hedits.text, hline]
  have hfifty : separators (List.replicate 50 (char ' ')) = 50 := by decide +kernel
  obtain ⟨p, hp⟩ := exists_mem_argvStores 0 (show 1 ≤ 50 by norm_num) hfifty.ge
  have := hall _ _ _ _ _ _ 0 run hpassed 50 p hp
  omega

end RaxzusHeap
