import RaxzusHeap.CommandLine

/-! # The keyboard handler as a line editor (`keyboard.c`)

What the handler does with `command_buffer` from power-on, whatever the commands do.

* **Bounds.** `Stores t key i` says that the handler stores into `command_buffer[i]`.  A
  character is stored below 256 only; the NUL of Enter is stored at `buffer_pos`, which
  may be 256 (`buffer_kept_iff`).
* **Editing.** `typed` translates keys into characters, from the keys alone, and `edit` is a
  line editor on characters.  The handler simulates it (`Edits`), so the strings that
  `process_input` gets are the lines that the editor sends (`strings_eq_sent`). -/

namespace RaxzusHeap

namespace Terminal

variable {processInput : Terminal → Terminal} {t : Terminal} {key : Byte}

/-- Nothing has been typed. -/
def powerOn (c : Console) : Terminal := ⟨c, false, false, fun _ => 0, 0⟩

/-! ### The effect of a key -/

/-- What a key does to the state of shift. -/
def shift (t : Terminal) (key : Byte) : Terminal :=
  { t with
    leftShiftPressed := if key = LEFT_SHIFT_PRESS then true
      else if key = LEFT_SHIFT_RELEASE then false else t.leftShiftPressed
    rightShiftPressed := if key = RIGHT_SHIFT_PRESS then true
      else if key = RIGHT_SHIFT_RELEASE then false else t.rightShiftPressed }

theorem scancodeToAscii_ne_zero (key : Byte) (shiftPressed : Bool)
    (h : scancodeToAscii key shiftPressed ≠ 0) :
    (key ≠ LEFT_SHIFT_PRESS ∧ key ≠ LEFT_SHIFT_RELEASE ∧ key ≠ RIGHT_SHIFT_PRESS ∧
      key ≠ RIGHT_SHIFT_RELEASE) ∧ key &&& 0x80 = 0 := by
  revert key shiftPressed
  decide +kernel

/-- A key types a character or changes the state of shift at most. -/
theorem keyboardInterruptHandler_eq (processInput : Terminal → Terminal) (t : Terminal)
    (key : Byte) :
    t.keyboardInterruptHandler processInput key =
      if t.ascii key ≠ 0 then t.typeChar processInput (t.ascii key) else t.shift key := by
  unfold keyboardInterruptHandler
  by_cases hascii : t.ascii key ≠ 0
  · obtain ⟨⟨h1, h2, h3, h4⟩, hmake⟩ := scancodeToAscii_ne_zero key _ hascii
    rw [if_neg h1, if_neg h2, if_neg h3, if_neg h4, if_pos hmake, if_pos hascii, if_pos hascii]
  · rw [if_neg hascii, if_neg hascii, ite_self, shift]
    by_cases h1 : key = LEFT_SHIFT_PRESS
    · subst h1
      rfl
    by_cases h2 : key = LEFT_SHIFT_RELEASE
    · subst h2
      rfl
    by_cases h3 : key = RIGHT_SHIFT_PRESS
    · subst h3
      rfl
    by_cases h4 : key = RIGHT_SHIFT_RELEASE
    · subst h4
      rfl
    simp only [if_neg h1, if_neg h2, if_neg h3, if_neg h4]

/-! ### Bounds -/

/-- The handler stores into `command_buffer[i]`: what lies there may change, even if the command
leaves the buffer alone. -/
def Stores (t : Terminal) (key : Byte) (i : ℕ) : Prop :=
  ∃ b, (keyboardInterruptHandler id
    { t with commandBuffer := Function.update t.commandBuffer i b } key).commandBuffer i ≠ b

/-- The characters that a line of keys leaves in the buffer, 256 at most. -/
def lineLength (keys : List Byte) : ℕ :=
  keys.foldl (fun n key =>
    if key = ENTER then 0
    else if key = BACKSPACE then n - 1
    else if scancodeToAscii key false ≠ 0 then min (n + 1) 256
    else n) 0

theorem scancodeToAscii_eq_zero_iff (key : Byte) (shiftPressed : Bool) :
    scancodeToAscii key shiftPressed = 0 ↔ scancodeToAscii key false = 0 := by
  revert key shiftPressed
  decide +kernel

theorem ascii_eq_newline_iff : t.ascii key = char '\n' ↔ key = ENTER :=
  (scancodeToAscii_special key _).1

theorem ascii_eq_backspace_iff : t.ascii key = 8 ↔ key = BACKSPACE :=
  (scancodeToAscii_special key _).2

theorem typeChar_bufferPos (processInput : Terminal → Terminal) (ascii : Byte)
    (hpos : t.bufferPos ≤ 256) :
    (t.typeChar processInput ascii).bufferPos =
      if ascii = char '\n' then 0 else if ascii = 8 then t.bufferPos - 1
      else min (t.bufferPos + 1) 256 := by
  unfold typeChar
  by_cases hnl : ascii = char '\n'
  · rw [if_pos hnl, if_pos hnl]
  rw [if_neg hnl, if_neg hnl]
  by_cases hbs : ascii = 8
  · rw [if_pos hbs, if_pos hbs]
    dsimp only
    split
    · rfl
    · dsimp only
      omega
  rw [if_neg hbs, if_neg hbs]
  by_cases hlt : t.bufferPos < 256
  · rw [if_pos hlt, min_eq_left (by omega)]
    rfl
  · rw [if_neg hlt, min_eq_right (by omega)]

theorem press_bufferPos (processInput : Terminal → Terminal) (c : Console) (keys : List Byte) :
    ((powerOn c).press processInput keys).bufferPos = lineLength keys ∧ lineLength keys ≤ 256 := by
  induction keys using List.reverseRecOn with
  | nil => exact ⟨rfl, Nat.zero_le _⟩
  | append_singleton keys key ih =>
      obtain ⟨hpos, hle⟩ := ih
      have hnext : lineLength (keys ++ [key]) =
          if key = ENTER then 0 else if key = BACKSPACE then lineLength keys - 1
          else if scancodeToAscii key false ≠ 0 then min (lineLength keys + 1) 256
          else lineLength keys := by
        rw [lineLength, List.foldl_append]
        rfl
      rw [press_concat, keyboardInterruptHandler_eq, hnext]
      generalize (powerOn c).press processInput keys = t at hpos
      constructor
      · by_cases hascii : t.ascii key = 0
        · have h1 : key ≠ ENTER := fun h => by
            rw [← ascii_eq_newline_iff (t := t), hascii] at h
            exact absurd h (by decide)
          have h2 : key ≠ BACKSPACE := fun h => by
            rw [← ascii_eq_backspace_iff (t := t), hascii] at h
            exact absurd h (by decide)
          have h3 := (scancodeToAscii_eq_zero_iff key _).mp hascii
          rw [if_neg (not_not.mpr hascii), if_neg h1, if_neg h2, if_neg (not_not.mpr h3)]
          exact hpos
        · have h3 := fun h => hascii ((scancodeToAscii_eq_zero_iff key _).mpr h)
          rw [if_pos hascii, typeChar_bufferPos _ _ (by omega), hpos, if_pos h3]
          simp only [ascii_eq_newline_iff, ascii_eq_backspace_iff]
      · split_ifs <;> omega

/-- The key stands for a character that is stored. -/
def Typable (t : Terminal) (key : Byte) : Prop :=
  key ≠ BACKSPACE ∧ scancodeToAscii key false ≠ 0 ∧ t.bufferPos < 256

instance (t : Terminal) (key : Byte) : Decidable (t.Typable key) :=
  inferInstanceAs (Decidable (_ ∧ _))

/-- The buffer behind a key, if the command leaves it alone. -/
theorem commandBuffer_key (t : Terminal) (key : Byte) :
    (t.keyboardInterruptHandler id key).commandBuffer =
      if key = ENTER then (t.setBuffer t.bufferPos 0).commandBuffer
      else if t.Typable key then (t.setBuffer t.bufferPos (t.ascii key)).commandBuffer
      else t.commandBuffer := by
  rw [keyboardInterruptHandler_eq]
  by_cases hE : key = ENTER
  · have hnl := (ascii_eq_newline_iff (t := t)).mpr hE
    rw [if_pos hE, if_pos (by rw [hnl]; decide), hnl, typeChar, if_pos rfl]
    rfl
  rw [if_neg hE]
  have hnl := mt (ascii_eq_newline_iff (t := t)).mp hE
  by_cases hzero : scancodeToAscii key false = 0
  · have hascii : t.ascii key = 0 := (scancodeToAscii_eq_zero_iff key _).mpr hzero
    have hT : ¬ t.Typable key := fun h => h.2.1 hzero
    rw [if_neg (not_not.mpr hascii), if_neg hT]
    rfl
  have hascii : t.ascii key ≠ 0 := fun h => hzero ((scancodeToAscii_eq_zero_iff key _).mp h)
  rw [if_pos hascii, typeChar, if_neg hnl]
  by_cases hB : key = BACKSPACE
  · have hT : ¬ t.Typable key := fun h => h.1 hB
    rw [if_pos (ascii_eq_backspace_iff.mpr hB), if_neg hT]
    dsimp only
    split <;> rfl
  · rw [if_neg (mt ascii_eq_backspace_iff.mp hB)]
    by_cases hlt : t.bufferPos < 256
    · have hT : t.Typable key := ⟨hB, hzero, hlt⟩
      rw [if_pos hlt, if_pos hT]
    · have hT : ¬ t.Typable key := fun h => hlt h.2.2
      rw [if_neg hlt, if_neg hT]

theorem commandBuffer_key_apply (t : Terminal) (key : Byte) (i : ℕ) :
    (t.keyboardInterruptHandler id key).commandBuffer i =
      if i = t.bufferPos ∧ key = ENTER then 0
      else if i = t.bufferPos ∧ t.Typable key then t.ascii key else t.commandBuffer i := by
  have hset : ∀ v, (t.setBuffer t.bufferPos v).commandBuffer i =
      if i = t.bufferPos then v else t.commandBuffer i := fun _ => rfl
  rw [commandBuffer_key]
  by_cases hE : key = ENTER
  · rw [if_pos hE, hset]
    by_cases hi : i = t.bufferPos
    · rw [if_pos hi, if_pos ⟨hi, hE⟩]
    · rw [if_neg hi, if_neg (mt And.left hi), if_neg (mt And.left hi)]
  rw [if_neg hE, if_neg (mt And.right hE)]
  by_cases hT : t.Typable key
  · rw [if_pos hT, hset]
    by_cases hi : i = t.bufferPos
    · rw [if_pos hi, if_pos ⟨hi, hT⟩]
    · rw [if_neg hi, if_neg (mt And.left hi)]
  · rw [if_neg hT, if_neg (mt And.right hT)]

/-- Where the handler stores. -/
theorem stores_iff (t : Terminal) (key : Byte) (i : ℕ) :
    Stores t key i ↔ i = t.bufferPos ∧ (key = ENTER ∨ t.Typable key) := by
  -- the cell behind the key, whatever lay there
  have hcell : ∀ b, (keyboardInterruptHandler id
      { t with commandBuffer := Function.update t.commandBuffer i b } key).commandBuffer i =
        if i = t.bufferPos ∧ key = ENTER then 0
        else if i = t.bufferPos ∧ t.Typable key then t.ascii key
        else Function.update t.commandBuffer i b i := fun b => commandBuffer_key_apply _ key i
  simp only [Function.update_self] at hcell
  constructor
  · rintro ⟨b, hb⟩
    rw [hcell b] at hb
    split_ifs at hb with h1 h2
    · exact ⟨h1.1, .inl h1.2⟩
    · exact ⟨h2.1, .inr h2.2⟩
    · exact absurd rfl hb
  · rintro ⟨hi, hkey⟩
    have hne : ∀ v : Byte, v ≠ v + 1 := by decide
    by_cases hE : key = ENTER
    · refine ⟨0 + 1, ?_⟩
      rw [hcell, if_pos ⟨hi, hE⟩]
      exact hne 0
    · refine ⟨t.ascii key + 1, ?_⟩
      rw [hcell, if_neg (mt And.right hE), if_pos ⟨hi, hkey.resolve_left hE⟩]
      exact hne _

/-- The stores stay inside `command_buffer` exactly when Enter never ends a full line. -/
theorem buffer_kept_iff (processInput : Terminal → Terminal) (c : Console) (keys : List Byte) :
    ((∀ pre key, pre ++ [key] <+: keys → ∀ i,
        Stores ((powerOn c).press processInput pre) key i → i < 256) ∧
      ∀ pre, pre <+: keys → ((powerOn c).press processInput pre).bufferPos ≤ 256) ↔
    ∀ pre, pre ++ [ENTER] <+: keys → lineLength pre < 256 := by
  constructor
  · rintro ⟨hstores, -⟩ pre hpre
    obtain ⟨hpos, hle⟩ := press_bufferPos processInput c pre
    rw [← hpos]
    exact hstores pre ENTER hpre _ ((stores_iff _ _ _).mpr ⟨rfl, .inl rfl⟩)
  · intro hlines
    refine ⟨fun pre key hpre i hi => ?_, fun pre _ => ?_⟩
    · obtain ⟨hpos, hle⟩ := press_bufferPos processInput c pre
      obtain ⟨rfl, hkey⟩ := (stores_iff _ _ _).mp hi
      rcases hkey with rfl | ⟨-, -, hlt⟩
      · rw [hpos]
        exact hlines pre hpre
      · exact hlt
    · obtain ⟨hpos, hle⟩ := press_bufferPos processInput c pre
      omega

/-- Enter behind 256 characters stores its NUL behind the buffer. -/
theorem buffer_overrun :
    ¬ ∀ (processInput : Terminal → Terminal) (c : Console) (keys : List Byte),
      (∀ pre key, pre ++ [key] <+: keys → ∀ i,
        Stores ((powerOn c).press processInput pre) key i → i < 256) ∧
      ∀ pre, pre <+: keys → ((powerOn c).press processInput pre).bufferPos ≤ 256 := by
  intro hall
  have hfull : lineLength (List.replicate 256 0x1E) = 256 := by decide +kernel
  obtain ⟨hpos, -⟩ := press_bufferPos id ⟨fun _ => 0, 0, 0, 0x0F, []⟩ (List.replicate 256 0x1E)
  have hlt := (hall id ⟨fun _ => 0, 0, 0, 0x0F, []⟩ (List.replicate 256 0x1E ++ [ENTER])).1 _ _
    List.prefix_rfl 256 ((stores_iff _ _ _).mpr ⟨by rw [hpos, hfull], .inl rfl⟩)
  omega

end Terminal

/-! ### A line editor -/

/-- The last event of a shift key was a press. -/
def shiftHeld (press release : Byte) (keys : List Byte) : Bool :=
  (keys.filter fun k => k = press ∨ k = release).getLast? = some press

/-- Shift is active behind some keys. -/
def shifted (keys : List Byte) : Bool :=
  shiftHeld LEFT_SHIFT_PRESS LEFT_SHIFT_RELEASE keys || shiftHeld RIGHT_SHIFT_PRESS RIGHT_SHIFT_RELEASE keys

/-- The character that a key types behind the keys `pre`, if any. -/
def keyChar (pre : List Byte) (key : Byte) : List Byte :=
  [scancodeToAscii key (shifted pre)].filter (· ≠ 0)

/-- The characters that some keys type behind the keys `pre`. -/
def typedFrom (pre : List Byte) : List Byte → List Byte
  | [] => []
  | key :: keys => keyChar pre key ++ typedFrom (pre ++ [key]) keys

/-- The characters that some keys type. -/
def typed (keys : List Byte) : List Byte := typedFrom [] keys

/-- The line being edited and the lines sent. -/
structure Editor where
  line : List Byte
  sent : List (List Byte)

/-- A newline sends the line, a backspace removes its last character, and any other character is
appended. -/
def Editor.type (e : Editor) (c : Byte) : Editor :=
  if c = char '\n' then ⟨[], e.sent ++ [e.line]⟩
  else if c = 8 then ⟨e.line.dropLast, e.sent⟩
  else ⟨e.line ++ [c], e.sent⟩

/-- The editor behind some characters. -/
def edit (cs : List Byte) : Editor := cs.foldl Editor.type ⟨[], []⟩

theorem shiftHeld_concat (press release : Byte) (keys : List Byte) (key : Byte) (hne : press ≠ release) :
    shiftHeld press release (keys ++ [key]) =
      if key = press then true else if key = release then false else shiftHeld press release keys := by
  unfold shiftHeld
  rw [List.filter_append]
  by_cases hp : key = press
  · rw [if_pos hp]
    simp [hp]
  rw [if_neg hp]
  by_cases hr : key = release
  · rw [if_pos hr]
    simp [hr, hne.symm]
  · rw [if_neg hr]
    simp [hp, hr]

theorem typedFrom_concat (pre keys : List Byte) (key : Byte) :
    typedFrom pre (keys ++ [key]) = typedFrom pre keys ++ keyChar (pre ++ keys) key := by
  induction keys generalizing pre with
  | nil => simp [typedFrom]
  | cons k keys ih => simp [typedFrom, ih]

theorem typed_concat (keys : List Byte) (key : Byte) :
    typed (keys ++ [key]) = typed keys ++ keyChar keys key := typedFrom_concat [] keys key

theorem edit_append (cs : List Byte) (c : Byte) : edit (cs ++ [c]) = (edit cs).type c := by
  rw [edit, List.foldl_append]
  rfl

namespace Terminal

variable {t : Terminal} {key : Byte}

/-- What a command does to the screen and to the buffer it is given. -/
abbrev Command := Console → (ℕ → Byte) → Console × (ℕ → Byte)

/-- `process_input` for such a command; the variables of `keyboard.c` are out of its reach. -/
def runCommand (command : Command) (t : Terminal) : Terminal :=
  { t with
    console := (command t.console t.commandBuffer).1
    commandBuffer := (command t.console t.commandBuffer).2 }

/-- The C string in `command_buffer`. -/
def bufferText (t : Terminal) : List Byte :=
  ((List.range 256).map t.commandBuffer).takeWhile (· ≠ 0)

/-- The string that `process_input` is given at a key, if it is called. -/
def passed (t : Terminal) (key : Byte) : Option (List Byte) :=
  if t.ascii key = char '\n' then some (t.setBuffer t.bufferPos 0).bufferText else none

/-- Keys from power-on, with some command for each, and the strings that `process_input` is
given. -/
inductive Session (c : Console) : List Byte → Terminal → List (List Byte) → Prop
  | start : Session c [] (powerOn c) []
  | key {keys t strings} (run : Session c keys t strings) (command : Command) (key : Byte) :
      Session c (keys ++ [key]) (t.keyboardInterruptHandler (runCommand command) key)
        (strings ++ (t.passed key).toList)

theorem bufferText_terminated (hpos : t.bufferPos < 256) (htext : ∀ c ∈ t.line, c ≠ 0) :
    (t.setBuffer t.bufferPos 0).bufferText = t.line := by
  obtain ⟨n, hn⟩ := Nat.exists_eq_add_of_lt hpos
  have hline : (List.range t.bufferPos).map (t.setBuffer t.bufferPos 0).commandBuffer = t.line := by
    refine List.map_congr_left fun i hi => if_neg ?_
    have := List.mem_range.mp hi
    omega
  have hnul : (t.setBuffer t.bufferPos 0).commandBuffer (t.bufferPos + 0) = 0 := if_pos rfl
  unfold bufferText
  rw [show 256 = t.bufferPos + (n + 1) by omega, List.range_add, List.map_append, hline,
    List.takeWhile_append_of_pos (by simpa using htext), List.range_succ_eq_map]
  simp only [List.map_cons, hnul]
  simp

theorem line_erase (t : Terminal) : t.erase.line = t.line.dropLast := by
  unfold line Terminal.erase
  dsimp only
  cases t.bufferPos with
  | zero => rfl
  | succ n => rw [List.range_succ, List.map_append, List.map_singleton, List.dropLast_concat,
      Nat.add_sub_cancel]

/-- Terminal and editor agree behind some keys. -/
structure Edits (keys : List Byte) (t : Terminal) : Prop where
  left : t.leftShiftPressed = shiftHeld LEFT_SHIFT_PRESS LEFT_SHIFT_RELEASE keys
  right : t.rightShiftPressed = shiftHeld RIGHT_SHIFT_PRESS RIGHT_SHIFT_RELEASE keys
  line : t.line = (edit (typed keys)).line
  text : ∀ c ∈ t.line, c ≠ 0

theorem Edits.ascii {keys : List Byte} (h : Edits keys t) (key : Byte) :
    t.ascii key = scancodeToAscii key (shifted keys) := by
  rw [Terminal.ascii, h.left, h.right]
  rfl

/-- One key of a line that fits the buffer. -/
theorem Edits.step {keys : List Byte} (h : Edits keys t) (hpos : t.bufferPos < 256)
    (command : Command) (key : Byte) :
    Edits (keys ++ [key]) (t.keyboardInterruptHandler (runCommand command) key) ∧
      (edit (typed (keys ++ [key]))).sent =
        (edit (typed keys)).sent ++ (t.passed key).toList := by
  rw [keyboardInterruptHandler_eq, typed_concat, keyChar, ← h.ascii]
  by_cases hzero : t.ascii key = 0
  · -- a key of shift, a break code or an unmapped key
    have hnone : t.passed key = none := if_neg (by rw [hzero]; decide)
    rw [if_neg (not_not.mpr hzero), hnone, hzero]
    refine ⟨⟨?_, ?_, ?_, h.text⟩, by simp⟩
    · rw [shiftHeld_concat _ _ _ _ (by decide), ← h.left]
      rfl
    · rw [shiftHeld_concat _ _ _ _ (by decide), ← h.right]
      rfl
    · rw [typed_concat, keyChar, ← h.ascii, hzero, List.filter_cons_of_neg (by decide),
        List.filter_nil, List.append_nil]
      exact h.line
  -- the key types a character and leaves shift alone
  obtain ⟨⟨h1, h2, h3, h4⟩, -⟩ := scancodeToAscii_ne_zero key _ hzero
  have hleft : shiftHeld LEFT_SHIFT_PRESS LEFT_SHIFT_RELEASE (keys ++ [key]) = t.leftShiftPressed := by
    rw [shiftHeld_concat _ _ _ _ (by decide), if_neg h1, if_neg h2, h.left]
  have hright : shiftHeld RIGHT_SHIFT_PRESS RIGHT_SHIFT_RELEASE (keys ++ [key]) =
      t.rightShiftPressed := by
    rw [shiftHeld_concat _ _ _ _ (by decide), if_neg h3, if_neg h4, h.right]
  have htyped : typed (keys ++ [key]) = typed keys ++ [t.ascii key] := by
    rw [typed_concat, keyChar, ← h.ascii, List.filter_cons_of_pos (by simpa using hzero),
      List.filter_nil]
  have hedit : edit (typed (keys ++ [key])) = (edit (typed keys)).type (t.ascii key) := by
    rw [htyped, edit_append]
  rw [if_pos hzero, List.filter_cons_of_pos (by simpa using hzero), List.filter_nil, edit_append]
  by_cases hnl : t.ascii key = char '\n'
  · rw [typeChar, if_pos hnl, Editor.type, if_pos hnl, passed, if_pos hnl,
      bufferText_terminated hpos h.text, h.line]
    refine ⟨⟨hleft.symm, hright.symm, ?_, fun c hc => ?_⟩, rfl⟩
    · rw [hedit, Editor.type, if_pos hnl]
      rfl
    · exact absurd hc (List.not_mem_nil)
  have hnone : t.passed key = none := if_neg hnl
  by_cases hbs : t.ascii key = 8
  · rw [hbs, typeChar_backspace, hnone]
    refine ⟨⟨hleft.symm, hright.symm, ?_, fun c hc => ?_⟩, by simp [Editor.type, char]⟩
    · rw [hedit, hbs, Editor.type, if_neg (by decide), if_pos rfl, line_erase, h.line]
    · rw [line_erase] at hc
      exact h.text c (List.mem_of_mem_dropLast hc)
  · have hline := t.line_typed (t.ascii key) ((t.console.printChar (t.ascii key)).setColor 0x0F)
    rw [typeChar, if_neg hnl, if_neg hbs, if_pos hpos, Editor.type, if_neg hnl, if_neg hbs, hnone]
    refine ⟨⟨hleft.symm, hright.symm, hline.trans ?_, fun c hc => ?_⟩, by simp⟩
    · rw [hedit, Editor.type, if_neg hnl, if_neg hbs, h.line]
    · rcases List.mem_append.mp (hline ▸ hc) with hc | hc
      · exact h.text c hc
      · rw [List.mem_singleton.mp hc]
        exact hzero

theorem Session.edits {c : Console} {keys : List Byte} {strings : List (List Byte)}
    (run : Session c keys t strings)
    (hfit : ∀ pre, pre <+: keys → (edit (typed pre)).line.length ≤ 255) :
    Edits keys t ∧ strings = (edit (typed keys)).sent := by
  induction run with
  | start => exact ⟨⟨rfl, rfl, rfl, fun _ h => by cases h⟩, rfl⟩
  | @key keys t strings run command key ih =>
      obtain ⟨h, hsent⟩ := ih fun pre hpre => hfit pre (hpre.trans (List.prefix_append ..))
      have hlen := hfit keys (List.prefix_append ..)
      rw [← h.line, line_length] at hlen
      obtain ⟨h', hnext⟩ := h.step (by omega) command key
      rw [hsent, hnext]
      exact ⟨h', rfl⟩

/-- While no line outgrows the buffer, the strings that the commands get are the lines that the
editor sends. -/
theorem strings_eq_sent {c : Console} {keys : List Byte} {strings : List (List Byte)}
    (run : Session c keys t strings)
    (hfit : ∀ pre, pre <+: keys → (edit (typed pre)).line.length ≤ 255) :
    strings = (edit (typed keys)).sent :=
  (run.edits hfit).2

theorem exists_session (c : Console) (command : Command) (keys : List Byte) :
    ∃ t strings, Session c keys t strings := by
  induction keys using List.reverseRecOn with
  | nil => exact ⟨_, _, .start⟩
  | append_singleton keys key ih =>
      obtain ⟨t, strings, run⟩ := ih
      exact ⟨_, _, run.key command key⟩

/-- `A` under shift, `b`, a Backspace, `c` and Enter. -/
theorem strings_eq_sent_one :
    ∃ t strings, Session ⟨fun _ => char ' ', 0, 0, 0x0F, []⟩
      [LEFT_SHIFT_PRESS, 0x1E, LEFT_SHIFT_RELEASE, 0x30, BACKSPACE, 0x2E, ENTER] t strings ∧
      strings = [[char 'A', char 'c']] := by
  obtain ⟨t, strings, run⟩ := exists_session ⟨fun _ => char ' ', 0, 0, 0x0F, []⟩
    (fun c b => (c, b)) [LEFT_SHIFT_PRESS, 0x1E, LEFT_SHIFT_RELEASE, 0x30, BACKSPACE, 0x2E, ENTER]
  have hfit : ∀ pre ∈ [LEFT_SHIFT_PRESS, 0x1E, LEFT_SHIFT_RELEASE, 0x30, BACKSPACE, 0x2E,
      ENTER].inits, (edit (typed pre)).line.length ≤ 255 := by decide +kernel
  refine ⟨t, strings, run, ?_⟩
  rw [strings_eq_sent run fun pre hpre => hfit pre ((List.mem_inits _ _).mpr hpre)]
  decide +kernel

end Terminal

end RaxzusHeap
