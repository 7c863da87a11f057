import RaxzusHeap.Tokens

/-! # The disk commands

The two commands share the tests of their numbers (`diskArgs`).  `disk_arguments_iff` says
for which strings the tests do what they are meant for, `disk_transfers_iff` for which
accepted numbers the transfer stays inside its buffer. -/

namespace RaxzusHeap

open Imperative Shell

/-! ### Events of a run -/

namespace Shell

variable {α : Type}

/-- All events so far satisfy `P`. -/
def AllEvents (P : Event → Prop) (t : ShellState) : Prop := ∀ e ∈ t.events, P e

/-- `e` has happened. -/
def Happened (e : Event) (t : ShellState) : Prop := e ∈ t.events

theorem AllEvents.emit {P : Event → Prop} {e : Event} (he : P e) :
    Keeps (AllEvents P) (Shell.emit e) := by
  intro t h e' he'
  rcases List.mem_append.mp he' with hold | hnew
  · exact h e' hold
  · rw [List.mem_singleton.mp hnew]
    exact he

theorem final_lift_events (x : Kernel α) (t : ShellState) :
    (final (lift x t)).events = t.events := by
  unfold lift
  cases x t.machine <;> rfl

theorem final_call_events (L : Layout) (op : HeapOp) (t : ShellState) :
    (final (call L op t)).events = t.events := by
  unfold call
  cases L.heapCall op t.machine <;> rfl

theorem AllEvents.lift {P : Event → Prop} (x : Kernel α) : Keeps (AllEvents P) (Shell.lift x) := by
  intro t h
  unfold AllEvents
  rw [final_lift_events]
  exact h

theorem Happened.emit {e e' : Event} : Keeps (Happened e) (Shell.emit e') :=
  fun _ h => List.mem_append_left _ h

theorem Happened.lift {e : Event} (x : Kernel α) : Keeps (Happened e) (Shell.lift x) := by
  intro t h
  unfold Happened
  rw [final_lift_events]
  exact h

theorem happened_emit (e : Event) (t : ShellState) :
    Happened e { t with events := t.events ++ [e] } := by simp [Happened]

end Shell

/-! ### The driver -/

section Driver

variable {P : Event → Prop} {lba : Word} {count command : Byte} {buffer : ℕ}

theorem allEvents_ataSetup (hP : ∀ port v, P (.outb port v)) :
    Keeps (AllEvents P) (ataSetup lba count command) :=
  (AllEvents.emit (hP _ _)).bind fun _ => (AllEvents.emit (hP _ _)).bind fun _ =>
    (AllEvents.emit (hP _ _)).bind fun _ => (AllEvents.emit (hP _ _)).bind fun _ =>
    (AllEvents.emit (hP _ _)).bind fun _ => AllEvents.emit (hP _ _)

theorem happened_ataSetup {e : Event} : Keeps (Happened e) (ataSetup lba count command) :=
  Happened.emit.bind fun _ => Happened.emit.bind fun _ => Happened.emit.bind fun _ =>
    Happened.emit.bind fun _ => Happened.emit.bind fun _ => Happened.emit

theorem allEvents_ataWriteSector (hcall : P (.ataWriteSector lba count buffer))
    (hP : ∀ port v, P (.outb port v))
    (hw : ∀ s < count.toNat, ∀ i < 256, P (.outw (u32 (buffer + 2 * (s * 256 + i))))) :
    Keeps (AllEvents P) (ataWriteSector lba count buffer) :=
  (AllEvents.emit hcall).bind fun _ => (allEvents_ataSetup hP).bind fun _ =>
    (Keeps.times_lt fun s hs => Keeps.times_lt fun i hi => AllEvents.emit (hw s hs i hi)).bind
      fun _ => AllEvents.emit (hP _ _)

theorem Layout.allEvents_ataReadSector (L : Layout) (disk : ℕ → BitVec 16)
    (hcall : P (.ataReadSector lba count buffer)) (hP : ∀ port v, P (.outb port v))
    (hr : ∀ s < count.toNat, ∀ i < 256, P (.inw (u32 (buffer + 2 * (s * 256 + i))))) :
    Keeps (AllEvents P) (L.ataReadSector disk lba count buffer) :=
  (AllEvents.emit hcall).bind fun _ => (allEvents_ataSetup hP).bind fun _ =>
    Keeps.times_lt fun s hs => Keeps.times_lt fun i hi =>
      (AllEvents.emit (hr s hs i hi)).bind fun _ => AllEvents.lift _

theorem Layout.allEvents_showBuffer (L : Layout) (hP : ∀ m, P (.print m))
    (hr : ∀ i < 1024, P (.readByte (u32 (buffer + i)))) :
    Keeps (AllEvents P) (L.showBuffer buffer) :=
  Keeps.times_lt fun i hi => (AllEvents.emit (hr i hi)).bind fun _ => (AllEvents.lift _).bind
    fun c => by
      split_ifs
      · exact AllEvents.emit (hP _)
      · exact Keeps.pure _ _

theorem happened_ataWriteSector (t : ShellState) :
    Happened (.ataWriteSector lba count buffer) (final (ataWriteSector lba count buffer t)) := by
  have hkeep : ∀ e, Keeps (Happened e) (do
      ataSetup lba count ATA_CMD_WRITE
      times count.toNat fun s =>
        times 256 fun i => emit (.outw (u32 (buffer + 2 * (s * 256 + i))))
      emit (.outb ATA_COMMAND 0xE7)) := fun e =>
    happened_ataSetup.bind fun _ =>
      (Keeps.times (fun _ => Keeps.times (fun _ => Happened.emit) _) _).bind fun _ => Happened.emit
  exact hkeep _ _ (happened_emit _ t)

theorem Layout.happened_ataReadSector (L : Layout) (disk : ℕ → BitVec 16) (t : ShellState) :
    Happened (.ataReadSector lba count buffer)
      (final (L.ataReadSector disk lba count buffer t)) := by
  have hkeep : ∀ e, Keeps (Happened e) (do
      ataSetup lba count ATA_CMD_READ
      times count.toNat fun s =>
        times 256 fun i => do
          let addr := u32 (buffer + 2 * (s * 256 + i))
          emit (.inw addr)
          lift (L.storeHalf addr (disk (s * 256 + i)).toNat)) := fun e =>
    happened_ataSetup.bind fun _ => Keeps.times (fun _ => Keeps.times (fun _ =>
      Happened.emit.bind fun _ => Happened.lift _) _) _
  exact hkeep _ _ (happened_emit _ t)

/-- Every word of every sector is fetched. -/
theorem happened_outw {s i : ℕ} (hs : s < count.toNat) (hi : i < 256) (t : ShellState) :
    ∃ t', ataWriteSector lba count buffer t = .ok () t' ∧
      Happened (.outw (u32 (buffer + 2 * (s * 256 + i)))) t' := by
  obtain ⟨t₁, hr₁⟩ : ∃ t₁, ataSetup lba count ATA_CMD_WRITE
      { t with events := t.events ++ [.ataWriteSector lba count buffer] } = .ok () t₁ := ⟨_, rfl⟩
  let word (s i : ℕ) : Event := .outw (u32 (buffer + 2 * (s * 256 + i)))
  have hinner : ∀ (k : ℕ) t, ∃ t', times 256 (fun i => emit (word k i)) t = .ok () t' ∧
      (k = s → Happened (word s i) t') := by
    intro k t
    refine times_reach hi (fun i t => ⟨_, emit_run _ t⟩) (fun t t' hb hk => ?_)
      (fun j t t' hb h hk => Happened.emit.ok hb (h hk)) t
    rw [hk, emit_run] at hb
    cases hb
    exact happened_emit _ t
  obtain ⟨t₂, hr₂, h₂⟩ : ∃ t₂, times count.toNat (fun k => times 256 fun i => emit (word k i)) t₁ =
      .ok () t₂ ∧ Happened (word s i) t₂ := by
    refine times_reach hs (fun k t => ?_) (fun t t' hb => ?_)
      (fun k t t' hb h => (Keeps.times (fun _ => Happened.emit) 256).ok hb h) t₁
    · obtain ⟨t', hr, _⟩ := hinner k t
      exact ⟨t', hr⟩
    · obtain ⟨t'', hr, hP⟩ := hinner s t
      rw [hr] at hb
      cases hb
      exact hP rfl
  exact ⟨_, (run_bind_ok (emit_run _ t)).trans <| (run_bind_ok hr₁).trans <| run_bind_ok hr₂,
    List.mem_append_left _ h₂⟩

end Driver

/-! ### From the line to the command -/

section Line

variable {L : Layout} {input : ℕ} {line : List Byte} {t t₁ : ShellState} {w : Words}

theorem Layout.tokinizeLoop_events (L : Layout) (argv input : ℕ) (es : List Event) :
    ∀ (line : List Byte) (isString : Bool) (pos index : ℕ),
      Keeps (fun t => t.events = es) (L.tokinizeLoop argv input line isString pos index) := by
  intro line
  induction line with
  | nil => exact fun _ _ _ => Keeps.pure _ _
  | cons c rest ih =>
      intro isString pos index
      unfold Layout.tokinizeLoop
      dsimp only
      generalize (if c = 34 then !isString else isString) = q
      split_ifs
      · refine Keeps.bind (fun t ht => ?_) fun _ => (ih _ _ _).bind fun _ => Keeps.pure _ _
        rw [final_lift_events]
        exact ht
      · exact (ih _ _ _).bind fun _ => Keeps.pure _ _

theorem Layout.tokinizeWords_events (L : Layout) (input : ℕ) (line : List Byte) (es : List Event) :
    Keeps (fun t => t.events = es) (L.tokinizeWords input line) := by
  refine Keeps.bind (fun t ht => ?_) fun _ => Keeps.bind (fun t ht => ?_) fun _ =>
    (L.tokinizeLoop_events _ _ _ _ _ _ _).bind fun _ => Keeps.pure _ _
  · exact (final_call_events L _ t).trans ht
  · exact (final_lift_events _ t).trans ht

/-- Nothing has happened yet, and the tokenizer has left the words of the line in `w`. -/
structure Entered (L : Layout) (input : ℕ) (line : List Byte) (w : Words) (t t₁ : ShellState) :
    Prop where
  quiet : t.events = []
  tokens : L.tokinizeWords input line t = .ok (w.argv, w.text, w.count) t₁
  input : w.input = input
  words : Tokenized L line w t₁.machine

theorem Entered.quiet₁ (h : Entered L input line w t t₁) : t₁.events = [] :=
  (L.tokinizeWords_events input line []).ok h.tokens h.quiet

theorem Entered.events (h : Entered L input line w t t₁) (disk : ℕ → BitVec 16) :
    (final (L.processInput disk input line t)).events = (final (L.runCommand disk w t₁)).events := by
  obtain ⟨argv, input', text, count⟩ := w
  obtain rfl : input' = input := h.input
  unfold Layout.processInput
  rw [run_bind_ok h.tokens]
  dsimp only
  refine Keeps.final_bind (P := fun t : ShellState => t.events =
    (final (L.runCommand disk ⟨argv, input', text, count⟩ t₁)).events) rfl fun fellThrough => ?_
  cases fellThrough with
  | false => exact Keeps.pure _ _
  | true => exact Keeps.bind (fun t ht => (final_call_events L _ t).trans ht) fun _ => Keeps.pure _ _

theorem Entered.runCommand_diskW (h : Entered L input line w t t₁) (disk : ℕ → BitVec 16)
    (hfirst : (lineWords line)[0]? = some (cstr "diskW")) :
    L.runCommand disk w t₁ = L.diskW w t₁ := by
  unfold Layout.runCommand
  rw [run_bind_ok (h.words.word hfirst)]
  simp only [checkString_eq]
  rfl

theorem Entered.runCommand_diskR (h : Entered L input line w t t₁) (disk : ℕ → BitVec 16)
    (hfirst : (lineWords line)[0]? = some (cstr "diskR")) :
    L.runCommand disk w t₁ = L.diskR disk w t₁ := by
  unfold Layout.runCommand
  rw [run_bind_ok (h.words.word hfirst)]
  simp only [checkString_eq]
  rfl

end Line

/-! ### The tests of the numbers -/

/-- The tests pass for digit strings whose values modulo `2 ^ 32` are in range. -/
theorem diskArgs_ok_iff {a b : List Byte} {lba count : Word} :
    diskArgs a b = .ok (lba, count) ↔
      ((∀ c ∈ a, IsDigit c) ∧ (∀ c ∈ b, IsDigit c) ∧ decimalValue a % 2 ^ 32 ≤ 2000 ∧
        decimalValue b % 2 ^ 32 ≤ 255) ∧ lba = stringToInt a ∧ count = stringToInt b := by
  unfold diskArgs
  by_cases hvalid : isValidNumber a = false ∨ isValidNumber b = false
  · rw [if_pos hvalid]
    refine iff_of_false (by simp) fun ⟨⟨ha, hb, _⟩, _⟩ => ?_
    rw [← isValidNumber_iff] at ha hb
    rcases hvalid with h | h
    · rw [h] at ha; cases ha
    · rw [h] at hb; cases hb
  · rw [if_neg hvalid]
    rw [not_or, Bool.not_eq_false, Bool.not_eq_false, isValidNumber_iff, isValidNumber_iff] at hvalid
    obtain ⟨ha, hb⟩ := hvalid
    have hra := stringToInt_range ha (m := 2000) (by norm_num)
    have hrb := stringToInt_range hb (m := 255) (by norm_num)
    rw [or_comm, not_or] at hra
    rw [not_or] at hrb
    split_ifs with h1 h2
    · refine iff_of_false (by simp) fun ⟨⟨_, _, hva, _⟩, _⟩ => ?_
      have := hra.mpr hva
      omega
    · refine iff_of_false (by simp) fun ⟨⟨_, _, _, hvb⟩, _⟩ => ?_
      have := hrb.mpr hvb
      omega
    · have hva := hra.mp (not_or.mp h1)
      have hvb := hrb.mp (not_or.mp h2)
      simp only [Except.ok.injEq, Prod.mk.injEq]
      exact ⟨fun ⟨h3, h4⟩ => ⟨⟨ha, hb, hva, hvb⟩, h3.symm, h4.symm⟩,
        fun ⟨_, h3, h4⟩ => ⟨h3.symm, h4.symm⟩⟩

theorem diskArgs_range {a b : List Byte} {lba count : Word} (h : diskArgs a b = .ok (lba, count)) :
    lba.toNat = decimalValue a % 2 ^ 32 ∧ count.toNat = decimalValue b % 2 ^ 32 ∧
      lba.toNat ≤ 2000 ∧ count.toNat ≤ 255 := by
  obtain ⟨⟨ha, hb, hva, hvb⟩, rfl, rfl⟩ := diskArgs_ok_iff.mp h
  rw [stringToInt_toNat ha, stringToInt_toNat hb]
  exact ⟨rfl, rfl, hva, hvb⟩

theorem toNat_sectorCount {count : Word} (h : count.toNat ≤ 255) :
    (count.setWidth 8).toNat = count.toNat := by
  rw [BitVec.toNat_setWidth]
  omega

section Commands

variable {L : Layout} {w : Words} {t : ShellState} {a b : List Byte} {p : ℕ} {lba count : Word}

/-- Nothing has happened yet, and the arguments of the command are `a` and `b`. -/
structure Arguments (L : Layout) (w : Words) (a b : List Byte) (t : ShellState) : Prop where
  quiet : t.events = []
  first : L.word w 1 t = .ok a t
  second : L.word w 2 t = .ok b t

theorem Arguments.diskW_accepted (h : Arguments L w a b t) (hw : w.count = 4)
    (hp : L.wordPtr w 3 t = .ok p t) (hacc : diskArgs a b = .ok (lba, count)) :
    L.diskW w t = (do
      ataWriteSector lba (count.setWidth 8) p
      emit (.print "\nSuccessfully wrote to disk at \nLBA: %d, \nsector size: %d, \nthe data: %s \n")
      pure true : Shell Bool) t := by
  unfold Layout.diskW
  rw [if_neg (not_not.mpr hw), run_bind_ok h.first, run_bind_ok h.second, hacc]
  exact run_bind_ok hp

theorem Arguments.diskW_refused (h : Arguments L w a b t) (hw : w.count = 4) {m : String}
    (hacc : diskArgs a b = .error m) :
    L.diskW w t = .ok false { t with events := t.events ++ [.print m] } := by
  unfold Layout.diskW
  rw [if_neg (not_not.mpr hw), run_bind_ok h.first, run_bind_ok h.second, hacc]
  rfl

theorem Arguments.diskR_accepted (h : Arguments L w a b t) (hw : w.count = 3)
    (hacc : diskArgs a b = .ok (lba, count)) (disk : ℕ → BitVec 16) :
    L.diskR disk w t = (do
      let buffer ← Shell.kmalloc L (u32 (count.toNat * 512))
      L.ataReadSector disk 49 10 buffer
      L.showBuffer buffer
      pure true : Shell Bool) t := by
  unfold Layout.diskR
  rw [if_neg (not_not.mpr hw), run_bind_ok h.first, run_bind_ok h.second, hacc]

/-! ### Exactness of the tests -/

/-- Non-empty strings of digits for an LBA up to 2000 and a count up to 255. -/
def InRange (a b : List Byte) : Prop :=
  a ≠ [] ∧ b ≠ [] ∧ (∀ c ∈ a, IsDigit c) ∧ (∀ c ∈ b, IsDigit c) ∧ decimalValue a ≤ 2000 ∧
    decimalValue b ≤ 255

/-- `diskW` writes when its arguments are in range, and then what they say. -/
def ArgumentsExact (a b : List Byte) (events : List Event) : Prop :=
  ((∃ l c p, Event.ataWriteSector l c p ∈ events) ↔ InRange a b) ∧
    ∀ l c p, Event.ataWriteSector l c p ∈ events →
      l.toNat = decimalValue a ∧ c.toNat = decimalValue b

/-- An accepted `diskW` calls the driver once, with the numbers of the tests. -/
theorem Arguments.diskW_calls (h : Arguments L w a b t) (hw : w.count = 4)
    (hp : L.wordPtr w 3 t = .ok p t) (hacc : diskArgs a b = .ok (lba, count)) :
    Event.ataWriteSector lba (count.setWidth 8) p ∈ (final (L.diskW w t)).events ∧
      ∀ l c q, Event.ataWriteSector l c q ∈ (final (L.diskW w t)).events →
        l = lba ∧ c = count.setWidth 8 := by
  rw [h.diskW_accepted hw hp hacc]
  constructor
  · exact Keeps.final_bind (happened_ataWriteSector t) fun _ =>
      Happened.emit.bind fun _ => Keeps.pure _ _
  · intro l c q hmem
    have hall : AllEvents (fun e => ∀ l c q, e = .ataWriteSector l c q →
        l = lba ∧ c = count.setWidth 8) t := by
      unfold AllEvents
      rw [h.quiet]
      simp
    refine ((allEvents_ataWriteSector ?_ ?_ ?_).bind fun _ =>
      (AllEvents.emit ?_).bind fun _ => Keeps.pure _ _) t hall _ hmem l c q rfl
    · rintro l c q heq
      cases heq
      exact ⟨rfl, rfl⟩
    · intro port v l c q heq
      cases heq
    · intro s _ i _ l c q heq
      cases heq
    · intro l c q heq
      cases heq

theorem Arguments.diskW_exact_iff (h : Arguments L w a b t) (hw : w.count = 4)
    (hp : L.wordPtr w 3 t = .ok p t) :
    ArgumentsExact a b (final (L.diskW w t)).events ↔
      ((∀ c ∈ a, IsDigit c) ∧ (∀ c ∈ b, IsDigit c) ∧ decimalValue a % 2 ^ 32 ≤ 2000 ∧
          decimalValue b % 2 ^ 32 ≤ 255 →
        a ≠ [] ∧ b ≠ [] ∧ decimalValue a < 2 ^ 32 ∧ decimalValue b < 2 ^ 32) := by
  cases hacc : diskArgs a b with
  | error m =>
      have hno : ¬ ((∀ c ∈ a, IsDigit c) ∧ (∀ c ∈ b, IsDigit c) ∧
          decimalValue a % 2 ^ 32 ≤ 2000 ∧ decimalValue b % 2 ^ 32 ≤ 255) := fun hok => by
        rw [diskArgs_ok_iff.mpr ⟨hok, rfl, rfl⟩] at hacc
        cases hacc
      refine iff_of_true ?_ (fun hok => absurd hok hno)
      rw [h.diskW_refused hw hacc, final_ok, h.quiet]
      refine ⟨iff_of_false (by simp) fun hrange => ?_, by simp⟩
      obtain ⟨_, _, ha, hb, hva, hvb⟩ := hrange
      exact hno ⟨ha, hb, by omega, by omega⟩
  | ok x =>
      obtain ⟨lba, count⟩ := x
      obtain ⟨hcall, honly⟩ := h.diskW_calls hw hp hacc
      obtain ⟨hlba, hcount, hle, hle'⟩ := diskArgs_range hacc
      obtain ⟨⟨ha, hb, hva, hvb⟩, -, -⟩ := diskArgs_ok_iff.mp hacc
      constructor
      · rintro ⟨hexact, hvalue⟩ -
        obtain ⟨hane, hbne, -⟩ := hexact.mp ⟨_, _, _, hcall⟩
        obtain ⟨h1, h2⟩ := hvalue _ _ _ hcall
        rw [toNat_sectorCount hle'] at h2
        exact ⟨hane, hbne, by omega, by omega⟩
      · intro hcond
        obtain ⟨hane, hbne, hlta, hltb⟩ := hcond ⟨ha, hb, hva, hvb⟩
        rw [Nat.mod_eq_of_lt hlta] at hva hlba
        rw [Nat.mod_eq_of_lt hltb] at hvb hcount
        refine ⟨iff_of_true ⟨_, _, _, hcall⟩ ⟨hane, hbne, ha, hb, hva, hvb⟩, fun l c q hmem => ?_⟩
        obtain ⟨rfl, rfl⟩ := honly l c q hmem
        exact ⟨hlba, by rw [toNat_sectorCount hle', hcount]⟩

/-! ### Transfers inside the buffers -/

/-- The driver writes `count` sectors at `lba`, all fetched from the command buffer. -/
structure WriteInside (input : ℕ) (lba count : Word) (events : List Event) : Prop where
  called : ∃ p, Event.ataWriteSector lba (count.setWidth 8) p ∈ events
  only : ∀ l c p, Event.ataWriteSector l c p ∈ events → l = lba ∧ c.toNat = count.toNat
  fetched : ∀ x, Event.outw x ∈ events → input ≤ x ∧ x + 2 ≤ input + 256

/-- The driver reads `count` sectors at `lba` into the block of `count * 512` bytes at
`buffer`, and the bytes shown are bytes of that block. -/
structure ReadInside (buffer : ℕ) (lba count : Word) (events : List Event) : Prop where
  called : ∃ p, Event.ataReadSector lba (count.setWidth 8) p ∈ events
  only : ∀ l c p, Event.ataReadSector l c p ∈ events → l = lba ∧ c.toNat = count.toNat
  stored : ∀ x, Event.inw x ∈ events → buffer ≤ x ∧ x + 2 ≤ buffer + count.toNat * 512
  shown : ∀ x, Event.readByte x ∈ events → buffer ≤ x ∧ x + 1 ≤ buffer + count.toNat * 512

/-- One sector is longer than the command buffer. -/
theorem Arguments.diskW_inside_iff (h : Arguments L w a b t) (hw : w.count = 4)
    (hp : L.wordPtr w 3 t = .ok p t) (hacc : diskArgs a b = .ok (lba, count)) :
    WriteInside w.input lba count (final (L.diskW w t)).events ↔ count.toNat = 0 := by
  obtain ⟨hcall, honly⟩ := h.diskW_calls hw hp hacc
  obtain ⟨-, -, -, hle⟩ := diskArgs_range hacc
  have hcount := toNat_sectorCount hle
  constructor
  · intro hinside
    by_contra hne
    have hfetch : ∀ i < 256, Event.outw (u32 (p + 2 * (0 * 256 + i))) ∈
        (final (L.diskW w t)).events := by
      intro i hi
      obtain ⟨t', hr, ht'⟩ := happened_outw
        (s := 0) (by rw [hcount]; omega) hi t
      rw [h.diskW_accepted hw hp hacc]
      refine Keeps.final_bind (P := Happened _) ?_ fun _ => Happened.emit.bind fun _ => Keeps.pure _ _
      rw [hr]
      exact ht'
    have hlo := hinside.fetched _ (hfetch 0 (by norm_num))
    have hhi := hinside.fetched _ (hfetch 255 (by norm_num))
    unfold u32 at hlo hhi
    omega
  · intro h0
    refine ⟨⟨p, hcall⟩, fun l c q hmem => ?_, fun x hmem => ?_⟩
    · obtain ⟨rfl, rfl⟩ := honly l c q hmem
      exact ⟨rfl, hcount⟩
    · rw [h.diskW_accepted hw hp hacc] at hmem
      have hall : AllEvents (fun e => ∀ x, e ≠ .outw x) t := by
        unfold AllEvents
        rw [h.quiet]
        simp
      refine absurd rfl (((allEvents_ataWriteSector ?_ ?_ ?_).bind fun _ =>
        (AllEvents.emit ?_).bind fun _ => Keeps.pure _ _) t hall _ hmem x)
      · exact fun x hx => by cases hx
      · exact fun port v x hx => by cases hx
      · intro s hs
        rw [hcount, h0] at hs
        cases hs
      · exact fun x hx => by cases hx

/-- `diskR` always reads ten sectors at LBA 49, and shows 1024 bytes. -/
theorem Arguments.diskR_inside_iff (h : Arguments L w a b t) (hw : w.count = 3)
    (hacc : diskArgs a b = .ok (lba, count)) (disk : ℕ → BitVec 16) {buffer : ℕ} {s : State}
    (hk : L.kmalloc (u32 (count.toNat * 512)) t.machine = .ok buffer s)
    (hend : buffer + count.toNat * 512 ≤ 2 ^ 32) :
    ReadInside buffer lba count (final (L.diskR disk w t)).events ↔
      lba.toNat = 49 ∧ count.toNat = 10 := by
  have hcall : Shell.kmalloc L (u32 (count.toNat * 512)) t = .ok buffer
      { t with
        machine := s
        live := liveAfter t.live (.kmalloc (u32 (count.toNat * 512))) buffer
        calls := t.calls ++ [⟨t.live, t.machine, .kmalloc (u32 (count.toNat * 512)), buffer, s⟩] } :=
    Shell.kmalloc_ok hk
  obtain ⟨-, -, -, hle⟩ := diskArgs_range hacc
  rw [h.diskR_accepted hw hacc disk, run_bind_ok hcall]
  generalize ht₁ : ShellState.mk s t.events _ _ = t₁
  have hquiet : t₁.events = [] := by rw [← ht₁]; exact h.quiet
  have hmade : Happened (.ataReadSector 49 10 buffer) (final ((do
      L.ataReadSector disk 49 10 buffer
      L.showBuffer buffer
      pure true : Shell Bool) t₁)) :=
    Keeps.final_bind (L.happened_ataReadSector disk t₁) fun _ =>
      (Keeps.times (fun i => Happened.emit.bind fun _ => (Happened.lift _).bind fun c => by
        split_ifs
        · exact Happened.emit
        · exact Keeps.pure _ _) _).bind fun _ => Keeps.pure _ _
  have hall : ∀ P : Event → Prop, P (.ataReadSector 49 10 buffer) → (∀ port v, P (.outb port v)) →
      (∀ s < 10, ∀ i < 256, P (.inw (u32 (buffer + 2 * (s * 256 + i))))) →
      (∀ m, P (.print m)) → (∀ i < 1024, P (.readByte (u32 (buffer + i)))) →
      ∀ e ∈ (final ((do
        L.ataReadSector disk 49 10 buffer
        L.showBuffer buffer
        pure true : Shell Bool) t₁)).events, P e := by
    intro P h1 h2 h3 h4 h5
    refine ((L.allEvents_ataReadSector disk h1 h2 h3).bind fun _ =>
      (L.allEvents_showBuffer h4 h5).bind fun _ => Keeps.pure _ _) t₁ ?_
    unfold AllEvents
    rw [hquiet]
    simp
  constructor
  · intro hinside
    obtain ⟨hlba, hcount⟩ := hinside.only _ _ _ hmade
    exact ⟨by rw [← hlba]; rfl, by rw [← hcount]; rfl⟩
  · rintro ⟨hlba, hcount⟩
    have h49 : lba = 49 := BitVec.eq_of_toNat_eq (by rw [hlba]; rfl)
    have h10 : count.setWidth 8 = 10 := BitVec.eq_of_toNat_eq (by rw [toNat_sectorCount hle, hcount]; rfl)
    rw [hcount] at hend
    refine ⟨⟨buffer, by rw [h49, h10]; exact hmade⟩, fun l c q hmem => ?_, fun x hmem => ?_,
      fun x hmem => ?_⟩
    · refine hall (fun e => ∀ l c q, e = .ataReadSector l c q → l = lba ∧ c.toNat = count.toNat)
        ?_ ?_ ?_ ?_ ?_ _ hmem l c q rfl
      · rintro l c q heq
        cases heq
        exact ⟨h49.symm, by rw [hcount]; rfl⟩
      · intro port v l c q heq
        cases heq
      · intro s hs i hi l c q heq
        cases heq
      · intro m l c q heq
        cases heq
      · intro i hi l c q heq
        cases heq
    · refine hall (fun e => ∀ x, e = .inw x → buffer ≤ x ∧ x + 2 ≤ buffer + count.toNat * 512)
        ?_ ?_ ?_ ?_ ?_ _ hmem x rfl
      · intro x heq
        cases heq
      · intro port v x heq
        cases heq
      · intro s hs i hi x heq
        cases heq
        rw [u32_of_lt (by omega)]
        omega
      · intro m x heq
        cases heq
      · intro i hi x heq
        cases heq
    · refine hall (fun e => ∀ x, e = .readByte x → buffer ≤ x ∧ x + 1 ≤ buffer + count.toNat * 512)
        ?_ ?_ ?_ ?_ ?_ _ hmem x rfl
      · intro x heq
        cases heq
      · intro port v x heq
        cases heq
      · intro s hs i hi x heq
        cases heq
      · intro m x heq
        cases heq
      · intro i hi x heq
        cases heq
        rw [u32_of_lt (by omega)]
        omega

end Commands

/-! ### Lines -/

section Lines

variable {L : Layout} {input : ℕ} {line : List Byte} {w : Words} {t t₁ : ShellState}
  {a b : List Byte}

theorem Entered.arguments (h : Entered L input line w t t₁) (ha : (lineWords line)[1]? = some a)
    (hb : (lineWords line)[2]? = some b) : Arguments L w a b t₁ :=
  ⟨h.quiet₁, h.words.word ha, h.words.word hb⟩

theorem Entered.exists_wordPtr (h : Entered L input line w t t₁) {k : ℕ}
    (hk : k < (lineWords line).length) : ∃ p, L.wordPtr w k t₁ = .ok p t₁ := by
  have hlt : k < (0 :: wordStarts line false 0).length := by
    rw [lineWords, List.length_map] at hk
    exact hk
  exact ⟨_, h.words.wordPtr (List.getElem?_eq_getElem hlt)⟩

theorem Entered.diskW (h : Entered L input line w t t₁) {data : List Byte}
    (hline : lineWords line = [cstr "diskW", a, b, data]) (disk : ℕ → BitVec 16) :
    (final (L.processInput disk input line t)).events = (final (L.diskW w t₁)).events ∧
      w.count = 4 ∧ Arguments L w a b t₁ ∧ ∃ p, L.wordPtr w 3 t₁ = .ok p t₁ := by
  refine ⟨?_, by rw [h.words.count, hline]; rfl,
    h.arguments (by rw [hline]; rfl) (by rw [hline]; rfl), h.exists_wordPtr (by simp [hline])⟩
  rw [h.events, h.runCommand_diskW disk (by rw [hline]; rfl)]

theorem Entered.diskR (h : Entered L input line w t t₁)
    (hline : lineWords line = [cstr "diskR", a, b]) (disk : ℕ → BitVec 16) :
    (final (L.processInput disk input line t)).events = (final (L.diskR disk w t₁)).events ∧
      w.count = 3 ∧ Arguments L w a b t₁ := by
  refine ⟨?_, by rw [h.words.count, hline]; rfl,
    h.arguments (by rw [hline]; rfl) (by rw [hline]; rfl)⟩
  rw [h.events, h.runCommand_diskR disk (by rw [hline]; rfl)]

/-- The tests of `diskW` are exact unless they accept an empty string or a number from
`2 ^ 32` on. -/
theorem disk_arguments_iff (h : Entered L input line w t t₁) {data : List Byte}
    (hline : lineWords line = [cstr "diskW", a, b, data]) (disk : ℕ → BitVec 16) :
    ArgumentsExact a b (final (L.processInput disk input line t)).events ↔
      ((∀ c ∈ a, IsDigit c) ∧ (∀ c ∈ b, IsDigit c) ∧ decimalValue a % 2 ^ 32 ≤ 2000 ∧
          decimalValue b % 2 ^ 32 ≤ 255 →
        a ≠ [] ∧ b ≠ [] ∧ decimalValue a < 2 ^ 32 ∧ decimalValue b < 2 ^ 32) := by
  obtain ⟨hev, hw, harg, p, hp⟩ := h.diskW hline disk
  rw [hev]
  exact harg.diskW_exact_iff hw hp

/-- An accepted `diskW` stays inside the command buffer when it writes nothing, and an accepted
`diskR` does what was asked inside its block for ten sectors at LBA 49. -/
theorem disk_transfers_iff (h : Entered L input line w t t₁) {lba count : Word}
    (hacc : diskArgs a b = .ok (lba, count)) (disk : ℕ → BitVec 16) :
    (∀ data, lineWords line = [cstr "diskW", a, b, data] →
      (WriteInside input lba count (final (L.processInput disk input line t)).events ↔
        count.toNat = 0)) ∧
    ∀ buffer s, lineWords line = [cstr "diskR", a, b] →
      L.kmalloc (u32 (count.toNat * 512)) t₁.machine = .ok buffer s → buffer ≠ 0 →
      buffer + count.toNat * 512 ≤ 2 ^ 32 →
      (ReadInside buffer lba count (final (L.processInput disk input line t)).events ↔
        lba.toNat = 49 ∧ count.toNat = 10) := by
  refine ⟨fun data hline => ?_, fun buffer s hline hk _ hend => ?_⟩
  · obtain ⟨hev, hw, harg, p, hp⟩ := h.diskW hline disk
    rw [hev, ← h.input]
    exact harg.diskW_inside_iff hw hp hacc
  · obtain ⟨hev, hw, harg⟩ := h.diskR hline disk
    rw [hev]
    exact harg.diskR_inside_iff hw hacc disk hk hend

end Lines

/-! ### Lines typed after booting -/

/-- After booting, a line of up to 50 words is tokenized. -/
theorem exists_entered (input : ℕ) (line : List Byte) (hfit : (lineWords line).length ≤ 50)
    (hin : input + line.length < 2 ^ 32) :
    ∃ w t t₁, Layout.lowest.boot (State.powerOn fun _ _ => 0) = .ok () t.machine ∧
      Entered Layout.lowest input line w t t₁ ∧
      ∃ p s, Layout.lowest.kmalloc 512 t₁.machine = .ok p s ∧ p ≠ 0 ∧ p + 512 ≤ 2 ^ 32 := by
  obtain ⟨use, m, s, hboot, hb⟩ := Layout.lowest.boot_spec fun _ _ => 0
  have hne := hb.head_ne_zero .heap256
  obtain ⟨a, s₁, _, hr₁, _, _⟩ := hb.heap.alloc_ok hne
  obtain ⟨use₁, h₁, hpop⟩ := (hb.heap.domainAlloc .heap256 (n := 200) (m := 0x40000) (by decide)
    (by norm_num) (fun hnil => absurd hnil hne)).ok hr₁
  have hk : Layout.lowest.kmalloc 200 s = .ok a s₁ := by
    rw [Layout.lowest.kmalloc_small (show classOf 200 = some .heap256 from rfl)]
    exact hr₁
  obtain ⟨t', hr, h', hev, -, -, hout, hwords⟩ := Layout.lowest.tokinizeWords_spec
    (t := ⟨s, [], noLive, []⟩) hk h₁ (Function.update_self ..) hpop.block.aligned
    (by norm_num) (by omega) hin
  refine ⟨⟨a, input, blanked line false, (lineWords line).length⟩, _, t', hboot,
    ⟨rfl, hr, rfl, hwords⟩, ?_⟩
  have hne' : (t'.machine.domains .heap512).nextFreeBlock ≠ 0 := by
    rw [hout.vars.domains, hpop.others.domains .heap512 (by decide)]
    exact hb.head_ne_zero .heap512
  obtain ⟨p, s₂, _, hr₂, hp, _⟩ := h'.alloc_ok hne'
  obtain ⟨use₂, h₂, hpop₂⟩ := (h'.domainAlloc .heap512 (n := 512) (m := 0x40000) (by decide)
    (by norm_num) (fun hnil => absurd hnil hne')).ok hr₂
  obtain ⟨-, hhi⟩ := hpop₂.region (h₂.dom .heap512)
  refine ⟨p, s₂, ?_, hp, ?_⟩
  · rw [Layout.lowest.kmalloc_small (show classOf 512 = some .heap512 from rfl)]
    exact hr₂
  · have := SizeClass.heap512.virtBase_bounds
    omega

/-- `diskW "" 1 x` (two blanks in a row) and `diskW 4294967296 1 x` both write sector 0. -/
theorem disk_arguments_accepted :
    (∃ w t t₁, Entered Layout.lowest 0xC0108000 (cstr "diskW  1 x") w t t₁ ∧
      lineWords (cstr "diskW  1 x") = [cstr "diskW", [], cstr "1", cstr "x"] ∧
      ¬ ArgumentsExact [] (cstr "1") (final (Layout.lowest.processInput (fun _ => 0) 0xC0108000
        (cstr "diskW  1 x") t)).events) ∧
    ∃ w t t₁, Entered Layout.lowest 0xC0108000 (cstr "diskW 4294967296 1 x") w t t₁ ∧
      lineWords (cstr "diskW 4294967296 1 x") =
        [cstr "diskW", cstr "4294967296", cstr "1", cstr "x"] ∧
      ¬ ArgumentsExact (cstr "4294967296") (cstr "1") (final (Layout.lowest.processInput
        (fun _ => 0) 0xC0108000 (cstr "diskW 4294967296 1 x") t)).events := by
  have hempty : lineWords (cstr "diskW  1 x") = [cstr "diskW", [], cstr "1", cstr "x"] := by decide
  have hlarge : lineWords (cstr "diskW 4294967296 1 x") =
      [cstr "diskW", cstr "4294967296", cstr "1", cstr "x"] := by decide +kernel
  obtain ⟨w, t, t₁, -, h, -⟩ := exists_entered 0xC0108000 (cstr "diskW  1 x") (by decide) (by decide)
  obtain ⟨w', t', t₁', -, h', -⟩ := exists_entered 0xC0108000 (cstr "diskW 4294967296 1 x")
    (by rw [hlarge]; decide) (by decide)
  refine ⟨⟨w, t, t₁, h, hempty, fun hexact => ?_⟩, w', t', t₁', h', hlarge, fun hexact => ?_⟩
  · obtain ⟨hev, hw, harg, p, hp⟩ := h.diskW hempty fun _ => 0
    rw [hev, harg.diskW_exact_iff hw hp] at hexact
    exact (hexact (by decide)).1 rfl
  · obtain ⟨hev, hw, harg, p, hp⟩ := h'.diskW hlarge fun _ => 0
    rw [hev, harg.diskW_exact_iff hw hp] at hexact
    obtain ⟨-, -, hlt, -⟩ := hexact (by decide +kernel)
    revert hlt
    decide +kernel

/-- `diskW 5 1 x`. -/
theorem disk_arguments_iff_after_boot :
    ∃ w t t₁, Entered Layout.lowest 0xC0108000 (cstr "diskW 5 1 x") w t t₁ ∧
      ArgumentsExact (cstr "5") (cstr "1") (final (Layout.lowest.processInput (fun _ => 0) 0xC0108000
        (cstr "diskW 5 1 x") t)).events := by
  obtain ⟨w, t, t₁, -, h, -⟩ := exists_entered 0xC0108000 (cstr "diskW 5 1 x") (by decide) (by decide)
  have hwords : lineWords (cstr "diskW 5 1 x") = [cstr "diskW", cstr "5", cstr "1", cstr "x"] := by
    decide
  exact ⟨w, t, t₁, h, (disk_arguments_iff h hwords fun _ => 0).mpr (by decide)⟩

/-- `diskW 5 1 x` sends memory behind the command buffer to the disk, and `diskR 5 1` reads ten
sectors at LBA 49 into a block of one. -/
theorem disk_transfers_outside :
    (∃ w t t₁, Entered Layout.lowest 0xC0108000 (cstr "diskW 5 1 x") w t t₁ ∧
      diskArgs (cstr "5") (cstr "1") = .ok (5, 1) ∧
      ¬ WriteInside 0xC0108000 5 1 (final (Layout.lowest.processInput (fun _ => 0) 0xC0108000
        (cstr "diskW 5 1 x") t)).events) ∧
    ∃ w t t₁ buffer s, Entered Layout.lowest 0xC0108000 (cstr "diskR 5 1") w t t₁ ∧
      Layout.lowest.kmalloc 512 t₁.machine = .ok buffer s ∧ buffer ≠ 0 ∧
      ¬ ReadInside buffer 5 1 (final (Layout.lowest.processInput (fun _ => 0) 0xC0108000
        (cstr "diskR 5 1") t)).events := by
  have hacc : diskArgs (cstr "5") (cstr "1") = .ok (5, 1) := by rfl
  obtain ⟨w, t, t₁, -, h, -⟩ := exists_entered 0xC0108000 (cstr "diskW 5 1 x") (by decide) (by decide)
  obtain ⟨w', t', t₁', -, h', buffer, s, hk, hne, hend⟩ :=
    exists_entered 0xC0108000 (cstr "diskR 5 1") (by decide) (by decide)
  refine ⟨⟨w, t, t₁, h, hacc, fun hinside => ?_⟩, w', t', t₁', buffer, s, h', hk, hne,
    fun hinside => ?_⟩
  · have hwords : lineWords (cstr "diskW 5 1 x") = [cstr "diskW", cstr "5", cstr "1", cstr "x"] := by
      decide
    obtain ⟨hev, hw, harg, p, hp⟩ := h.diskW hwords fun _ => 0
    rw [hev, ← h.input, harg.diskW_inside_iff hw hp hacc] at hinside
    cases hinside
  · obtain ⟨hev, hw, harg⟩ := h'.diskR (a := cstr "5") (b := cstr "1") (by decide) fun _ => 0
    rw [hev, harg.diskR_inside_iff hw hacc (fun _ => 0) hk hend] at hinside
    cases hinside.1

/-- `diskW 5 0 x`, and `diskR 49 1`. -/
theorem disk_transfers_iff_after_boot :
    (∃ w t t₁, Entered Layout.lowest 0xC0108000 (cstr "diskW 5 0 x") w t t₁ ∧
      WriteInside 0xC0108000 5 0 (final (Layout.lowest.processInput (fun _ => 0) 0xC0108000
        (cstr "diskW 5 0 x") t)).events) ∧
    ∃ w t t₁ buffer s, Entered Layout.lowest 0xC0108000 (cstr "diskR 49 1") w t t₁ ∧
      Layout.lowest.kmalloc 512 t₁.machine = .ok buffer s ∧
      ¬ ReadInside buffer 49 1 (final (Layout.lowest.processInput (fun _ => 0) 0xC0108000
        (cstr "diskR 49 1") t)).events := by
  obtain ⟨w, t, t₁, -, h, -⟩ := exists_entered 0xC0108000 (cstr "diskW 5 0 x") (by decide) (by decide)
  obtain ⟨w', t', t₁', -, h', buffer, s, hk, hne, hend⟩ :=
    exists_entered 0xC0108000 (cstr "diskR 49 1") (by decide) (by decide)
  refine ⟨⟨w, t, t₁, h, ((disk_transfers_iff (a := cstr "5") (b := cstr "0") h rfl fun _ => 0).1
    (cstr "x") (by decide)).mpr rfl⟩, w', t', t₁', buffer, s, h', hk, fun hinside => ?_⟩
  have := ((disk_transfers_iff (a := cstr "49") (b := cstr "1") h' rfl fun _ => 0).2 buffer s
    (by decide) hk hne hend).mp hinside
  cases this.2

end RaxzusHeap
