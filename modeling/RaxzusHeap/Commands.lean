import RaxzusHeap.Verdict
import RaxzusHeap.Disk

/-! # What a command line does

One walk over `process_input`, for a line typed in any state that a run of the heap has reached, as
long as all heap calls stay within the limits of memory: what the line leaves behind (`Leaves`)
and what the memory tests say (`Told`).  The tokenizer writes behind its block from the 65th word
on; lines are taken to be shorter.  A `diskR` whose buffer is smaller than the ten sectors it
reads may run over other blocks, so of such a line only the buffer itself is known
(`Left.narrow`). -/

namespace RaxzusHeap

open Imperative Shell

/-! ### Code without heap calls -/

/-- `x` makes no heap call. -/
def NoCalls {α : Type} (x : Shell α) : Prop :=
  ∀ live calls, Keeps (fun t => t.live = live ∧ t.calls = calls) x

namespace NoCalls

variable {α β : Type}

theorem lift (x : Kernel α) : NoCalls (Shell.lift x) := by
  intro live calls t h
  unfold Shell.lift
  cases x t.machine <;> exact h

theorem pure (a : α) : NoCalls (Pure.pure a : Shell α) := fun _ _ => Keeps.pure _ _

theorem bind {x : Shell α} {f : α → Shell β} (hx : NoCalls x) (hf : ∀ a, NoCalls (f a)) :
    NoCalls (x >>= f) := fun live calls => (hx live calls).bind fun a => hf a live calls

theorem ok {x : Shell α} (h : NoCalls x) {t t' : ShellState} {a : α} (hr : x t = .ok a t') :
    t'.live = t.live ∧ t'.calls = t.calls := (h t.live t.calls).ok hr ⟨rfl, rfl⟩

theorem yields {L : Layout} {x : Shell α} {P : ShellState → Prop} {Q : α → ShellState → Prop}
    (hx : NoCalls x) (h : ∀ t a t', x t = .ok a t' → t'.live = t.live → P t → Q a t') :
    Yields (CallsWithin L) P x Q := by
  refine .of_ok fun t a t' hr hW => ?_
  obtain ⟨hlive, hcalls⟩ := hx.ok hr
  refine ⟨?_, h t a t' hr hlive⟩
  unfold CallsWithin at hW
  rwa [hcalls] at hW

end NoCalls

namespace Layout

variable (L : Layout)

theorem noCalls_wordPtr (w : Words) (k : ℕ) : NoCalls (L.wordPtr w k) := NoCalls.lift _

theorem noCalls_word (w : Words) (k : ℕ) : NoCalls (L.word w k) :=
  (L.noCalls_wordPtr w k).bind fun _ => NoCalls.pure _

theorem noCalls_tokinizeLoop (argv input : ℕ) :
    ∀ (line : List Byte) (isString : Bool) (pos index : ℕ),
      NoCalls (L.tokinizeLoop argv input line isString pos index) := by
  intro line
  induction line with
  | nil => exact fun _ _ _ => NoCalls.pure _
  | cons c rest ih =>
      intro isString pos index
      unfold tokinizeLoop
      dsimp only
      generalize (if c = 34 then !isString else isString) = q
      split_ifs
      · exact (NoCalls.lift _).bind fun _ => (ih _ _ _).bind fun _ => NoCalls.pure _
      · exact (ih _ _ _).bind fun _ => NoCalls.pure _

end Layout

/-! ### The driver -/

section Driver

variable {L : Layout} {P : ShellState → Prop} {lba : Word} {count command : Byte} {buffer : ℕ}

theorem ataSetup_yields (hemit : ∀ e, Yields (CallsWithin L) P (emit e) fun _ => P) :
    Yields (CallsWithin L) P (ataSetup lba count command) fun _ => P :=
  (hemit _).bind fun _ => (hemit _).bind fun _ => (hemit _).bind fun _ => (hemit _).bind fun _ =>
    (hemit _).bind fun _ => hemit _

theorem ataWriteSector_yields (hemit : ∀ e, Yields (CallsWithin L) P (emit e) fun _ => P) :
    Yields (CallsWithin L) P (ataWriteSector lba count buffer) fun _ => P :=
  (hemit _).bind fun _ => (ataSetup_yields hemit).bind fun _ =>
    (Yields.times (fun _ => P) fun _ _ => Yields.times (fun _ => P) fun _ _ => hemit _).bind
      fun _ => hemit _

theorem ataReadSector_yields (disk : ℕ → BitVec 16)
    (hemit : ∀ e, Yields (CallsWithin L) P (emit e) fun _ => P)
    (hlift : ∀ x : Kernel Unit, Yields (CallsWithin L) P (lift x) fun _ => P) :
    Yields (CallsWithin L) P (L.ataReadSector disk lba count buffer) fun _ => P :=
  (hemit _).bind fun _ => (ataSetup_yields hemit).bind fun _ =>
    Yields.times (fun _ => P) fun _ _ => Yields.times (fun _ => P) fun _ _ =>
      (hemit _).bind fun _ => hlift _

theorem showBuffer_yields (hemit : ∀ e, Yields (CallsWithin L) P (emit e) fun _ => P)
    (hlift : ∀ x : Kernel ℕ, Yields (CallsWithin L) P (lift x) fun _ => P) :
    Yields (CallsWithin L) P (L.showBuffer buffer) fun _ => P :=
  Yields.times (fun _ => P) fun _ _ => (hemit _).bind fun _ => (hlift _).bind fun c => by
    split_ifs
    · exact hemit _
    · exact .pure fun _ ht => ht

end Driver

/-! ### What a line leaves behind -/

/-- The numbers of a disk command of `n` words, when its arguments are accepted. -/
def acceptedArgs (n : ℕ) (line : List Byte) : Option (Word × Word) :=
  if (lineWords line).length = n then
    match (lineWords line)[1]?, (lineWords line)[2]? with
    | some a, some b => (diskArgs a b).toOption
    | _, _ => none
  else none

/-- The size of the block that a line leaves behind: `argv` of a refused disk command, or the
buffer of an accepted `diskR`. -/
def leakOf (line : List Byte) : Option ℕ :=
  if (lineWords line)[0]? = some (cstr "diskW") then
    if (acceptedArgs 4 line).isSome then none else some 200
  else if (lineWords line)[0]? = some (cstr "diskR") then
    match acceptedArgs 3 line with
    | some (_, param2) => some (u32 (param2.toNat * 512))
    | none => some 200
  else none

/-- The line is `memtest 2`. -/
def RunsMemtest2 (line : List Byte) : Prop :=
  (lineWords line)[0]? = some (cstr "memtest") ∧ (lineWords line)[1]? = some (cstr "2")

/-- A `diskR` of the line has a buffer for the ten sectors it reads. -/
def WideEnough (line : List Byte) : Prop :=
  (lineWords line)[0]? = some (cstr "diskR") → ∀ x, acceptedArgs 3 line = some x → 10 ≤ x.2.toNat

section Names

variable {line name : List Byte}

theorem leakOf_of_ne (h : (lineWords line)[0]? = some name) (hW : name ≠ cstr "diskW")
    (hR : name ≠ cstr "diskR") : leakOf line = none := by
  simp [leakOf, h, hW, hR]

theorem leakOf_diskW (h : (lineWords line)[0]? = some (cstr "diskW")) :
    leakOf line = if (acceptedArgs 4 line).isSome then none else some 200 := if_pos h

theorem leakOf_diskR (h : (lineWords line)[0]? = some (cstr "diskR")) :
    leakOf line = match acceptedArgs 3 line with
      | some (_, param2) => some (u32 (param2.toNat * 512))
      | none => some 200 := by
  have hne : ¬ (lineWords line)[0]? = some (cstr "diskW") := by
    rw [h]
    decide
  unfold leakOf
  rw [if_neg hne, if_pos h]

theorem not_memtest2 (h : (lineWords line)[0]? = some name) (hM : name ≠ cstr "memtest") :
    ¬ RunsMemtest2 line := by simp [RunsMemtest2, h, hM]

theorem acceptedArgs_eq {a b : List Byte} {n : ℕ} (hn : (lineWords line).length = n)
    (h1 : (lineWords line)[1]? = some a) (h2 : (lineWords line)[2]? = some b) :
    acceptedArgs n line = (diskArgs a b).toOption := by simp [acceptedArgs, hn, h1, h2]

theorem acceptedArgs_none {n : ℕ} (hn : (lineWords line).length ≠ n) :
    acceptedArgs n line = none := if_neg hn

theorem isVerdict_diskArgs {a b : List Byte} {m : String} (h : diskArgs a b = .error m) :
    isVerdict (.print m) = false := by
  unfold diskArgs at h
  split_ifs at h <;> cases h <;> decide

end Names

/-! ### The states around a command -/

section Command

variable {L : Layout} {live₀ : ℕ → Option ℕ} {shown : List Event} {asked : List (HeapOp × ℕ)}
  {input : ℕ} {line name : List Byte} {w : Words}

/-- After the tokenizer: `argv` is the only new block, and nothing has been shown. -/
structure AtCommand (L : Layout) (live₀ : ℕ → Option ℕ) (shown : List Event)
    (asked : List (HeapOp × ℕ)) (line : List Byte) (w : Words) (t : ShellState) : Prop where
  words : Tokenized L line w t.machine
  argv : Rooted L live₀ [] [] noSlots w.argv 200 t
  noted : Noted shown (asked ++ [(.kmalloc 200, w.argv)]) t

/-- The state in which a command has been recognised. -/
def Named (L : Layout) (live₀ : ℕ → Option ℕ) (shown : List Event) (asked : List (HeapOp × ℕ))
    (line : List Byte) (w : Words) (name : List Byte) (t : ShellState) : Prop :=
  (lineWords line)[0]? = some name ∧ AtCommand L live₀ shown asked line w t

/-- What a command has left behind when it returns; `fellThrough` says that `argv` will still be
released. -/
inductive Left (L : Layout) (live₀ : ℕ → Option ℕ) (line : List Byte) (argv : ℕ) :
    Bool → ShellState → Prop
  | nothing {t} (hline : leakOf line = none) (h : Rooted L live₀ [] [] noSlots argv 200 t) :
      Left L live₀ line argv true t
  | argv {t} (hline : leakOf line = some 200) (h : Rooted L live₀ [] [] noSlots argv 200 t) :
      Left L live₀ line argv false t
  | buffer {t b n} (hline : leakOf line = some n) (h : Rooted L live₀ [argv] [] noSlots b n t) :
      Left L live₀ line argv true t
  | narrow {t b} (hwide : ¬ WideEnough line) (hline : leakOf line ≠ none) (hb : b ≠ argv)
      (h₀ : live₀ b = none) (hlive : t.live b ≠ none) : Left L live₀ line argv true t

/-- What a line has said so far: nothing, or the verdicts of `memtest 2` on the buffers that it
asked for after `argv`. -/
inductive Told (shown : List Event) (asked : List (HeapOp × ℕ)) (line : List Byte)
    (t : ShellState) : Prop
  | silent (hline : ¬ RunsMemtest2 line) (h : verdicts t.events = shown)
  | judged {argv} (hline : RunsMemtest2 line) (h : Judged shown (asked ++ [(.kmalloc 200, argv)]) t)

/-- What holds after a command. -/
def Answered (L : Layout) (live₀ : ℕ → Option ℕ) (shown : List Event) (asked : List (HeapOp × ℕ))
    (line : List Byte) (argv : ℕ) (fellThrough : Bool) (t : ShellState) : Prop :=
  Left L live₀ line argv fellThrough t ∧ Told shown asked line t

theorem Told.call {t : ShellState} (h : Told shown asked line t) (c : HeapCall) (s : State)
    (live : ℕ → Option ℕ) : Told shown asked line ⟨s, t.events, live, t.calls ++ [c]⟩ := by
  cases h with
  | silent hline h => exact .silent hline h
  | @judged argv hline h =>
      obtain ⟨buf64k, buf1m, rest, hcalls, hapart, hshown⟩ := h
      have hsnoc : answers (t.calls ++ [c]) = answers t.calls ++ [(c.op, c.result)] := by
        simp [answers]
      have hjudged : Judged shown (asked ++ [(.kmalloc 200, argv)])
          ⟨s, t.events, live, t.calls ++ [c]⟩ := by
        refine ⟨buf64k, buf1m, rest ++ [(c.op, c.result)], ?_, hapart, hshown⟩
        rw [hsnoc, hcalls]
        simp
      exact .judged hline hjudged

/-! ### The tokenizer -/

/-- The tokenizer allocates `argv` and shows nothing. -/
theorem tokinizeWords_yields (hwords : (lineWords line).length ≤ 64)
    (hin : input + line.length < 2 ^ 32) :
    Yields (CallsWithin L)
      (fun t => (t.live = live₀ ∧ BoundedHeap L live₀ t.machine) ∧ Noted shown asked t)
      (L.tokinizeWords input line)
      fun r => AtCommand L live₀ shown asked line ⟨r.1, input, r.2.1, r.2.2⟩ := by
  refine .of_ok fun t r t' hr hW => ?_
  obtain ⟨a, t₁, hcall, hrest⟩ := run_bind_eq_ok.mp hr
  have hquiet : NoCalls (do
      lift (L.store a input)
      let r ← L.tokinizeLoop a input line false 0 1
      pure (a, r.1, r.2)) :=
    (NoCalls.lift _).bind fun _ => (L.noCalls_tokinizeLoop _ _ _ _ _ _).bind fun _ =>
      NoCalls.pure _
  have hW₁ : CallsWithin L t₁ := by
    unfold CallsWithin
    rw [← (hquiet.ok hrest).2]
    exact hW
  obtain ⟨s, hk, rfl⟩ := call_eq_ok hcall
  refine ⟨fun c hc => hW₁ c (List.mem_append_left _ hc), ?_⟩
  rintro ⟨⟨rfl, hb⟩, hshown, hasked⟩
  have hG := hW₁ _ (List.mem_append_right _ List.mem_cons_self)
  -- the block has room for 64 words, whatever was asked for
  obtain ⟨use, ranges, hh⟩ := hb.heap
  have hpop : L.heapDomainAlloc .heap256 t.machine = .ok a s := by
    rw [← L.kmalloc_small (show classOf 200 = some .heap256 from rfl)]
    exact hk
  obtain ⟨use₁, h₁, hpopped⟩ := (hh.domainAlloc .heap256 (n := 256) (m := 0x50000) (by decide)
    le_rfl fun hnil => ⟨hG.region .heap256 200 rfl hnil, hb.low.room⟩).ok hpop
  obtain ⟨hlo, hhi⟩ := hpopped.region (h₁.dom .heap256)
  obtain ⟨t'', hr', h', hevents, hlive', hcalls, hout, htok⟩ := L.tokinizeWords_spec
    (t := t) hk h₁ (Function.update_self ..) hpopped.block.aligned (by norm_num)
    (by omega) hin
  rw [hr] at hr'
  cases hr'
  obtain ⟨ha, -, hheld⟩ := (Held.start hb).kmalloc hk hG
  have hafter : liveAfter t.live (.kmalloc 200) a = Function.update t.live a (some 200) := if_neg ha
  rw [hafter] at hlive'
  have hsmall := h'.resize (d := .heap256) (k := 200) (Function.update_self ..) hlo hhi (by decide)
  rw [Function.update_idem] at hsmall
  refine ⟨htok, ⟨?_, ?_, fun c hc => by cases hc⟩, ?_, ?_⟩
  · unfold Holding
    rw [hlive']
    refine hheld.congr ⟨⟨_, _, hsmall⟩, fun f h1 h2 => ?_, hheld.heap.fit⟩
      (fun x hx => absurd rfl hx) fun x q hx => by cases hx
    rw [hout.alloc]
    exact hG.frames f h1 h2
  · rw [hlive']
    exact Function.update_self ..
  · rw [hevents]
    exact hshown
  · rw [hcalls, ← hasked]
    simp [answers]

/-! ### Reading and answering -/

theorem word_yields {P : ShellState → Prop} {k : ℕ} (hP : ∀ t, P t → Tokenized L line w t.machine)
    (hk : w.count = (lineWords line).length → k < w.count) :
    Yields (CallsWithin L) P (L.word w k) fun str t => (lineWords line)[k]? = some str ∧ P t := by
  refine (L.noCalls_word w k).yields fun t a t' hr _ ht => ?_
  have hwords := hP t ht
  have hlt : k < (lineWords line).length := by
    rw [← hwords.count]
    exact hk hwords.count
  have hsome := List.getElem?_eq_getElem hlt
  rw [hwords.word hsome] at hr
  cases hr
  exact ⟨hsome, ht⟩

theorem emit_yields {e : Event} (he : isVerdict e = false) :
    Yields (CallsWithin L) (AtCommand L live₀ shown asked line w) (emit e)
      fun _ => AtCommand L live₀ shown asked line w :=
  yields_emit fun t ht => ⟨ht.words, ⟨ht.argv.held, ht.argv.live, ht.argv.base⟩,
    (verdicts_append_neg he t.events).trans ht.noted.1, ht.noted.2⟩

theorem say_yields {e : Event} (he : isVerdict e = false) (hW : name ≠ cstr "diskW")
    (hR : name ≠ cstr "diskR") (hM : name ≠ cstr "memtest") :
    Yields (CallsWithin L) (Named L live₀ shown asked line w name) (do emit e; pure true)
      (Answered L live₀ shown asked line w.argv) :=
  ((emit_yields he).const ((lineWords line)[0]? = some name)).bind fun _ =>
    .pure fun _ ht => ⟨.nothing (leakOf_of_ne ht.1 hW hR) ht.2.argv,
      .silent (not_memtest2 ht.1 hM) ht.2.noted.1⟩

theorem refuse_yields {P : ShellState → Prop} {m : String} (hm : isVerdict (.print m) = false)
    (hP : ∀ t, P t → (leakOf line = some 200 ∧ ¬ RunsMemtest2 line) ∧
      AtCommand L live₀ shown asked line w t) :
    Yields (CallsWithin L) P (do emit (.print m); pure false)
      (Answered L live₀ shown asked line w.argv) :=
  (((emit_yields hm).const (leakOf line = some 200 ∧ ¬ RunsMemtest2 line)).mono hP
    fun _ _ h => h).bind fun _ => .pure fun _ ht =>
      ⟨.argv ht.1.1 ht.2.argv, .silent ht.1.2 ht.2.noted.1⟩

/-! ### The memory tests -/

/-- A memory test gives back all it takes, so `argv` is still the only new block. -/
theorem test_yields {x : Shell Unit} {said : ShellState → Prop} {argv : ℕ}
    (h : ∀ live, Yields (CallsWithin L)
      (fun t => Holding L live [] [] noSlots t ∧ Noted shown asked t) x
      fun _ t => Holding L live [] [] noSlots t ∧ said t) :
    Yields (CallsWithin L)
      (fun t => Rooted L live₀ [] [] noSlots argv 200 t ∧ Noted shown asked t) x
      fun _ t => Rooted L live₀ [] [] noSlots argv 200 t ∧ said t := by
  refine .of_ok fun t a t' hr hW => ⟨((h t.live).ok hr hW).1, fun ht => ?_⟩
  obtain ⟨h', hsaid⟩ := ((h t.live).ok hr hW).2 ⟨Held.start ht.1.held.heap, ht.2⟩
  have hlive : t'.live = t.live := h'.done
  refine ⟨⟨?_, by rw [hlive]; exact ht.1.live, ht.1.base⟩, hsaid⟩
  unfold Holding
  rw [hlive]
  exact ht.1.held.congr (hlive ▸ h'.heap) (fun x hx => absurd rfl hx) fun x q hx => by cases hx

variable (L live₀ shown asked line w) in
theorem memtest_yields :
    Yields (CallsWithin L) (Named L live₀ shown asked line w (cstr "memtest"))
      (do
        if w.count < 2 then do
          emit (.print "Usage: memtest 1  (fragmentation + WCET O(1) timing)\n")
          emit (.print "       memtest 2  (large allocation test)\n")
        else do
          let argv1 ← L.word w 1
          if checkString argv1 (cstr "1") then L.cmdMemtestV1
          else if checkString argv1 (cstr "2") then L.cmdMemtestV2
          else emit (.print "Unknown test. Use memtest 1 or memtest 2\n")
        pure true) (Answered L live₀ shown asked line w.argv) := by
  have hleak : (lineWords line)[0]? = some (cstr "memtest") → leakOf line = none := fun h =>
    leakOf_of_ne h (by decide) (by decide)
  -- the end of every branch: `argv` is still there, and what was said is what the line says
  have hlast : ∀ {P : ShellState → Prop} {x : Shell Unit} {said : ShellState → Prop} {φ : Prop},
      Yields (CallsWithin L) (fun t => Rooted L live₀ [] [] noSlots w.argv 200 t ∧
        Noted shown (asked ++ [(.kmalloc 200, w.argv)]) t) x
        (fun _ t => Rooted L live₀ [] [] noSlots w.argv 200 t ∧ said t) →
      (∀ t, P t → φ ∧ Named L live₀ shown asked line w (cstr "memtest") t) →
      (∀ t, φ → said t → Told shown asked line t) →
      Yields (CallsWithin L) P (do x; pure true) (Answered L live₀ shown asked line w.argv) :=
    fun {P x said φ} hx hP hsaid =>
      ((hx.const ((lineWords line)[0]? = some (cstr "memtest") ∧ φ)).mono
        (fun t ht => ⟨⟨(hP t ht).2.1, (hP t ht).1⟩, (hP t ht).2.2.argv, (hP t ht).2.2.noted⟩)
        fun _ _ h => h).bind fun _ => .pure fun t ht =>
          ⟨.nothing (hleak ht.1.1) ht.2.1, hsaid t ht.1.2 ht.2.2⟩
  have hsay : ∀ {e : Event}, isVerdict e = false → Yields (CallsWithin L)
      (fun t => Rooted L live₀ [] [] noSlots w.argv 200 t ∧
        Noted shown (asked ++ [(.kmalloc 200, w.argv)]) t) (emit e)
      fun _ t => Rooted L live₀ [] [] noSlots w.argv 200 t ∧
        Noted shown (asked ++ [(.kmalloc 200, w.argv)]) t := fun he =>
    yields_emit fun t ht => ⟨⟨ht.1.held, ht.1.live, ht.1.base⟩,
      (verdicts_append_neg he t.events).trans ht.2.1, ht.2.2⟩
  dsimp only
  split_ifs with hcount
  · refine hlast (φ := ¬ RunsMemtest2 line) ((hsay (by decide)).bind fun _ => hsay (by decide))
      (fun t ht => ⟨?_, ht⟩) fun t hline hsaid => .silent hline hsaid.1
    have hnone : (lineWords line)[1]? = none := by
      rw [List.getElem?_eq_none_iff, ← ht.2.words.count]
      omega
    simp [RunsMemtest2, hnone]
  · refine (word_yields (k := 1) (fun t ht => ht.2.words) fun _ => by omega).bind fun argv1 => ?_
    simp only [checkString_eq, decide_eq_true_eq]
    split_ifs with h1 h2
    · have htest : ∀ live, Yields (CallsWithin L)
          (fun t => Holding L live [] [] noSlots t ∧ Noted shown (asked ++ [(.kmalloc 200, w.argv)]) t)
          L.cmdMemtestV1 fun _ t => Holding L live [] [] noSlots t ∧
            Heard shown (asked ++ [(.kmalloc 200, w.argv)]) t := fun live =>
        cmdMemtestV1_yields.mono (fun t ht => ⟨ht.1, ht.2.heard⟩) fun _ _ h => h
      refine hlast (φ := ¬ RunsMemtest2 line) (test_yields htest) (fun t ht => ⟨?_, ht.2⟩)
        fun t hline hsaid => .silent hline hsaid.1
      have hne : ¬ cstr "1" = cstr "2" := by decide
      simp [RunsMemtest2, ht.1, h1, hne]
    · refine hlast (φ := RunsMemtest2 line) (test_yields fun live => cmdMemtestV2_yields)
        (fun t ht => ⟨?_, ht.2⟩) fun t hline hsaid => .judged hline hsaid
      exact ⟨ht.2.1, by rw [ht.1, h2]⟩
    · refine hlast (φ := ¬ RunsMemtest2 line) (hsay (by decide)) (fun t ht => ⟨?_, ht.2⟩)
        fun t hline hsaid => .silent hline hsaid.1
      simp [RunsMemtest2, ht.1, h2]

/-! ### The disk commands -/

/-- The two number words of a disk command with the right number of words. -/
theorem args_yields {n : ℕ} (hcount : w.count = n) (hn : 3 ≤ n) {α : Type}
    {f : List Byte → List Byte → Shell α} {Q : α → ShellState → Prop}
    (hf : ∀ a b, Yields (CallsWithin L)
      (fun t => acceptedArgs n line = (diskArgs a b).toOption ∧
        Named L live₀ shown asked line w name t)
      (f a b) Q) :
    Yields (CallsWithin L) (Named L live₀ shown asked line w name)
      (do
        let argv1 ← L.word w 1
        let argv2 ← L.word w 2
        f argv1 argv2) Q := by
  refine (word_yields (k := 1) (fun t ht => ht.2.words) fun _ => by omega).bind fun a =>
    (word_yields (k := 2) (fun t ht => ht.2.2.words) fun _ => by omega).bind fun b =>
      (hf a b).mono (fun t ht => ⟨?_, ht.2.2⟩) fun _ _ h => h
  exact acceptedArgs_eq (ht.2.2.2.words.count ▸ hcount) ht.2.1 ht.1

theorem rooted_emit {roots : List ℕ} {p n : ℕ} (e : Event) :
    Yields (CallsWithin L) (Rooted L live₀ roots [] noSlots p n) (emit e)
      fun _ => Rooted L live₀ roots [] noSlots p n :=
  yields_emit fun _ ht => ⟨ht.held, ht.live, ht.base⟩

theorem rooted_load {roots : List ℕ} {p n va : ℕ} :
    Yields (CallsWithin L) (Rooted L live₀ roots [] noSlots p n) (lift (L.load va))
      fun _ => Rooted L live₀ roots [] noSlots p n := by
  refine yields_lift fun t v s hr ht => ?_
  obtain ⟨rfl, -⟩ := L.load_ok hr
  exact ht

theorem silent_ataSetup {lba : Word} {count command : Byte} :
    Silent (ataSetup lba count command) :=
  (Silent.emit rfl).bind fun _ => (Silent.emit rfl).bind fun _ => (Silent.emit rfl).bind fun _ =>
    (Silent.emit rfl).bind fun _ => (Silent.emit rfl).bind fun _ => Silent.emit rfl

theorem silent_ataWriteSector {lba : Word} {count : Byte} {buffer : ℕ} :
    Silent (ataWriteSector lba count buffer) :=
  (Silent.emit rfl).bind fun _ => silent_ataSetup.bind fun _ =>
    (Silent.times (fun _ => Silent.times (fun _ => Silent.emit rfl) _) _).bind fun _ =>
      Silent.emit rfl

theorem Layout.silent_ataReadSector (L : Layout) (disk : ℕ → BitVec 16) {lba : Word}
    {count : Byte} {buffer : ℕ} : Silent (L.ataReadSector disk lba count buffer) :=
  (Silent.emit rfl).bind fun _ => silent_ataSetup.bind fun _ =>
    Silent.times (fun _ => Silent.times (fun _ => (Silent.emit rfl).bind fun _ =>
      Silent.lift _) _) _

theorem Layout.silent_showBuffer (L : Layout) (buffer : ℕ) : Silent (L.showBuffer buffer) := by
  refine Silent.times (fun i => (Silent.emit rfl).bind fun _ => (Silent.lift _).bind fun c => ?_) _
  split_ifs
  · exact Silent.emit (by decide)
  · exact Silent.pure _

theorem storeHalf_yields {roots : List ℕ} {p n k v : ℕ} (hk : k + 1 < n) :
    Yields (CallsWithin L) (Rooted L live₀ roots [] noSlots p n)
      (lift (L.storeHalf (u32 (p + k)) v)) fun _ => Rooted L live₀ roots [] noSlots p n := by
  refine yields_lift fun t _ s hr ht => ?_
  have hlt : ∀ j < n, u32 (p + j) = p + j := fun j hj =>
    u32_of_lt (ht.held.heap.addr_lt ht.live (Nat.le_add_right p j) (by omega))
  obtain ⟨_, s₁, hlow, hhigh⟩ := run_bind_eq_ok.mp hr
  obtain ⟨s₁', hrun, h₁⟩ :=
    Held.storeByteRoot ht.held (k := k) (b := v % 256) List.mem_cons_self ht.base ht.live
      (by omega)
  rw [hlt k (by omega), hrun] at hlow
  cases hlow
  obtain ⟨s₂, hrun₂, h₂⟩ :=
    Held.storeByteRoot h₁ (k := k + 1) (b := v / 256) List.mem_cons_self ht.base ht.live hk
  rw [hlt k (by omega), Nat.add_assoc, hlt (k + 1) hk, hrun₂] at hhigh
  cases hhigh
  exact ⟨h₂, ht.live, ht.base⟩

theorem readSectors_yields {roots : List ℕ} {p n : ℕ} {disk : ℕ → BitVec 16} {lba : Word}
    (hn : 5120 ≤ n) :
    Yields (CallsWithin L) (Rooted L live₀ roots [] noSlots p n) (L.ataReadSector disk lba 10 p)
      fun _ => Rooted L live₀ roots [] noSlots p n := by
  refine (rooted_emit _).bind fun _ => (ataSetup_yields rooted_emit).bind fun _ =>
    Yields.times (fun _ => _) fun s hs => Yields.times (fun _ => _) fun i hi =>
      (rooted_emit _).bind fun _ => storeHalf_yields ?_
  have : s < 10 := hs
  omega

theorem showBuffer_rooted {roots : List ℕ} {p n buffer : ℕ} :
    Yields (CallsWithin L) (Rooted L live₀ roots [] noSlots p n) (L.showBuffer buffer)
      fun _ => Rooted L live₀ roots [] noSlots p n := by
  refine Yields.times (fun _ => _) fun i hi => (rooted_emit _).bind fun _ => ?_
  refine Yields.bind (Q := fun _ => Rooted L live₀ roots [] noSlots p n)
    (yields_lift fun t c s hr ht => ?_) fun c => ?_
  · obtain ⟨v, s₁, hload, hr⟩ := run_bind_eq_ok.mp hr
    cases hr
    obtain ⟨rfl, -⟩ := L.load_ok hload
    exact ht
  · split_ifs
    · exact rooted_emit _
    · exact .pure fun _ ht => ht

theorem Silent.answers {x : Shell Bool} {φ : Prop} (hx : Silent x) (hφ : φ → ¬ RunsMemtest2 line)
    (h₀ : Yields (CallsWithin L) (fun _ => True) x fun _ _ => True)
    (h : φ → Yields (CallsWithin L) (Rooted L live₀ [] [] noSlots w.argv 200) x
      (Left L live₀ line w.argv)) :
    Yields (CallsWithin L) (fun t => φ ∧ AtCommand L live₀ shown asked line w t) x
      (Answered L live₀ shown asked line w.argv) :=
  h₀.guard fun hline => ((hx.beside (h hline) shown (asked ++ [(.kmalloc 200, w.argv)])).mono
    (fun _ ht => ⟨ht.argv, ht.noted.heard⟩) fun _ _ ht => ⟨ht.1, .silent (hφ hline) ht.2.1⟩)

theorem diskW_yields :
    Yields (CallsWithin L) (Named L live₀ shown asked line w (cstr "diskW")) (L.diskW w)
      (Answered L live₀ shown asked line w.argv) := by
  have hsaid : (lineWords line)[0]? = some (cstr "diskW") → ¬ RunsMemtest2 line := fun h =>
    not_memtest2 h (by decide)
  have hleak : (lineWords line)[0]? = some (cstr "diskW") → acceptedArgs 4 line = none →
      leakOf line = some 200 := fun h hnone => by simp [leakOf_diskW h, hnone]
  unfold Layout.diskW
  split_ifs with hcount
  · refine refuse_yields (by decide) fun t ht => ⟨⟨hleak ht.1 ?_, hsaid ht.1⟩, ht.2⟩
    exact acceptedArgs_none (ht.2.words.count ▸ hcount)
  · refine args_yields (not_not.mp hcount) (by norm_num) fun a b => ?_
    cases hacc : diskArgs a b with
    | error m =>
        exact refuse_yields (isVerdict_diskArgs hacc) fun t ht =>
          ⟨⟨hleak ht.2.1 ht.1, hsaid ht.2.1⟩, ht.2.2⟩
    | ok x =>
        obtain ⟨param1, param2⟩ := x
        refine Yields.mono (P := fun t => (leakOf line = none ∧ ¬ RunsMemtest2 line) ∧
          AtCommand L live₀ shown asked line w t) ?_ (fun t ht => ⟨⟨?_, hsaid ht.2.1⟩, ht.2.2⟩)
          fun _ _ h => h
        · have hemit : ∀ e, Yields (CallsWithin L) (fun _ => True) (emit e) fun _ _ => True :=
            fun e => yields_emit fun _ _ => trivial
          exact Silent.answers ((Silent.lift _).bind fun buffer =>
            silent_ataWriteSector.bind fun _ =>
              (Silent.emit (by decide)).bind fun _ => Silent.pure _) (fun h => h.2)
            ((yields_lift fun _ _ _ _ _ => trivial).bind fun _ =>
              (ataWriteSector_yields hemit).bind fun _ => (hemit _).bind fun _ =>
              .pure fun _ _ => trivial)
            fun hline => rooted_load.bind fun buffer =>
              (ataWriteSector_yields rooted_emit).bind fun _ => (rooted_emit _).bind fun _ =>
              .pure fun t ht => .nothing hline.1 ht
        · simp [leakOf_diskW ht.2.1, ht.1, Except.toOption]

theorem diskR_yields (disk : ℕ → BitVec 16) :
    Yields (CallsWithin L) (Named L live₀ shown asked line w (cstr "diskR")) (L.diskR disk w)
      (Answered L live₀ shown asked line w.argv) := by
  have hsaid : (lineWords line)[0]? = some (cstr "diskR") → ¬ RunsMemtest2 line := fun h =>
    not_memtest2 h (by decide)
  have hleak : (lineWords line)[0]? = some (cstr "diskR") → acceptedArgs 3 line = none →
      leakOf line = some 200 := fun h hnone => by simp [leakOf_diskR h, hnone]
  unfold Layout.diskR
  split_ifs with hcount
  · refine refuse_yields (by decide) fun t ht => ⟨⟨hleak ht.1 ?_, hsaid ht.1⟩, ht.2⟩
    exact acceptedArgs_none (ht.2.words.count ▸ hcount)
  · refine args_yields (not_not.mp hcount) le_rfl fun a b => ?_
    cases hacc : diskArgs a b with
    | error m =>
        exact refuse_yields (isVerdict_diskArgs hacc) fun t ht =>
          ⟨⟨hleak ht.2.1 ht.1, hsaid ht.2.1⟩, ht.2.2⟩
    | ok x =>
        obtain ⟨param1, param2⟩ := x
        refine Yields.mono (P := fun t => (acceptedArgs 3 line = some (param1, param2) ∧
          (lineWords line)[0]? = some (cstr "diskR")) ∧ AtCommand L live₀ shown asked line w t) ?_
          (fun t ht => ⟨⟨by simp [ht.1, Except.toOption], ht.2.1⟩, ht.2.2⟩) fun _ _ h => h
        have hemit : ∀ (P : State → (ℕ → Option ℕ) → Prop) e, Yields (CallsWithin L)
            (fun t => P t.machine t.live) (emit e) fun _ t => P t.machine t.live := fun P e =>
          yields_emit fun _ ht => ht
        refine Silent.answers ((Silent.kmalloc _).bind fun b => (L.silent_ataReadSector disk).bind
            fun _ => (L.silent_showBuffer b).bind fun _ => Silent.pure _) (fun h => hsaid h.2)
          ((yields_call fun _ _ _ _ _ _ => trivial).bind fun b =>
            (ataReadSector_yields disk (hemit fun _ _ => True) fun _ =>
              yields_lift fun _ _ _ _ _ => trivial).bind fun _ =>
            (showBuffer_yields (hemit fun _ _ => True) fun _ =>
              yields_lift fun _ _ _ _ _ => trivial).bind fun _ => .pure fun _ _ => trivial)
          fun hline => ?_
        have hsome : leakOf line = some (u32 (param2.toNat * 512)) := by
          simp [leakOf_diskR hline.2, hline.1]
        refine (kmalloc_yields.mono (fun t ht => ht.held) fun _ t ht => ht.2).bind fun buffer => ?_
        by_cases hwide : WideEnough line
        · -- `argv` is released after the command, and the buffer stays
          have hle := (diskArgs_range hacc).2.2.2
          have hsize : u32 (param2.toNat * 512) = param2.toNat * 512 := u32_of_lt (by omega)
          have hn : 5120 ≤ u32 (param2.toNat * 512) := by
            have : 10 ≤ param2.toNat := hwide hline.2 _ hline.1
            omega
          exact (readSectors_yields hn).bind fun _ => showBuffer_rooted.bind fun _ =>
            .pure fun t ht => .buffer hsome ht
        · -- the transfer may run over other blocks, but it makes no heap call
          refine Yields.mono (P := fun t => (buffer ≠ w.argv ∧ live₀ buffer = none) ∧
            t.live buffer ≠ none) ?_ (fun t ht => ?_) fun _ _ h => h
          · have hkeep : ∀ e, Yields (CallsWithin L) (fun t => (buffer ≠ w.argv ∧
                live₀ buffer = none) ∧ t.live buffer ≠ none) (emit e) fun _ t =>
                  (buffer ≠ w.argv ∧ live₀ buffer = none) ∧ t.live buffer ≠ none :=
              hemit fun _ live => (buffer ≠ w.argv ∧ live₀ buffer = none) ∧ live buffer ≠ none
            exact (ataReadSector_yields disk hkeep fun _ => yields_lift fun _ _ _ _ ht => ht).bind
              fun _ => (showBuffer_yields hkeep fun _ => yields_lift fun _ _ _ _ ht => ht).bind
              fun _ => .pure fun _ ht => .narrow hwide (by simp [hsome]) ht.1.1 ht.1.2 ht.2
          · refine ⟨⟨?_, (ht.held.root buffer List.mem_cons_self).1⟩, by rw [ht.live]; simp⟩
            rintro rfl
            exact (List.nodup_cons.mp ht.held.nodup).1 List.mem_cons_self

/-! ### The dispatch -/

/-- The commands of `process_input`. -/
theorem runCommand_yields (disk : ℕ → BitVec 16) :
    Yields (CallsWithin L) (AtCommand L live₀ shown asked line w) (L.runCommand disk w)
      (Answered L live₀ shown asked line w.argv) := by
  refine (word_yields (k := 0) (fun t ht => ht.words) fun h => ?_).bind fun argv0 => ?_
  · rw [h, length_lineWords]
    omega
  refine Yields.mono (P := Named L live₀ shown asked line w argv0) ?_ (fun t ht => ht)
    fun _ _ h => h
  simp only [checkString_eq, decide_eq_true_eq]
  by_cases h1 : argv0 = cstr "help"
  · rw [if_pos h1, h1]
    exact say_yields rfl (by decide) (by decide) (by decide)
  by_cases h2 : argv0 = cstr "neofetch"
  · rw [if_neg h1, if_pos h2, h2]
    exact say_yields rfl (by decide) (by decide) (by decide)
  by_cases h3 : argv0 = cstr "mem"
  · rw [if_neg h1, if_neg h2, if_pos h3, h3]
    exact .pure fun t ht => ⟨.nothing (leakOf_of_ne ht.1 (by decide) (by decide)) ht.2.argv,
      .silent (not_memtest2 ht.1 (by decide)) ht.2.noted.1⟩
  by_cases h4 : argv0 = cstr "memtest"
  · rw [if_neg h1, if_neg h2, if_neg h3, if_pos h4, h4]
    have h := memtest_yields L live₀ shown asked line w
    simp only [checkString_eq, decide_eq_true_eq] at h
    exact h
  rw [if_neg h1, if_neg h2, if_neg h3, if_neg h4]
  split_ifs with h5 h6 h7 h8
  · rw [h5]
    exact say_yields rfl (by decide) (by decide) (by decide)
  · rw [h6]
    exact say_yields rfl (by decide) (by decide) (by decide)
  · rw [h7]
    exact diskW_yields
  · rw [h8]
    exact diskR_yields disk
  · exact say_yields (by decide) h7 h8 h4

/-! ### The line -/

/-- What a line has done to the live blocks. -/
def Leaves (line : List Byte) (live live' : ℕ → Option ℕ) : Prop :=
  match leakOf line with
  | none => live' = live
  | some n => ∃ a, live a = none ∧ live' = Function.update live a (some n)

theorem Leaves.nothing {live : ℕ → Option ℕ} (h : leakOf line = none) : Leaves line live live := by
  simp [Leaves, h]

/-- One block is left. -/
theorem Leaves.block {live : ℕ → Option ℕ} {s : State} {a n : ℕ} (h : leakOf line = some n)
    (hheld : Held L live₀ [a] [] noSlots live s) (hn : live a = some n) :
    Leaves line live₀ live := by
  have h0 := (hheld.root a List.mem_cons_self).1
  unfold Leaves
  rw [h]
  refine ⟨a, h0, funext fun p => ?_⟩
  by_cases hp : p = a
  · rw [hp, Function.update_self, hn]
  · rw [Function.update_of_ne hp]
    cases hk : live p with
    | some k =>
        rcases hheld.owned p k hk with hold | hroot | ⟨x, hx, _⟩
        · exact hold.symm
        · exact absurd (List.mem_singleton.mp hroot) hp
        · cases hx
    | none =>
        cases hk₀ : live₀ p with
        | none => rfl
        | some k =>
            rw [hheld.kept p k hk₀] at hk
            cases hk

/-- What holds after a line: it has left a block if and only if `leakOf` says so, and, when a
`diskR` has room for its sectors, exactly that block. -/
structure LineDone (L : Layout) (live₀ : ℕ → Option ℕ) (shown : List Event)
    (asked : List (HeapOp × ℕ)) (line : List Byte) (t : ShellState) : Prop where
  neutral : t.live = live₀ ↔ leakOf line = none
  heap : WideEnough line → BoundedHeap L t.live t.machine
  left : WideEnough line → Leaves line live₀ t.live
  told : Told shown asked line t

theorem Leaves.neutral {live live' : ℕ → Option ℕ} (h : Leaves line live live') :
    live' = live ↔ leakOf line = none := by
  unfold Leaves at h
  cases hleak : leakOf line with
  | none =>
      rw [hleak] at h
      simp [h]
  | some n =>
      rw [hleak] at h
      obtain ⟨a, ha, rfl⟩ := h
      refine iff_of_false (fun hsame => ?_) (Option.some_ne_none n)
      have hnone := congrFun hsame a
      rw [Function.update_self, ha] at hnone
      cases hnone

theorem LineDone.of_leaves {t : ShellState} (heap : BoundedHeap L t.live t.machine)
    (left : Leaves line live₀ t.live) (told : Told shown asked line t) :
    LineDone L live₀ shown asked line t :=
  ⟨left.neutral, fun _ => heap, fun _ => left, told⟩

/-- `process_input`. -/
theorem processInput_yields (hwords : (lineWords line).length ≤ 64)
    (hin : input + line.length < 2 ^ 32) (disk : ℕ → BitVec 16) :
    Yields (CallsWithin L)
      (fun t => (t.live = live₀ ∧ BoundedHeap L live₀ t.machine) ∧ Noted shown asked t)
      (L.processInput disk input line) fun _ => LineDone L live₀ shown asked line := by
  refine (tokinizeWords_yields hwords hin).bind fun r => ?_
  obtain ⟨argv, text, count⟩ := r
  refine (runCommand_yields disk).bind fun fellThrough => ?_
  cases fellThrough with
  | false =>
      refine .pure fun t ht => ?_
      cases ht.1 with
      | argv hline h => exact .of_leaves h.held.heap (.block hline h.held h.live) ht.2
  | true =>
      refine (yields_call (Q := fun _ => LineDone L live₀ shown asked line)
        fun t a s hr hG ht => ?_).bind fun _ => .pure fun _ h => h
      have htold := ht.2.call ⟨t.live, t.machine, .kfree argv, a, s⟩ s (liveAfter t.live (.kfree argv) a)
      cases ht.1 with
      | nothing hline h =>
          have h' := Held.kfree [] [] h.held (fun c hc => by cases hc) hr hG
          exact .of_leaves h'.heap (h'.done ▸ .nothing hline) htold
      | @buffer _ b n hline h =>
          have h' := Held.kfree [b] [] h.held (fun c hc => by cases hc) hr hG
          have hne : b ≠ argv := fun he =>
            (List.nodup_cons.mp h.held.nodup).1 (he ▸ List.mem_cons_self)
          exact .of_leaves h'.heap (.block hline h' ((Function.update_of_ne hne _ _).trans h.live))
            htold
      | @narrow _ b hwide hline hb h₀ hlive =>
          refine ⟨iff_of_false (fun hsame => hlive ?_) hline, fun h => absurd h hwide,
            fun h => absurd h hwide, htold⟩
          have hne : b ≠ argv := hb
          have hlive' : liveAfter t.live (.kfree argv) a b = live₀ b := congrFun hsame b
          rwa [liveAfter_freed rfl, Function.update_of_ne hne, h₀] at hlive'

/-- A line whose heap calls stay within the limits of memory, typed in any state. -/
theorem processInput_done {t t' : ShellState} {disk : ℕ → BitVec 16}
    (hwords : (lineWords line).length ≤ 64) (hin : input + line.length < 2 ^ 32)
    (hr : L.processInput disk input line t = .ok () t') (hW : CallsWithin L t') :
    CallsWithin L t ∧ (BoundedHeap L t.live t.machine →
      LineDone L t.live (verdicts t.events) (answers t.calls) line t') := by
  have hline : Yields (CallsWithin L) (fun u => (u.live = t.live ∧ BoundedHeap L t.live u.machine) ∧
      Noted (verdicts t.events) (answers t.calls) u) (L.processInput disk input line)
      fun _ => LineDone L t.live (verdicts t.events) (answers t.calls) line :=
    processInput_yields hwords hin disk
  exact ⟨(hline.ok hr hW).1, fun hb => (hline.ok hr hW).2 ⟨⟨rfl, hb⟩, rfl, rfl⟩⟩

end Command

end RaxzusHeap
