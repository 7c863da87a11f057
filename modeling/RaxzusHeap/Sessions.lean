import RaxzusHeap.Neutral
import RaxzusHeap.Typing

/-! # Sessions

What a sequence of command lines does to the heap and shows, from any state that a run of the
heap has reached, as long as all heap calls stay within the limits of memory and every accepted
`diskR` asks for a buffer that holds the ten sectors it reads:

* each line leaves behind exactly the block of `leakOf`: `argv` of a refused disk command, the
  buffer of an accepted `diskR`, and nothing of any other command (`session_leaks`);
* whatever the session has left behind, `memtest 1` reports no corrupted block and `memtest 2`
  passes both its buffers; its verdict about an overlap is only about their order
  (`session_verdicts`). -/

namespace RaxzusHeap

open Imperative Shell

/-- The lines are given to `process_input` one after another; the drive answers each as it
likes. -/
inductive Typed (L : Layout) (input : ℕ) : List (List Byte) → ShellState → ShellState → Prop
  | done {t} : Typed L input [] t t
  | line {disk line lines t t₁ t'} (h : L.processInput disk input line t = .ok () t₁)
      (hrest : Typed L input lines t₁ t') : Typed L input (line :: lines) t t'

/-- `live'` are the blocks of `live` and new blocks of the given sizes. -/
def Leaked (sizes : List ℕ) (live live' : ℕ → Option ℕ) : Prop :=
  ∃ blocks : List (ℕ × ℕ), blocks.map Prod.snd = sizes ∧ (blocks.map Prod.fst).Nodup ∧
    (∀ b ∈ blocks, live b.1 = none) ∧ ∀ p, live' p = (live p).or (blocks.lookup p)

theorem Leaked.nil (live : ℕ → Option ℕ) : Leaked [] live live :=
  ⟨[], rfl, List.nodup_nil, by simp, by simp⟩

theorem Leaked.cons {sizes : List ℕ} {live live' : ℕ → Option ℕ} {a n : ℕ} (ha : live a = none)
    (h : Leaked sizes (Function.update live a (some n)) live') :
    Leaked (n :: sizes) live live' := by
  obtain ⟨blocks, hsizes, hnodup, hnew, hlive'⟩ := h
  have hne : ∀ b ∈ blocks, b.1 ≠ a := by
    intro b hb he
    have h := hnew b hb
    rw [he, Function.update_self] at h
    cases h
  refine ⟨(a, n) :: blocks, by simp [hsizes], ?_, ?_, fun p => ?_⟩
  · simp only [List.map_cons, List.nodup_cons, List.mem_map, not_exists, not_and]
    exact ⟨fun b hb he => hne b hb he, hnodup⟩
  · intro b hb
    cases hb with
    | head => exact ha
    | tail _ hb =>
        have h := hnew b hb
        rwa [Function.update_of_ne (hne b hb)] at h
  · rw [hlive' p, List.lookup_cons]
    by_cases hp : p = a
    · simp [hp, ha]
    · have hbeq : (p == a) = false := beq_false_of_ne hp
      rw [Function.update_of_ne hp, hbeq]

/-- The conditions on a line: at most 64 words, an end below 4 GB, and ten sectors for `diskR`. -/
structure Tame (input : ℕ) (line : List Byte) : Prop where
  words : (lineWords line).length ≤ 64
  below : input + line.length < 2 ^ 32
  wide : WideEnough line

section Session

variable {L : Layout} {input : ℕ} {line : List Byte} {lines : List (List Byte)}
  {t t' : ShellState} {disk : ℕ → BitVec 16}

theorem Tame.done (h : Tame input line) (hr : L.processInput disk input line t = .ok () t')
    (hW : CallsWithin L t') : CallsWithin L t ∧ (BoundedHeap L t.live t.machine →
      LineDone L t.live (verdicts t.events) (answers t.calls) line t') :=
  processInput_done h.words h.below hr hW

/-- One line after another. -/
theorem Typed.run (h : Typed L input lines t t') (htame : ∀ line ∈ lines, Tame input line)
    (hW : CallsWithin L t') :
    CallsWithin L t ∧ (BoundedHeap L t.live t.machine →
      BoundedHeap L t'.live t'.machine ∧ Leaked (lines.filterMap leakOf) t.live t'.live) := by
  induction h with
  | done => exact ⟨hW, fun hb => ⟨hb, .nil _⟩⟩
  | @line disk line lines t t₁ t' hr _ ih =>
      obtain ⟨hW₁, hrun⟩ := ih (fun l hl => htame l (List.mem_cons_of_mem _ hl)) hW
      have hline := htame line List.mem_cons_self
      obtain ⟨hW₀, hdone⟩ := hline.done hr hW₁
      refine ⟨hW₀, fun hb => ?_⟩
      obtain ⟨-, hheap, hleft, -⟩ := hdone hb
      obtain ⟨hheap', hleak⟩ := hrun (hheap hline.wide)
      refine ⟨hheap', ?_⟩
      have hleft := hleft hline.wide
      unfold Leaves at hleft
      cases hsize : leakOf line with
      | none =>
          rw [hsize] at hleft
          rw [List.filterMap_cons_none hsize, ← hleft]
          exact hleak
      | some n =>
          rw [hsize] at hleft
          obtain ⟨a, ha, hleft⟩ := hleft
          rw [List.filterMap_cons_some hsize]
          exact Leaked.cons ha (hleft ▸ hleak)

end Session

/-! ### A session after booting -/

theorem tame_of_refused {line : List Byte} (hwords : (lineWords line).length ≤ 64)
    (hlen : line.length ≤ 64) (hnone : acceptedArgs 3 line = none) : Tame 0xC0108000 line where
  words := hwords
  below := by omega
  wide := fun _ x hx => by rw [hnone] at hx; cases hx

theorem tame_diskR : Tame 0xC0108000 (cstr "diskR") :=
  tame_of_refused (by decide) (by decide) (acceptedArgs_none (by decide))

theorem tame_memtest2 : Tame 0xC0108000 (cstr "memtest 2") :=
  tame_of_refused (by decide) (by decide) (acceptedArgs_none (by decide))

theorem leakOf_refused_diskR : leakOf (cstr "diskR") = some 200 := by
  rw [leakOf_diskR (by decide), acceptedArgs_none (by decide)]

/-- A refused `diskR`, `memtest 2` and another refused `diskR`, typed after booting. -/
theorem Booted.typed {L : Layout} {use : ℕ → Use} {m : ℕ} {s : State} (hb : Booted L use m s) :
    ∃ t₁ t₂ t₃, L.processInput (fun _ => 0) 0xC0108000 (cstr "diskR") ⟨s, [], noLive, []⟩ =
        .ok () t₁ ∧
      L.processInput (fun _ => 0) 0xC0108000 (cstr "memtest 2") t₁ = .ok () t₂ ∧
      L.processInput (fun _ => 0) 0xC0108000 (cstr "diskR") t₂ = .ok () t₃ ∧
      CallsWithin L t₁ ∧ CallsWithin L t₂ ∧ CallsWithin L t₃ := by
  have h₀ : Ready L 16 540 2118 ⟨s, [], noLive, []⟩ :=
    ⟨hb.stocked.mono (by norm_num) (by norm_num) (by norm_num), fun x hx => by cases hx⟩
  have hin : 0xC0108000 + 5 < 2 ^ 32 := by norm_num
  obtain ⟨t₁, hr₁, h₁⟩ := h₀.diskR_ends (c := 14) (k := 2112) (fun _ => 0) hin
  obtain ⟨t₂, hr₂, h₂⟩ := h₁.memtest2_line_ends (c := 2) (w := 0) (k := 12) (fun _ => 0)
    (show 0xC0108000 + 9 < 2 ^ 32 by norm_num)
  obtain ⟨t₃, hr₃, h₃⟩ := h₂.diskR_ends (c := 0) (k := 6) (fun _ => 0) hin
  exact ⟨t₁, t₂, t₃, hr₁, hr₂, hr₃, h₁.calls, h₂.calls, h₃.calls⟩

/-! ### Results -/

/-- In a session the blocks that stay behind are exactly `argv` of each refused disk command and
the buffer of each accepted `diskR`. -/
theorem session_leaks {L : Layout} {input : ℕ} {lines : List (List Byte)} {t t' : ShellState}
    (run : HeapRun L (WithinLimits L) t.live t.machine) (h : Typed L input lines t t')
    (htame : ∀ line ∈ lines, Tame input line) (hcalls : CallsWithin L t') :
    Leaked (lines.filterMap leakOf) t.live t'.live :=
  ((h.run htame hcalls).2 run.withinLimits).2

theorem session_leaks_three :
    ∃ s t', Layout.lowest.boot (State.powerOn fun _ _ => 0) = .ok () s ∧
      Typed Layout.lowest 0xC0108000 [cstr "diskR", cstr "memtest 2", cstr "diskR"]
        ⟨s, [], noLive, []⟩ t' ∧ Leaked [200, 200] noLive t'.live := by
  obtain ⟨use, m, s, hboot, hb⟩ := Layout.lowest.boot_spec fun _ _ => 0
  obtain ⟨t₁, t₂, t₃, hr₁, hr₂, hr₃, -, -, hW⟩ := hb.typed
  have htyped : Typed Layout.lowest 0xC0108000 [cstr "diskR", cstr "memtest 2", cstr "diskR"]
      ⟨s, [], noLive, []⟩ t₃ := .line hr₁ (.line hr₂ (.line hr₃ .done))
  have hmemtest : leakOf (cstr "memtest 2") = none :=
    leakOf_of_ne (show (lineWords (cstr "memtest 2"))[0]? = some (cstr "memtest") by decide)
      (by decide) (by decide)
  have hleak : [cstr "diskR", cstr "memtest 2", cstr "diskR"].filterMap leakOf = [200, 200] := by
    simp [leakOf_refused_diskR, hmemtest]
  refine ⟨s, t₃, hboot, htyped, hleak ▸ session_leaks (.boot hboot) htyped (fun line hline => ?_) hW⟩
  simp only [List.mem_cons, List.not_mem_nil, or_false] at hline
  rcases hline with rfl | rfl | rfl
  · exact tame_diskR
  · exact tame_memtest2
  · exact tame_diskR

/-- Whatever a session has left behind, the line typed next prints no verdict unless it is
`memtest 2`; that one passes both its buffers, which are the blocks it was given after `argv`, and
its third verdict tells which of them is the lower one: they never overlap. -/
theorem session_verdicts {L : Layout} {input : ℕ} {line : List Byte} {lines : List (List Byte)}
    {t t₁ t₂ : ShellState} {disk : ℕ → BitVec 16}
    (run : HeapRun L (WithinLimits L) t.live t.machine) (h : Typed L input lines t t₁)
    (hr : L.processInput disk input line t₁ = .ok () t₂)
    (htame : ∀ l ∈ line :: lines, Tame input l) (hcalls : CallsWithin L t₂) :
    (¬ RunsMemtest2 line → verdicts t₂.events = verdicts t₁.events) ∧
    (RunsMemtest2 line → ∃ argv buf64k buf1m rest, answers t₂.calls = answers t₁.calls ++
        (.kmalloc 200, argv) :: (.kmalloc (64 * 1024), buf64k) :: (.kmalloc (1024 * 1024), buf1m) ::
          rest ∧
      (buf64k + 64 * 1024 ≤ buf1m ∨ buf1m + 1024 * 1024 ≤ buf64k) ∧
      verdicts t₂.events = verdicts t₁.events ++ bufferVerdicts buf64k buf1m) := by
  have hline := htame line List.mem_cons_self
  obtain ⟨hW, hdone⟩ := hline.done hr hcalls
  have hb := ((h.run (fun l hl => htame l (List.mem_cons_of_mem _ hl)) hW).2 run.withinLimits).1
  cases (hdone hb).told with
  | silent hnot hshown => exact ⟨fun _ => hshown, fun hruns => absurd hruns hnot⟩
  | @judged argv hruns hjudged =>
      refine ⟨fun hnot => absurd hruns hnot, fun _ => ?_⟩
      obtain ⟨buf64k, buf1m, rest, hasked, hapart, hshown⟩ := hjudged
      exact ⟨argv, buf64k, buf1m, rest, by simp [hasked], hapart, hshown⟩

/-- `memtest 2` after a refused `diskR`. -/
theorem session_verdicts_memtest2 :
    ∃ s t₁ t₂ buf64k buf1m, Layout.lowest.boot (State.powerOn fun _ _ => 0) = .ok () s ∧
      Typed Layout.lowest 0xC0108000 [cstr "diskR"] ⟨s, [], noLive, []⟩ t₁ ∧
      Layout.lowest.processInput (fun _ => 0) 0xC0108000 (cstr "memtest 2") t₁ = .ok () t₂ ∧
      (buf64k + 64 * 1024 ≤ buf1m ∨ buf1m + 1024 * 1024 ≤ buf64k) ∧
      verdicts t₂.events = bufferVerdicts buf64k buf1m := by
  obtain ⟨use, m, s, hboot, hb⟩ := Layout.lowest.boot_spec fun _ _ => 0
  obtain ⟨t₁, t₂, -, hr₁, hr₂, -, hW₁, hW₂, -⟩ := hb.typed
  have run : HeapRun Layout.lowest (WithinLimits Layout.lowest) noLive s := .boot hboot
  have htyped : Typed Layout.lowest 0xC0108000 [cstr "diskR"] ⟨s, [], noLive, []⟩ t₁ :=
    .line hr₁ .done
  -- the refused `diskR` prints no verdict
  have hdiskR : ∀ l ∈ [cstr "diskR"], Tame 0xC0108000 l := fun l hl => by
    rw [List.mem_singleton.mp hl]
    exact tame_diskR
  obtain ⟨hsilent, -⟩ := session_verdicts run .done hr₁ hdiskR hW₁
  have hnone : verdicts t₁.events = [] := hsilent fun hruns => absurd hruns.1 (by decide)
  have htame : ∀ l ∈ [cstr "memtest 2", cstr "diskR"], Tame 0xC0108000 l := by
    intro l hl
    cases hl with
    | head => exact tame_memtest2
    | tail _ hl => exact hdiskR l hl
  obtain ⟨-, hverdicts⟩ := session_verdicts run htyped hr₂ htame hW₂
  obtain ⟨-, buf64k, buf1m, -, -, hapart, hshown⟩ := hverdicts ⟨by decide, by decide⟩
  exact ⟨s, t₁, t₂, buf64k, buf1m, hboot, htyped, hr₂, hapart, by rw [hshown, hnone, List.nil_append]⟩

end RaxzusHeap
