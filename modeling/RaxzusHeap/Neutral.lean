import RaxzusHeap.Commands

/-! # Which commands give back what they take

`process_input` leaves the set of live blocks as it was, except for `diskR`, which keeps its
buffer or `argv`, and for a `diskW` whose arguments are refused, which keeps `argv`
(`commands_neutral_iff`). -/

namespace RaxzusHeap

open Imperative Shell

/-- The commands that release what they allocate: all but `diskR` and a refused `diskW`. -/
def GivesBack (line : List Byte) : Prop :=
  (lineWords line)[0]? ≠ some (cstr "diskR") ∧ ((lineWords line)[0]? = some (cstr "diskW") →
    ∃ a b data x, lineWords line = [cstr "diskW", a, b, data] ∧ diskArgs a b = .ok x)

theorem length_four {l : List (List Byte)} {x a b : List Byte} (hl : l.length = 4)
    (h0 : l[0]? = some x) (h1 : l[1]? = some a) (h2 : l[2]? = some b) : ∃ d, l = [x, a, b, d] := by
  match l, hl with
  | [x', a', b', d'], _ =>
      simp only [List.getElem?_cons_zero, List.getElem?_cons_succ, Option.some.injEq] at h0 h1 h2
      exact ⟨d', by rw [h0, h1, h2]⟩

/-- A line that gives back what it takes leaves no block. -/
theorem leakOf_eq_none_iff {line : List Byte} : leakOf line = none ↔ GivesBack line := by
  unfold leakOf GivesBack
  by_cases hW : (lineWords line)[0]? = some (cstr "diskW")
  · have hR : (lineWords line)[0]? ≠ some (cstr "diskR") := by
      rw [hW]
      decide
    rw [if_pos hW]
    constructor
    · intro h
      refine ⟨hR, fun _ => ?_⟩
      have hsome : (acceptedArgs 4 line).isSome := by
        by_contra hnone
        rw [if_neg hnone] at h
        cases h
      unfold acceptedArgs at hsome
      split_ifs at hsome with hlen
      · cases h1 : (lineWords line)[1]? with
        | none => simp [h1] at hsome
        | some a =>
            cases h2 : (lineWords line)[2]? with
            | none => simp [h1, h2] at hsome
            | some b =>
                obtain ⟨data, hline⟩ := length_four hlen hW h1 h2
                cases hacc : diskArgs a b with
                | error m => simp [h1, h2, hacc, Except.toOption] at hsome
                | ok x => exact ⟨a, b, data, x, hline, hacc⟩
      · simp at hsome
    · rintro ⟨-, h⟩
      obtain ⟨a, b, data, x, hline, hacc⟩ := h hW
      have hsome : acceptedArgs 4 line = some x := by
        simp [acceptedArgs, hline, hacc, Except.toOption]
      rw [hsome]
      rfl
  · rw [if_neg hW]
    split_ifs with hR
    · refine iff_of_false (fun h => ?_) fun h => h.1 hR
      cases hacc : acceptedArgs 3 line with
      | none => simp [hacc] at h
      | some x => simp [hacc] at h
    · exact iff_of_true rfl ⟨hR, fun h => absurd h hW⟩

/-- A command whose heap calls stay within the limits of memory leaves the live blocks as they
were if and only if it is neither `diskR` nor a refused `diskW`. -/
theorem commands_neutral_iff {L : Layout} {input : ℕ} {line : List Byte} {t t' : ShellState}
    {disk : ℕ → BitVec 16} (run : HeapRun L (WithinLimits L) t.live t.machine)
    (hwords : (lineWords line).length ≤ 64) (hin : input + line.length < 2 ^ 32)
    (hr : L.processInput disk input line t = .ok () t') (hcalls : CallsWithin L t') :
    t'.live = t.live ↔ GivesBack line :=
  ((processInput_done hwords hin hr hcalls).2 run.withinLimits).neutral.trans leakOf_eq_none_iff

/-- `diskR` without arguments, typed after booting. -/
theorem diskR_after_boot :
    ∃ s t', Layout.lowest.boot (State.powerOn fun _ _ => 0) = .ok () s ∧
      Layout.lowest.processInput (fun _ => 0) 0xC0108000 (cstr "diskR") ⟨s, [], noLive, []⟩ =
        .ok () t' ∧
      CallsWithin Layout.lowest t' ∧ ∃ a, t'.live a = some 200 := by
  obtain ⟨use, m, s, hboot, hb⟩ := Layout.lowest.boot_spec fun _ _ => 0
  obtain ⟨a, s₁, hr₁, ha, -, halloc⟩ := hb.alloc_ok .heap256
  have hk : Layout.lowest.kmalloc 200 s = .ok a s₁ := by
    rw [Layout.lowest.kmalloc_small (show classOf 200 = some .heap256 from rfl)]
    exact hr₁
  obtain ⟨use₁, h₁, hpop⟩ := (hb.heap.domainAlloc .heap256 (n := 200) (m := 0x40000) (by decide)
    (by norm_num) (fun hnil => absurd hnil (hb.head_ne_zero .heap256))).ok hr₁
  have hlen : (lineWords (cstr "diskR")).length = 1 := by decide
  obtain ⟨t', hr, -, -, hlive, hcalls, -, hwords⟩ := Layout.lowest.tokinizeWords_spec
    (t := ⟨s, [], noLive, []⟩) hk h₁
    (Function.update_self ..) hpop.block.aligned (by norm_num) (by rw [hlen]; norm_num)
    (show 0xC0108000 + (cstr "diskR").length < 2 ^ 32 by decide)
  refine ⟨s, { t' with events := t'.events ++
    [.print "\nThis commande requires 2 flag inputs (LBA, Segment)\n"] }, hboot, ?_, ?_, a, ?_⟩
  · unfold Layout.processInput
    rw [run_bind_ok hr]
    dsimp only
    refine (run_bind_ok (a := false) ?_).trans rfl
    unfold Layout.runCommand
    have hfirst : (lineWords (cstr "diskR"))[0]? = some (cstr "diskR") := by decide
    rw [run_bind_ok (hwords.word hfirst)]
    rfl
  · intro c hc
    rw [show t'.calls = _ from hcalls] at hc
    obtain rfl : c = ⟨noLive, s, .kmalloc 200, a, s₁⟩ := by simpa using hc
    refine .of_small (d := .heap256) (n := 200) rfl (fun f h1 h2 => ?_) ?_
    · rw [halloc]
      exact hb.bounded.low f h1 h2
    · rw [hb.cursor]
      omega
  · rw [hlive]
    exact (congrFun (if_neg ha) a).trans (Function.update_self ..)

/-- The refused `diskR` keeps `argv`. -/
theorem diskR_keeps_argv :
    ∃ s t', Layout.lowest.boot (State.powerOn fun _ _ => 0) = .ok () s ∧
      Layout.lowest.processInput (fun _ => 0) 0xC0108000 (cstr "diskR") ⟨s, [], noLive, []⟩ =
        .ok () t' ∧
      CallsWithin Layout.lowest t' ∧ t'.live ≠ noLive := by
  obtain ⟨s, t', hboot, hr, hW, a, ha⟩ := diskR_after_boot
  refine ⟨s, t', hboot, hr, hW, fun hsame => ?_⟩
  rw [hsame] at ha
  cases ha

theorem commands_neutral_iff_diskR :
    ∃ s t', Layout.lowest.processInput (fun _ => 0) 0xC0108000 (cstr "diskR") ⟨s, [], noLive, []⟩ =
        .ok () t' ∧ (t'.live = noLive ↔ GivesBack (cstr "diskR")) := by
  obtain ⟨s, t', hboot, hr, hW, -⟩ := diskR_after_boot
  have hlen : (lineWords (cstr "diskR")).length ≤ 64 := by decide
  exact ⟨s, t', hr, commands_neutral_iff (t := ⟨s, [], noLive, []⟩) (.boot hboot) hlen (by decide)
    hr hW⟩

end RaxzusHeap
