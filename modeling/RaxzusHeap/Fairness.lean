import RaxzusHeap.Scheduler
import RaxzusHeap.Lib.Turns

/-! # Whose turn it is, over whole runs of the timer

Every timer interrupt calls `schedule`, which asks the processes from the one after the current
process on, and the stub then switches to the process chosen.  All interrupts of a run together
ask the processes in one circle (`Lib.Turns`), so the run is determined by the timers it
started with: interrupt number `n` takes the process that the `n`-th granted question goes to
(`ticks_closed`).  Nobody starves: from any state of the run a process has its turn within as
many rounds of the list as its timer showed, and at least one (`turn_within`). -/

namespace RaxzusHeap

open Linked RoundRobin

namespace Sched

/-- `n` timer interrupts, each followed by the switch to the chosen process. -/
inductive Ticks : ℕ → Sched → Sched → Prop where
  | nil (s : Sched) : Ticks 0 s s
  | tick {n fuel : ℕ} {s s₁ s₂ : Sched} : Ticks n s s₁ →
      s₁.timerInterruptHandler fuel = some s₂ →
      Ticks (n + 1) s { s₂ with currentProcess := s₂.nextProcess }

/-- Question `q` of a run from `s` finds its process awake, or wakes it. -/
def TurnAt (s : Sched) (q : ℕ) : Prop := Granted s.succ s.sleep s.currentProcess q

/-- How often process `a` is asked in the first `q` questions of a run from `s`. -/
def timesAsked (s : Sched) (a : Word) (q : ℕ) : ℕ := asks s.succ s.currentProcess a q

instance (s : Sched) : DecidablePred s.TurnAt :=
  fun q => inferInstanceAs (Decidable (Granted s.succ s.sleep s.currentProcess q))

variable {s s' s₁ : Sched} {l : List Word} {n fuel : ℕ} {a : Word}

/-- What a run of the timer does: scans of the circle, and nothing else to the list. -/
structure Ran (s s' : Sched) (l : List Word) (n : ℕ) : Prop where
  list : ProcessList s' l
  current : s'.currentProcess ∈ l
  links : s'.succ = s.succ
  scans : Scans s.succ n s.sleep s.currentProcess s'.sleep s'.currentProcess
  pcb : ∀ a, s'.pcb a = { s.pcb a with sleepTime := s'.sleep a }
  esp0 : n ≠ 0 → s'.esp0 = (s.pcb s'.currentProcess).kernelStackTop

/-- One more interrupt. -/
theorem Ran.tick (h : Ran s s₁ l n) (hrun : s₁.timerInterruptHandler fuel = some s') :
    Ran s { s' with currentProcess := s'.nextProcess } l (n + 1) := by
  obtain ⟨k, hk⟩ := s₁.countBlink_eq
  have hhandled := h.list.handled h.current hrun
  rw [timerInterruptHandler, hk] at hrun
  obtain ⟨hscan, heq⟩ := schedule_eq_some hrun
  have hscan' : scan s.succ fuel s₁.sleep s₁.currentProcess = some (s'.sleep, s'.nextProcess) := by
    rw [← h.links]
    exact hscan
  exact
    { list := hhandled.list
      current := hhandled.next
      links := by
        rw [← h.links, heq]
        rfl
      scans := h.scans.scan hscan'
      pcb := fun a => by
        show s'.pcb a = _
        rw [heq]
        simp only [tssSetKernelStack, withSleep, h.pcb a]
        rfl
      esp0 := fun _ => by
        show s'.esp0 = _
        rw [heq]
        simp only [tssSetKernelStack, withSleep, h.pcb s'.nextProcess] }

theorem Ticks.ran (h : ProcessList s l) (hcur : s.currentProcess ∈ l) (run : Ticks n s s') :
    Ran s s' l n := by
  induction run with
  | nil s => exact ⟨h, hcur, rfl, .nil _ _, fun a => rfl, fun h0 => absurd rfl h0⟩
  | tick _ hrun ih => exact (ih h hcur).tick hrun

theorem ProcessList.exists_ticks (h : ProcessList s l) (hcur : s.currentProcess ∈ l) (n : ℕ) :
    ∃ s', Ticks n s s' := by
  induction n with
  | zero => exact ⟨s, .nil s⟩
  | succ n ih =>
      obtain ⟨s₁, run⟩ := ih
      have hran := run.ran h hcur
      obtain ⟨fuel, s', hrun⟩ := hran.list.exists_handled hran.current
      exact ⟨_, run.tick hrun⟩

theorem Ran.sleep_le (h : Ran s s' l n) (a : Word) : s'.sleep a ≤ s.sleep a := by
  obtain ⟨q, hasked, -⟩ := h.scans.asked
  rw [hasked.timer a]
  omega

theorem Ran.turn {q : ℕ} (h : Ran s s' l (Nat.count s.TurnAt q + 1)) (hq : s.TurnAt q) :
    s'.currentProcess = s.succ^[q + 1] s.currentProcess :=
  Scans.node_eq hq h.scans

/-- Interrupt number `n` of a run, counted from zero, takes the process that the `n`-th granted
question goes to, and every timer has run down by as often as its process was asked. -/
theorem ticks_closed (h : ProcessList s l) (hcur : s.currentProcess ∈ l)
    (run : Ticks (n + 1) s s') :
    (s.turnOrder l)[Nat.nth s.TurnAt n % l.length]? = some s'.currentProcess ∧
      (∀ a, s'.sleep a =
        max (s.sleep a - s.timesAsked a (Nat.nth s.TurnAt n + 1)) (min (s.sleep a) 0)) ∧
      s'.esp0 = (s.pcb s'.currentProcess).kernelStackTop := by
  have hran := run.ran h hcur
  have hclosed := hran.scans.closed
  have hring := h.ring hcur
  have hlen : (s.turnOrder l).length = l.length := List.length_rotate _ _
  refine ⟨?_, hclosed.timer, hran.esp0 (Nat.succ_ne_zero n)⟩
  rw [hclosed.node, hring.iterate_mod, ← hlen]
  exact List.getElem?_eq_getElem _

theorem ticks_closed_sleeper : ∃ s', Ticks 2 (oneSleeper 5) s' ∧
    ((oneSleeper 5).turnOrder [0x20000000, 0x20000080, 0x20000100])[
      Nat.nth (oneSleeper 5).TurnAt 1 % 3]? = some s'.currentProcess ∧
    (∀ a, s'.sleep a = max ((oneSleeper 5).sleep a -
      (oneSleeper 5).timesAsked a (Nat.nth (oneSleeper 5).TurnAt 1 + 1))
        (min ((oneSleeper 5).sleep a) 0)) ∧
    s'.esp0 = ((oneSleeper 5).pcb s'.currentProcess).kernelStackTop := by
  have hlist := oneSleeper_list 5
  obtain ⟨s', run⟩ := hlist.exists_ticks (by simp [oneSleeper]) 2
  exact ⟨s', run, ticks_closed hlist (by simp [oneSleeper]) run⟩

/-- From every state of a run a process has its turn within as many rounds of the list as its
timer showed at the start, and at least one. -/
theorem turn_within (h : ProcessList s l) (hcur : s.currentProcess ∈ l) (ha : a ∈ l)
    (run : Ticks n s s₁) :
    ∃ m, 0 < m ∧ m ≤ l.length * (max 1 (s.sleep a)).toNat ∧ (∃ s₂, Ticks m s₁ s₂) ∧
      ∀ s₂, Ticks m s₁ s₂ → s₂.currentProcess = a := by
  have hran := run.ran h hcur
  have hring := hran.list.ring hran.current
  have hlen : (s₁.turnOrder l).length = l.length := List.length_rotate _ _
  obtain ⟨q, hnode, hgrant, hq⟩ := hring.granted s₁.sleep (mem_turnOrder.mpr ha)
  have hle := hran.sleep_le a
  have hcount : Nat.count s₁.TurnAt q ≤ q := Nat.count_le _
  have hrounds : l.length * (max 1 (s₁.sleep a)).toNat ≤ l.length * (max 1 (s.sleep a)).toNat :=
    Nat.mul_le_mul_left _ (by omega)
  rw [hlen] at hq
  refine ⟨Nat.count s₁.TurnAt q + 1, Nat.succ_pos _, by omega,
    hran.list.exists_ticks hran.current _, fun s₂ run₂ => ?_⟩
  rw [(run₂.ran hran.list hran.current).turn hgrant, hnode]

/-- The sleeper has its turn within fifteen interrupts. -/
theorem turn_within_sleeper : ∃ m, 0 < m ∧ m ≤ 15 ∧ (∃ s₂, Ticks m (oneSleeper 5) s₂) ∧
    ∀ s₂, Ticks m (oneSleeper 5) s₂ → s₂.currentProcess = 0x20000100#32 := by
  obtain ⟨m, hpos, hle, hturn⟩ := turn_within (a := 0x20000100#32) (oneSleeper_list 5)
    (by simp [oneSleeper]) (by simp) (.nil (oneSleeper 5))
  refine ⟨m, hpos, ?_, hturn⟩
  simpa [oneSleeper, sleep] using hle

end Sched

end RaxzusHeap
