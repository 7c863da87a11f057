import RaxzusHeap.Machine
import RaxzusHeap.Lib.Chain
import RaxzusHeap.Lib.RoundRobin

/-! # The scheduler (`process_manager.c`)

`schedule` walks the process list from the process after the current one, counts down every
sleeper it passes and takes the first process that is then awake.  Process control blocks
are records found by address here; the list is threaded through their `next` fields and
closed into a circle by `process_lists`.

`Sched.schedule` is a scan of `Lib.RoundRobin` over that circle (`schedule_eq_scan`), so it
always ends (`schedule_closed_form` says where and with which timers).  It counts the tick
for the processes it passes only: `schedule_counts_iff` says for which lists and current
processes that is everybody. -/

namespace RaxzusHeap

open Linked RoundRobin

def PROC_STACK_VIRT : ℕ := 0xBFFFF000
def PROC_STACK_SIZE : ℕ := 4096
def PROC_CODE_VIRT : ℕ := 0x10000000

/-- The words `create_process` pushes on a new stack: the frame of `iret`, then that of
`popa`. -/
def initialFrame (func : ℕ) (isUser : Bool) : List ℕ :=
  (if isUser then [0x23, PROC_STACK_VIRT + PROC_STACK_SIZE, 0x202, 0x1B, PROC_CODE_VIRT]
    else [0x202, 0x08, func]) ++ [0, 0, 0, 0, 0, 0, 0, 0]

/-- `struct PCB`, without the fields that no code uses. -/
structure PCB where
  savedEsp : Word
  pageDir : Word
  stackTop : Word
  pid : ℕ
  sleepTime : ℤ
  kernelStackTop : Word
  next : Word
  prev : Word
deriving DecidableEq

/-- The variables of `process_manager.c`, the process control blocks and `tss.esp0`. -/
structure Sched where
  pcb : Word → PCB
  processLists : Word
  currentProcess : Word
  nextProcess : Word
  currentIndex : ℕ
  blinkCounter : ℕ
  esp0 : Word

namespace Sched

/-- Update the block at address `a`. -/
def setPcb (s : Sched) (a : Word) (f : PCB → PCB) : Sched :=
  { s with pcb := fun b => if b = a then f (s.pcb a) else s.pcb b }

/-- `tss_set_kernel_stack`. -/
def tssSetKernelStack (s : Sched) (stack : Word) : Sched := { s with esp0 := stack }

/-- One turn of the loop of `schedule`; its `sim_current` is `next_process` afterwards. -/
def scheduleTurn (s : Sched) (simCurrent : Word) : Sched :=
  let next :=
    if (s.pcb simCurrent).next ≠ 0 then (s.pcb simCurrent).next else s.processLists
  let s := { s with nextProcess := next }
  if 0 < (s.pcb next).sleepTime then
    s.setPcb next fun p => { p with sleepTime := p.sleepTime - 1 }
  else s

/-- The loop of `schedule`, `none` when `fuel` turns are not enough. -/
def scheduleLoop : ℕ → Sched → Word → Option Sched
  | 0, _, _ => none
  | fuel + 1, s, simCurrent =>
      let s' := s.scheduleTurn simCurrent
      if 0 < (s'.pcb s'.nextProcess).sleepTime then scheduleLoop fuel s' s'.nextProcess
      else some s'

/-- `schedule`. -/
def schedule (fuel : ℕ) (s : Sched) : Option Sched := do
  let s' ← scheduleLoop fuel s s.currentProcess
  pure (s'.tssSetKernelStack (s'.pcb s'.nextProcess).kernelStackTop)

/-- The counter that `timer_interrupt_handler` keeps for `cursor_blinker`. -/
def countBlink (s : Sched) : Sched :=
  let count := u32 (s.blinkCounter + 1)
  { s with blinkCounter := if 50 ≤ count then 0 else count }

/-- `timer_interrupt_handler`. -/
def timerInterruptHandler (fuel : ℕ) (s : Sched) : Option Sched := s.countBlink.schedule fuel

/-- The walk of `create_process` to the end of the list, `none` when `fuel` steps are not
enough. -/
def walkToLast : ℕ → Sched → Word → Option Word
  | 0, _, _ => none
  | fuel + 1, s, current =>
      if (s.pcb current).next ≠ 0 then walkToLast fuel s (s.pcb current).next else some current

/-- The end of `create_process`: the new block becomes the list or its last element. -/
def addToList (fuel : ℕ) (s : Sched) (newProcess : Word) : Option Sched :=
  if s.currentIndex = 0 then
    some { s with processLists := newProcess, currentIndex := (s.currentIndex + 1) % 2 ^ 16 }
  else do
    let s := { s with currentIndex := (s.currentIndex + 1) % 2 ^ 16 }
    let current ← walkToLast fuel s s.processLists
    let s := s.setPcb current fun p => { p with next := newProcess }
    pure (s.setPcb newProcess fun p => { p with prev := current })

/-- The process after the one at `a`. -/
def succ (s : Sched) (a : Word) : Word :=
  if (s.pcb a).next ≠ 0 then (s.pcb a).next else s.processLists

/-- The `sleep_time` of every process. -/
def sleep (s : Sched) (a : Word) : ℤ := (s.pcb a).sleepTime

/-- The same list with other timers and another `next_process`. -/
def withSleep (s : Sched) (t : Word → ℤ) (q : Word) : Sched :=
  { s with
    pcb := fun a => { s.pcb a with sleepTime := t a }
    nextProcess := q }

@[simp] theorem withSleep_sleep (s : Sched) (t : Word → ℤ) (q a : Word) :
    (s.withSleep t q).sleep a = t a := rfl

@[simp] theorem withSleep_succ (s : Sched) (t : Word → ℤ) (q a : Word) :
    (s.withSleep t q).succ a = s.succ a := rfl

@[simp] theorem withSleep_withSleep (s : Sched) (t t' : Word → ℤ) (q q' : Word) :
    (s.withSleep t q).withSleep t' q' = s.withSleep t' q' := rfl

theorem scheduleTurn_eq (s : Sched) (a : Word) :
    s.scheduleTurn a = s.withSleep (countDown s.sleep (s.succ a)) (s.succ a) := by
  have hturn : s.scheduleTurn a =
      if 0 < s.sleep (s.succ a) then
        ({ s with nextProcess := s.succ a } : Sched).setPcb (s.succ a)
          fun p => { p with sleepTime := p.sleepTime - 1 }
      else { s with nextProcess := s.succ a } := rfl
  rw [hturn]
  split
  · rename_i hpos
    simp only [setPcb, withSleep, Sched.mk.injEq, and_true]
    funext b
    by_cases hb : b = s.succ a
    · subst hb
      rw [if_pos rfl, countDown_same, if_pos hpos]
      rfl
    · rw [if_neg hb, countDown_ne _ hb]
      rfl
  · rename_i hpos
    simp only [withSleep, Sched.mk.injEq, and_true]
    funext b
    by_cases hb : b = s.succ a
    · subst hb
      rw [countDown_same, if_neg hpos]
      rfl
    · rw [countDown_ne _ hb]
      rfl

theorem scheduleLoop_eq (fuel : ℕ) (s : Sched) (a : Word) :
    scheduleLoop fuel s a =
      (scan s.succ fuel s.sleep a).map fun r => s.withSleep r.1 r.2 := by
  induction fuel generalizing s a with
  | zero => rfl
  | succ n ih =>
      rw [scheduleLoop, scan]
      show (if 0 < (s.scheduleTurn a).sleep (s.scheduleTurn a).nextProcess then _ else _) = _
      rw [scheduleTurn_eq]
      show (if 0 < countDown s.sleep (s.succ a) (s.succ a) then _ else _) = _
      split
      · rw [ih]
        rfl
      · rfl

theorem schedule_eq_scan (fuel : ℕ) (s : Sched) :
    s.schedule fuel = (scan s.succ fuel s.sleep s.currentProcess).map fun r =>
      (s.withSleep r.1 r.2).tssSetKernelStack (s.pcb r.2).kernelStackTop := by
  rw [schedule, scheduleLoop_eq]
  cases scan s.succ fuel s.sleep s.currentProcess <;> rfl

/-- The processes of the list that starts at `process_lists`. -/
def ProcessList (s : Sched) (l : List Word) : Prop :=
  Chain (fun a => some (s.pcb a).next) 0 s.processLists l

/-- The order in which `schedule` asks the processes: those after the current one, those
before it, and last the current one. -/
def turnOrder (s : Sched) (l : List Word) : List Word :=
  l.rotate (l.idxOf s.currentProcess + 1)

theorem mem_turnOrder {s : Sched} {l : List Word} {a : Word} : a ∈ s.turnOrder l ↔ a ∈ l :=
  List.mem_rotate

theorem turnOrder_eq {s : Sched} {l xs ys : List Word} (h : l = xs ++ s.currentProcess :: ys)
    (hnd : l.Nodup) : s.turnOrder l = ys ++ (xs ++ [s.currentProcess]) := by
  have hidx : l.idxOf s.currentProcess = xs.length := by
    rw [h] at hnd ⊢
    have hmem : s.currentProcess ∉ xs := fun hmem =>
      (List.nodup_append.mp hnd).2.2 _ hmem _ List.mem_cons_self rfl
    rw [List.idxOf_append_of_notMem hmem, List.idxOf_cons_self, Nat.add_zero]
  have hlen : xs.length + 1 = (xs ++ [s.currentProcess]).length := by simp
  rw [turnOrder, hidx, hlen, h, List.append_cons, List.rotate_append_length_eq]

/-- The list is closed into a circle. -/
theorem ProcessList.ring {s : Sched} {l : List Word} (h : ProcessList s l)
    (hcur : s.currentProcess ∈ l) : Ring s.succ s.currentProcess (s.turnOrder l) := by
  obtain ⟨xs, ys, hl⟩ := List.append_of_mem hcur
  have hne : s.processLists ≠ 0 := fun h0 => by
    unfold ProcessList at h
    rw [h0] at h
    rw [h.eq_nil] at hcur
    cases hcur
  have hlinks : l.IsChain fun x y => s.succ x = y := by
    refine List.IsChain.imp_of_mem_imp (fun x y hx hy hxy => ?_) h.isChain
    have hy0 : y ≠ 0 := h.ne_null hy
    rw [Option.some.injEq] at hxy
    rw [succ, hxy, if_pos hy0]
  rw [turnOrder_eq hl h.nodup]
  refine ⟨?_, by simp, ?_⟩
  · rw [← List.cons_append]
    refine List.isChain_append.mpr ⟨?_, ?_, fun x hx y hy => ?_⟩
    · exact hlinks.suffix ⟨xs, hl.symm⟩
    · exact hlinks.prefix ⟨ys, by rw [hl]; simp⟩
    · -- from the last process of the list to the first
      have hxl : l.getLast? = some x := by
        rw [hl, List.getLast?_append, hx]
        rfl
      have hyl : l.head? = some y := by
        rw [← hy, hl]
        cases xs <;> rfl
      have hnext := h.next_of_getLast? hxl
      rw [Option.some.injEq] at hnext
      rw [succ, hnext, if_neg (by simp)]
      exact Option.some.inj ((h.head?_eq hne).symm.trans hyl)
  · have := h.nodup
    rw [hl] at this
    rw [← turnOrder_eq hl h.nodup]
    exact List.nodup_rotate.mpr h.nodup

variable {s s' : Sched} {l : List Word} {fuel : ℕ}

theorem schedule_eq_some (hrun : s.schedule fuel = some s') :
    scan s.succ fuel s.sleep s.currentProcess = some (s'.sleep, s'.nextProcess) ∧
      s' = (s.withSleep s'.sleep s'.nextProcess).tssSetKernelStack
        (s.pcb s'.nextProcess).kernelStackTop := by
  rw [schedule_eq_scan, Option.map_eq_some_iff] at hrun
  obtain ⟨⟨t, q⟩, hscan, rfl⟩ := hrun
  exact ⟨hscan, rfl⟩

theorem schedule_unique {m n : ℕ} {s₁ s₂ : Sched} (h₁ : s.schedule m = some s₁)
    (h₂ : s.schedule n = some s₂) : s₁ = s₂ := by
  obtain ⟨hscan₁, he₁⟩ := schedule_eq_some h₁
  obtain ⟨hscan₂, he₂⟩ := schedule_eq_some h₂
  obtain ⟨hsleep, hnext⟩ := scan_unique hscan₁ hscan₂
  rw [he₁, he₂, hsleep, hnext]

theorem schedule_next (hawake : s.sleep (s.succ s.currentProcess) ≤ 0)
    (hrun : s.schedule fuel = some s') : s'.nextProcess = s.succ s.currentProcess := by
  obtain ⟨hscan, -⟩ := schedule_eq_some hrun
  cases fuel with
  | zero => cases hscan
  | succ n =>
      have hle := countDown_le s.sleep (s.succ s.currentProcess) (s.succ s.currentProcess)
      rw [scan, if_neg (by omega)] at hscan
      exact (Prod.ext_iff.mp (Option.some.inj hscan)).2.symm

theorem ProcessList.schedule_mem (h : ProcessList s l) (hcur : s.currentProcess ∈ l)
    (hrun : s.schedule fuel = some s') : s'.nextProcess ∈ l ∧ s'.sleep s'.nextProcess ≤ 0 := by
  obtain ⟨hmem, hawake, -⟩ := (h.ring hcur).scan_spec (schedule_eq_some hrun).1
  exact ⟨mem_turnOrder.mp hmem, hawake⟩

theorem ProcessList.exists_schedule (h : ProcessList s l) (hcur : s.currentProcess ∈ l) :
    ∃ fuel s', s.schedule fuel = some s' := by
  obtain ⟨n, t, q, hscan⟩ := (h.ring hcur).exists_scan s.sleep
  exact ⟨n, _, by rw [schedule_eq_scan, hscan]; rfl⟩

/-- The walk ends at the last process. -/
theorem walkToLast_spec {a c : Word} (h : Chain (fun a => some (s.pcb a).next) 0 a l)
    (hc : l.getLast? = some c) :
    s.walkToLast l.length a = some c ∧
      ∀ fuel b, s.walkToLast fuel a = some b → b = c := by
  induction h with
  | nil => cases hc
  | @cons d e t hne hd ht ih =>
      rw [Option.some.injEq] at hd
      cases ht with
      | nil =>
          obtain rfl : d = c := Option.some.inj hc
          refine ⟨by rw [List.length_singleton, walkToLast, hd, if_neg (by simp)],
            fun fuel b hb => ?_⟩
          cases fuel with
          | zero => cases hb
          | succ n =>
              rw [walkToLast, hd, if_neg (by simp)] at hb
              exact (Option.some.inj hb).symm
      | @cons _ g t hne' he ht' =>
          rw [List.getLast?_cons_cons] at hc
          obtain ⟨hn, huniq⟩ := ih hc
          refine ⟨by rw [List.length_cons, walkToLast, hd, if_pos hne', hn], fun fuel b hb => ?_⟩
          cases fuel with
          | zero => cases hb
          | succ m =>
              rw [walkToLast, hd, if_pos hne'] at hb
              exact huniq m b hb

/-- What `addToList` leaves alone. -/
structure Added (s s' : Sched) : Prop where
  current : s'.currentProcess = s.currentProcess
  esp0 : s'.esp0 = s.esp0
  pcb : ∀ a, ∃ n p, s'.pcb a = { s.pcb a with next := n, prev := p }

theorem addToList_first {new : Word} (hidx : s.currentIndex = 0) (hne : new ≠ 0)
    (hnext : (s.pcb new).next = 0) (hrun : s.addToList fuel new = some s') :
    ProcessList s' [new] ∧ s'.currentIndex = 1 ∧ Added s s' := by
  rw [addToList, if_pos hidx, Option.some.injEq] at hrun
  subst hrun
  refine ⟨.cons hne (congrArg some hnext) .nil, by simp [hidx], rfl, rfl, fun a => ⟨_, _, rfl⟩⟩

theorem ProcessList.addToList_eq {new : Word} (h : ProcessList s l) (hl : l ≠ [])
    (hidx : s.currentIndex ≠ 0) (hrun : s.addToList fuel new = some s') :
    ∃ d, l.getLast? = some d ∧
      s' = (({ s with currentIndex := (s.currentIndex + 1) % 2 ^ 16 } : Sched).setPcb d
        fun p => { p with next := new }).setPcb new fun p => { p with prev := d } := by
  obtain ⟨c, hc⟩ : ∃ c, l.getLast? = some c := ⟨_, List.getLast?_eq_some_getLast hl⟩
  rw [Sched.addToList, if_neg hidx] at hrun
  simp only [Option.bind_eq_bind, Option.bind_eq_some_iff, Option.pure_def,
    Option.some.injEq] at hrun
  obtain ⟨d, hwalk, rfl⟩ := hrun
  obtain rfl := (walkToLast_spec (s := { s with currentIndex := (s.currentIndex + 1) % 2 ^ 16 })
    h hc).2 fuel d hwalk
  exact ⟨d, hc, rfl⟩

theorem ProcessList.exists_addToList {new : Word} (h : ProcessList s l) (hl : l ≠ []) :
    ∃ s', s.addToList l.length new = some s' := by
  by_cases hidx : s.currentIndex = 0
  · exact ⟨_, if_pos hidx⟩
  · obtain ⟨c, hc⟩ : ∃ c, l.getLast? = some c := ⟨_, List.getLast?_eq_some_getLast hl⟩
    have hwalk :=
      (walkToLast_spec (s := { s with currentIndex := (s.currentIndex + 1) % 2 ^ 16 }) h hc).1
    simp only [Sched.addToList, if_neg hidx, hwalk, Option.bind_eq_bind, Option.bind_some,
      Option.pure_def]
    exact ⟨_, rfl⟩

/-- A further process is appended. -/
theorem ProcessList.addToList {new : Word} (h : ProcessList s l) (hl : l ≠ [])
    (hidx : s.currentIndex = l.length) (hfew : l.length + 1 < 2 ^ 16) (hne : new ≠ 0)
    (hmem : new ∉ l) (hnext : (s.pcb new).next = 0) (hrun : s.addToList fuel new = some s') :
    ProcessList s' (l ++ [new]) ∧ s'.currentIndex = l.length + 1 ∧ Added s s' := by
  have hlen := List.length_pos_iff.mpr hl
  obtain ⟨d, hc, rfl⟩ := h.addToList_eq hl (by omega) hrun
  have hdl : d ∈ l := List.mem_of_getLast? hc
  have hdn : new ≠ d := fun e => hmem (e ▸ hdl)
  refine ⟨?_, ?_, rfl, rfl, fun a => ?_⟩
  · refine Chain.snoc h hc hne ?_ ?_ fun x hx hxd => ?_
    · simp [setPcb, hdn.symm]
    · simp [setPcb, hdn, hnext]
    · have hxn : x ≠ new := fun e => hmem (e ▸ hx)
      simp [setPcb, hxn, hxd]
  · show (s.currentIndex + 1) % 2 ^ 16 = l.length + 1
    omega
  · by_cases han : a = new
    · subst han
      exact ⟨(s.pcb a).next, d, by simp [setPcb, hdn]⟩
    · by_cases had : a = d
      · subst had
        exact ⟨new, (s.pcb a).prev, by simp [setPcb, han]⟩
      · exact ⟨(s.pcb a).next, (s.pcb a).prev, by simp [setPcb, han, had]⟩

/-- A call of `schedule` takes one tick off every sleeper and leaves the others at zero. -/
def CountsTick (s : Sched) (l : List Word) : Prop :=
  ∃ fuel s', s.schedule fuel = some s' ∧
    ∀ a ∈ l, s'.sleep a = if 0 < s.sleep a then s.sleep a - 1 else 0

/-- Some process has at most one tick left, and those asked after the first such process are
awake. -/
def RestAwake (s : Sched) (l : List Word) : Prop :=
  ∃ xs p ys, s.turnOrder l = xs ++ p :: ys ∧ (∀ x ∈ xs, 1 < s.sleep x) ∧ s.sleep p ≤ 1 ∧
    ∀ y ∈ ys, s.sleep y = 0

/-- What the scan of `schedule` counts is what the ring of the list counts. -/
theorem ProcessList.counted_iff (h : ProcessList s l) (hcur : s.currentProcess ∈ l)
    (hnonneg : ∀ a ∈ l, 0 ≤ s.sleep a) (hrun : s.schedule fuel = some s') :
    (∀ a ∈ l, s'.sleep a = if 0 < s.sleep a then s.sleep a - 1 else 0) ↔ s.RestAwake l := by
  have hring := (h.ring hcur).counted_iff (fun a ha => hnonneg a (mem_turnOrder.mp ha))
    (schedule_eq_some hrun).1
  refine Iff.trans (forall_congr' fun a => ?_) hring
  rw [mem_turnOrder]
  refine forall_congr' fun ha => ?_
  have h0 := hnonneg a ha
  split
  · exact Iff.rfl
  · rw [show s.sleep a = 0 by omega]

/-- `n` timer ticks, each from a state that meets `RestAwake` and each followed by the switch
to the chosen process. -/
inductive CountedTicks (l : List Word) : ℕ → Sched → Sched → Prop where
  | nil (s : Sched) : CountedTicks l 0 s s
  | tick {n fuel : ℕ} {s s₁ s₂ : Sched} : CountedTicks l n s s₁ → s₁.RestAwake l →
      s₁.timerInterruptHandler fuel = some s₂ →
      CountedTicks l (n + 1) s { s₂ with currentProcess := s₂.nextProcess }

theorem countBlink_eq (s : Sched) : ∃ k, s.countBlink = { s with blinkCounter := k } :=
  ⟨_, rfl⟩

/-- What a timer interrupt does to the variables of the scheduler. -/
structure Handled (s s' : Sched) (l : List Word) : Prop where
  list : ProcessList s' l
  current : s'.currentProcess = s.currentProcess
  index : s'.currentIndex = s.currentIndex
  next : s'.nextProcess ∈ l
  esp0 : s'.esp0 = (s'.pcb s'.nextProcess).kernelStackTop
  pcb : ∀ a, ∃ t, s'.pcb a = { s.pcb a with sleepTime := t }

theorem ProcessList.handled (h : ProcessList s l) (hcur : s.currentProcess ∈ l)
    (hrun : s.timerInterruptHandler fuel = some s') : Handled s s' l := by
  obtain ⟨k, hk⟩ := s.countBlink_eq
  rw [timerInterruptHandler, hk] at hrun
  have hlist : ProcessList { s with blinkCounter := k } l := h
  have hnext := (hlist.schedule_mem hcur hrun).1
  have heq := (schedule_eq_some hrun).2
  refine ⟨?_, by rw [heq]; rfl, by rw [heq]; rfl, hnext, by rw [heq]; rfl, fun a => ?_⟩
  · rw [heq]
    exact h
  · exact ⟨s'.sleep a, by rw [heq]; rfl⟩

theorem ProcessList.exists_handled (h : ProcessList s l) (hcur : s.currentProcess ∈ l) :
    ∃ fuel s', s.timerInterruptHandler fuel = some s' :=
  ProcessList.exists_schedule (s := s.countBlink) h hcur

theorem ProcessList.handled_second {a b : Word} (h : ProcessList s [a, b])
    (hcur : s.currentProcess = a) (hawake : s.sleep b ≤ 0)
    (hrun : s.timerInterruptHandler fuel = some s') : s'.nextProcess = b := by
  obtain ⟨k, hk⟩ := s.countBlink_eq
  rw [timerInterruptHandler, hk] at hrun
  have hsucc : s.succ a = b := by
    have hnext : (s.pcb a).next = b := by simpa using h.isChain
    have hb : b ≠ 0 := h.ne_null (by simp)
    rw [succ, hnext, if_pos hb]
  refine (schedule_next ?_ hrun).trans ?_
  · show s.sleep (s.succ s.currentProcess) ≤ 0
    rwa [hcur, hsucc]
  · show s.succ s.currentProcess = b
    rw [hcur, hsucc]

theorem ProcessList.tick (h : ProcessList s l) (hrun : s.timerInterruptHandler fuel = some s') :
    ProcessList { s' with currentProcess := s'.nextProcess } l := by
  obtain ⟨k, hk⟩ := s.countBlink_eq
  rw [timerInterruptHandler, hk] at hrun
  rw [(schedule_eq_some hrun).2]
  exact h

/-- The timers after `n` ticks. -/
theorem CountedTicks.sleep_eq {n : ℕ} (hticks : CountedTicks l n s s') (h : ProcessList s l)
    (hcur : s.currentProcess ∈ l) (hnonneg : ∀ a ∈ l, 0 ≤ s.sleep a) :
    ProcessList s' l ∧ s'.currentProcess ∈ l ∧
      ∀ a ∈ l, s'.sleep a = max 0 (s.sleep a - n) := by
  induction hticks with
  | nil s => exact ⟨h, hcur, fun a ha => by have := hnonneg a ha; omega⟩
  | @tick n fuel s s₁ s₂ _ hrest hrun ih =>
      obtain ⟨hlist, hmem, hsleep⟩ := ih h hcur hnonneg
      refine ⟨hlist.tick hrun, ?_⟩
      obtain ⟨k, hk⟩ := s₁.countBlink_eq
      rw [timerInterruptHandler, hk] at hrun
      have hlist' : ProcessList { s₁ with blinkCounter := k } l := hlist
      have h0 : ∀ a ∈ l, 0 ≤ s₁.sleep a := fun a ha => by
        rw [hsleep a ha]
        exact le_max_left _ _
      refine ⟨(hlist'.schedule_mem hmem hrun).1, fun a ha => ?_⟩
      have hdown := (hlist'.counted_iff hmem h0 hrun).mpr hrest a ha
      show s₂.sleep a = _
      rw [hdown]
      show (if 0 < s₁.sleep a then s₁.sleep a - 1 else 0) = _
      rw [hsleep a ha]
      push_cast
      split <;> omega

/-- For which lists and current processes a call of `schedule` counts the tick of every
sleeper, and what a run of such calls adds up to. -/
theorem schedule_counts_iff (s : Sched) (l : List Word) (h : ProcessList s l)
    (hcur : s.currentProcess ∈ l) (hnonneg : ∀ a ∈ l, 0 ≤ s.sleep a) :
    (s.CountsTick l ↔ s.RestAwake l) ∧
      ∀ n s', CountedTicks l n s s' → ∀ a ∈ l, s'.sleep a = max 0 (s.sleep a - n) := by
  refine ⟨⟨?_, fun hrest => ?_⟩, fun n s' hticks =>
    (hticks.sleep_eq h hcur hnonneg).2.2⟩
  · rintro ⟨fuel, s', hrun, hcount⟩
    exact (h.counted_iff hcur hnonneg hrun).mp hcount
  · obtain ⟨fuel, s', hrun⟩ := h.exists_schedule hcur
    exact ⟨fuel, s', hrun, (h.counted_iff hcur hnonneg hrun).mpr hrest⟩

/-- The whole rounds of the list that a process sleeps through. -/
def rounds (s : Sched) (a : Word) : ℤ := max (s.sleep a - 1) 0

/-- What one call of `schedule` does: it takes the process with the fewest rounds to sleep, the
first such one in turn order (position `k`), and takes off every timer how often the walk met its
process. -/
structure Scheduled (s s' : Sched) (l : List Word) (k : ℕ) : Prop where
  next : (s.turnOrder l)[k]? = some s'.nextProcess
  least : ∀ j a, (s.turnOrder l)[j]? = some a →
    toLex (s.rounds s'.nextProcess, k) ≤ toLex (s.rounds a, j)
  chosen : s'.sleep s'.nextProcess = 0
  before : ∀ j a, (s.turnOrder l)[j]? = some a → j < k →
    s'.sleep a = s.sleep a - (s.rounds s'.nextProcess + 1)
  after : ∀ j a, (s.turnOrder l)[j]? = some a → k < j →
    s'.sleep a = s.sleep a - s.rounds s'.nextProcess
  others : ∀ a, a ∉ l → s'.sleep a = s.sleep a
  kept : ∀ a, s'.pcb a = { s.pcb a with sleepTime := s'.sleep a }
  vars : s'.processLists = s.processLists ∧ s'.currentProcess = s.currentProcess ∧
    s'.currentIndex = s.currentIndex ∧ s'.blinkCounter = s.blinkCounter
  esp0 : s'.esp0 = (s.pcb s'.nextProcess).kernelStackTop

/-- A split of the turn order at the chosen process gives every position. -/
theorem ProcessList.scheduled (h : ProcessList s l) (hcur : s.currentProcess ∈ l)
    (hnonneg : ∀ a ∈ l, 0 ≤ s.sleep a) (hrun : s.schedule fuel = some s') :
    ∃ k, Scheduled s s' l k := by
  obtain ⟨hscan, heq⟩ := schedule_eq_some hrun
  have hring := h.ring hcur
  obtain ⟨xs, ys, hturn, hbefore, hafter, hchosen⟩ :=
    hring.scan_closed (fun a ha => hnonneg a (mem_turnOrder.mp ha)) hscan
  have hout := (hring.scan_spec hscan).2.2
  -- what stands at position `j` of the turn order
  have hleft : ∀ j a, (s.turnOrder l)[j]? = some a → j < xs.length → a ∈ xs := by
    intro j a hj hlt
    rw [hturn, List.getElem?_append_left hlt] at hj
    exact List.mem_of_getElem? hj
  have hright : ∀ j a, (s.turnOrder l)[j]? = some a → xs.length < j → a ∈ ys := by
    intro j a hj hlt
    obtain ⟨i, rfl⟩ : ∃ i, j = xs.length + (i + 1) := ⟨j - xs.length - 1, by omega⟩
    rw [hturn, List.getElem?_append_right (by omega), Nat.add_sub_cancel_left,
      List.getElem?_cons_succ] at hj
    exact List.mem_of_getElem? hj
  have hnext : (s.turnOrder l)[xs.length]? = some s'.nextProcess := by
    rw [hturn, List.getElem?_append_right le_rfl, Nat.sub_self, List.getElem?_cons_zero]
  refine ⟨xs.length, ?_⟩
  constructor
  case next => exact hnext
  case least =>
    intro j a hj
    rw [Prod.Lex.toLex_le_toLex]
    rcases Nat.lt_trichotomy j xs.length with hlt | rfl | hlt
    · exact .inl (hbefore a (hleft j a hj hlt)).1
    · obtain rfl := Option.some.inj (hnext.symm.trans hj)
      exact .inr ⟨rfl, le_rfl⟩
    · rcases (hafter a (hright j a hj hlt)).1.lt_or_eq with hr | hr
      · exact .inl hr
      · exact .inr ⟨hr, hlt.le⟩
  case chosen => exact hchosen
  case before => exact fun j a hj hlt => (hbefore a (hleft j a hj hlt)).2
  case after => exact fun j a hj hlt => (hafter a (hright j a hj hlt)).2
  case others => exact fun a ha => hout a fun hmem => ha (mem_turnOrder.mp hmem)
  case kept =>
    intro a
    rw [heq]
    rfl
  case vars =>
    rw [heq]
    exact ⟨rfl, rfl, rfl, rfl⟩
  case esp0 =>
    rw [heq]
    rfl

/-- `schedule` returns, whatever more fuel it is given, and this is what it has done. -/
theorem schedule_closed_form (s : Sched) (l : List Word) (h : ProcessList s l)
    (hcur : s.currentProcess ∈ l) (hnonneg : ∀ a ∈ l, 0 ≤ s.sleep a) :
    ∃ n s', (∀ fuel, n ≤ fuel → s.schedule fuel = some s') ∧ ∃ k, Scheduled s s' l k := by
  obtain ⟨n, s', hrun⟩ := h.exists_schedule hcur
  refine ⟨n, s', fun fuel hle => ?_, h.scheduled hcur hnonneg hrun⟩
  obtain ⟨hscan, heq⟩ := schedule_eq_some hrun
  rw [schedule_eq_scan, scan_mono hscan hle, Option.map_some, heq]
  rfl

/-- Three processes on the first blocks of `heap_128`: the first runs, the second is awake
and the third has `ticks` ticks to sleep. -/
def oneSleeper (ticks : ℤ) : Sched where
  pcb a :=
    if a = 0x20000000#32 then ⟨0, 0, 0, 0, 0, 0, 0x20000080, 0⟩
    else if a = 0x20000080#32 then ⟨0, 0, 0, 1, 0, 0, 0x20000100, 0x20000000⟩
    else ⟨0, 0, 0, 2, ticks, 0, 0, 0x20000080⟩
  processLists := 0x20000000
  currentProcess := 0x20000000
  nextProcess := 0x20000000
  currentIndex := 3
  blinkCounter := 0
  esp0 := 0

theorem oneSleeper_list (ticks : ℤ) :
    (oneSleeper ticks).ProcessList [0x20000000, 0x20000080, 0x20000100] := by
  refine .cons (b := 0x20000080) ?_ ?_ (.cons (b := 0x20000100) ?_ ?_ (.cons (b := 0) ?_ ?_ .nil))
  all_goals simp [oneSleeper]

theorem oneSleeper_nonneg {ticks : ℤ} (h : 0 ≤ ticks) :
    ∀ a ∈ [0x20000000#32, 0x20000080#32, 0x20000100#32], 0 ≤ (oneSleeper ticks).sleep a := by
  simp [oneSleeper, sleep, h]

/-- While the second process runs, the sleeper is asked first and its tick is counted. -/
theorem schedule_counts_iff_sleeper : ∃ fuel s',
    ({ oneSleeper 5 with currentProcess := 0x20000080 } : Sched).schedule fuel = some s' ∧
      s'.sleep 0x20000100 = 4 := by
  have horder : ({ oneSleeper 5 with currentProcess := 0x20000080 } : Sched).turnOrder
      [0x20000000, 0x20000080, 0x20000100] = [0x20000100, 0x20000000, 0x20000080] := by
    simp [turnOrder]
  have hrest : ({ oneSleeper 5 with currentProcess := 0x20000080 } : Sched).RestAwake
      [0x20000000, 0x20000080, 0x20000100] :=
    ⟨[0x20000100], 0x20000000, [0x20000080], horder, by simp [oneSleeper, sleep]⟩
  obtain ⟨fuel, s', hrun, hcount⟩ := (schedule_counts_iff
    { oneSleeper 5 with currentProcess := 0x20000080 } _ (oneSleeper_list 5) (by simp)
    (oneSleeper_nonneg (by decide))).1.mpr hrest
  have hsleeper := hcount 0x20000100 (by simp)
  exact ⟨fuel, s', hrun, by simpa [oneSleeper, sleep] using hsleeper⟩

theorem schedule_closed_form_sleeper :
    ∃ n s', (∀ fuel, n ≤ fuel → (oneSleeper 5).schedule fuel = some s') ∧
      ∃ k, Scheduled (oneSleeper 5) s' [0x20000000, 0x20000080, 0x20000100] k :=
  schedule_closed_form (oneSleeper 5) _ (oneSleeper_list 5) (by simp [oneSleeper])
    (oneSleeper_nonneg (by decide))

/-- The second process is awake, so the third one's tick is not counted. -/
theorem schedule_skips_sleeper :
    ¬ ∀ (s : Sched) (l : List Word), ProcessList s l → s.currentProcess ∈ l →
      (∀ a ∈ l, 0 ≤ s.sleep a) → s.CountsTick l := by
  intro hall
  obtain ⟨fuel, s', hrun, hcount⟩ :=
    hall (oneSleeper 5) _ (oneSleeper_list 5) (by simp [oneSleeper])
      (oneSleeper_nonneg (by decide))
  have hfirst : ∃ s₁, (oneSleeper 5).schedule 1 = some s₁ ∧ s₁.sleep 0x20000100#32 = 5 :=
    ⟨_, rfl, rfl⟩
  obtain ⟨s₁, hrun₁, hsleep⟩ := hfirst
  have hthird := hcount 0x20000100#32 (by simp)
  rw [schedule_unique hrun hrun₁, hsleep] at hthird
  exact absurd hthird (by simp [oneSleeper, sleep])

end Sched

end RaxzusHeap
