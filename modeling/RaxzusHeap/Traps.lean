import RaxzusHeap.ContextRuns

/-! # The other wrappers (`interrupt_stubs.s`)

`isr_wrapper_33` calls the keyboard handler between `pusha` and `popa`; `isr_wrapper_129` and the
wrappers of the faults also hand their handler the stack pointer, which it reads as a
`struct registers`.

* **Handlers.** `HandlerCall` is what a C function leaves: memory, and the three registers it need
  not keep.  What it must keep is the stack from its return address up (`KeepsStack`).
* **Pushes.** Everything between the interrupt and the call is one sequence of pushes
  (`Pushed`), so one lemma says what lies on the stack and one what `popa` and `iret` take from it,
  with any number of words between the two (`resumes`).

A keyboard interrupt is no more than a step of the process it interrupts
(`keyboard_transparent`).  The map of `struct registers` is right where the processor pushes an
error code (`fault_registers`), and one word off from there on in a system call
(`systemCall_registers`). -/

namespace RaxzusHeap

open Bytes Linked

/-- What the call of a C handler leaves. -/
structure HandlerCall where
  mem : Memory
  eax : Word
  ecx : Word
  edx : Word

/-- `struct registers`. -/
structure Registers where
  edi : Word
  esi : Word
  ebp : Word
  esp : Word
  ebx : Word
  edx : Word
  ecx : Word
  eax : Word
  errCode : Word
  eip : Word
  cs : Word
  eflags : Word
  userEsp : Word
  ss : Word
deriving DecidableEq

/-- The words at address `p`, read as a `struct registers`. -/
def Registers.read (m : Mem) (p : ℕ) : Registers where
  edi := loadWord m p
  esi := loadWord m (p + 4)
  ebp := loadWord m (p + 8)
  esp := loadWord m (p + 12)
  ebx := loadWord m (p + 16)
  edx := loadWord m (p + 20)
  ecx := loadWord m (p + 24)
  eax := loadWord m (p + 28)
  errCode := loadWord m (p + 32)
  eip := loadWord m (p + 36)
  cs := loadWord m (p + 40)
  eflags := loadWord m (p + 44)
  userEsp := loadWord m (p + 48)
  ss := loadWord m (p + 52)

namespace Os

/-- The processor raises a fault that has an error code. -/
def raiseFault (code : Word) (o : Os) : Os :=
  let eflags := o.cpu.eflags &&& ~~~ 0x200
  let o := o.pushInterruptFrame.pushAll [code]
  { o with cpu := { o.cpu with cs := 0x08, eflags := eflags } }

/-- `pushl %esp`. -/
def pushEsp (o : Os) : Os := o.pushAll [o.cpu.esp]

/-- `addl $n, %esp`. -/
def addEsp (n : Word) (o : Os) : Os := { o with cpu := { o.cpu with esp := o.cpu.esp + n } }

/-- A call of a C handler. -/
def callC (x : HandlerCall) (o : Os) : Os :=
  { o with mem := x.mem, cpu := { o.cpu with eax := x.eax, ecx := x.ecx, edx := x.edx } }

/-- `isr_wrapper_33`. -/
def isrWrapper33 (x : HandlerCall) (o : Os) : Os := (o.enterInterrupt.pusha.callC x).popa.iret

/-- `isr_wrapper_129` up to its call. -/
def systemCallState (o : Os) : Os := o.enterInterrupt.pusha.pushEsp

/-- `isr_wrapper_129`. -/
def isrWrapper129 (x : HandlerCall) (o : Os) : Os :=
  ((o.systemCallState.callC x).addEsp 4).popa.iret

/-- `isr_wrapper_8`, `isr_wrapper_13` and `isr_wrapper_14` up to their call. -/
def faultState (code : Word) (o : Os) : Os := (o.raiseFault code).pusha.pushEsp

/-- The text that `isr_wrapper_8`, `isr_wrapper_13` and `isr_wrapper_14` share. -/
def isrWrapperFault (code : Word) (x : HandlerCall) (o : Os) : Os :=
  ((((o.faultState code).callC x).addEsp 4).popa.addEsp 4).iret

/-- `isr_wrapper_13`. -/
def isrWrapper13 : Word → HandlerCall → Os → Os := isrWrapperFault

/-- `isr_wrapper_14`. -/
def isrWrapper14 : Word → HandlerCall → Os → Os := isrWrapperFault

/-- `isr_wrapper_8`. -/
def isrWrapper8 : Word → HandlerCall → Os → Os := isrWrapperFault

/-! ### Pushes -/

/-- `o₁` is `o` after `ws` were pushed from `sp` down. -/
structure Pushed (o : Os) (sp : Word) (ws : List Word) (o₁ : Os) : Prop where
  mem : o₁.mem = o.mem.setView o.cpu.cr3 (Bytes.pushAll o.view sp ws).1
  esp : o₁.cpu.esp = (Bytes.pushAll o.view sp ws).2
  cr3 : o₁.cpu.cr3 = o.cpu.cr3

namespace Pushed

variable {o o₁ : Os} {sp : Word} {ws : List Word}

theorem view (h : Pushed o sp ws o₁) : o₁.view = (Bytes.pushAll o.view sp ws).1 := by
  rw [Os.view, h.cr3, h.mem, Memory.view_setView]

theorem pushAll (h : Pushed o sp ws o₁) (ws' : List Word) :
    Pushed o sp (ws ++ ws') (o₁.pushAll ws') where
  mem := by
    change o₁.mem.setView o₁.cpu.cr3 (Bytes.pushAll o₁.view o₁.cpu.esp ws').1 = _
    rw [h.mem, h.cr3, h.view, h.esp, Memory.setView_setView, Bytes.pushAll_append]
  esp := by
    change (Bytes.pushAll o₁.view o₁.cpu.esp ws').2 = _
    rw [h.view, h.esp, Bytes.pushAll_append]
  cr3 := h.cr3

end Pushed

/-- The words the processor pushes. -/
def interruptWords (c : Cpu) : List Word :=
  if privilege c.cs = 0 then [c.eflags, c.cs, c.eip] else [c.ss, c.esp, c.eflags, c.cs, c.eip]

variable {o : Os}

theorem pushInterruptFrame_pushed (o : Os) :
    Pushed o o.entryStack (interruptWords o.cpu) o.pushInterruptFrame := by
  unfold pushInterruptFrame entryStack interruptWords
  by_cases ring : privilege o.cpu.cs = 0
  · simp only [ring, if_true, ne_eq, not_true_eq_false, if_false]
    exact ⟨rfl, rfl, rfl⟩
  · simp only [ring, if_false, ne_eq, not_false_eq_true, if_true]
    exact ⟨rfl, rfl, rfl⟩

theorem pushInterruptFrame_general (o : Os) (x : Word) :
    generalWords o.pushInterruptFrame.cpu x = generalWords o.cpu x := by
  unfold pushInterruptFrame
  dsimp only
  split <;> rfl

theorem pushInterruptFrame_sched (o : Os) : o.pushInterruptFrame.sched = o.sched := by
  unfold pushInterruptFrame
  dsimp only
  split <;> rfl

/-- The words on the stack after `pusha`, for the words that the processor pushed after its
frame. -/
def trapWords (c : Cpu) (codes : List Word) (x : Word) : List Word :=
  interruptWords c ++ codes ++ generalWords c x

theorem enterInterrupt_pushed (o : Os) : ∃ x,
    Pushed o o.entryStack (trapWords o.cpu [] x) o.enterInterrupt.pusha ∧
      o.enterInterrupt.pusha.cpu.cs = 0x08 ∧ o.enterInterrupt.pusha.sched = o.sched := by
  obtain ⟨mem, esp, cr3⟩ := pushInterruptFrame_pushed o
  have entered : Pushed o o.entryStack (interruptWords o.cpu) o.enterInterrupt := ⟨mem, esp, cr3⟩
  refine ⟨o.enterInterrupt.cpu.esp, ?_, rfl, pushInterruptFrame_sched o⟩
  rw [trapWords, List.append_nil, ← pushInterruptFrame_general]
  exact entered.pushAll _

theorem raiseFault_pushed (code : Word) (o : Os) : ∃ x,
    Pushed o o.entryStack (trapWords o.cpu [code] x) (o.raiseFault code).pusha ∧
      (o.raiseFault code).pusha.cpu.cs = 0x08 ∧ (o.raiseFault code).pusha.sched = o.sched := by
  obtain ⟨mem, esp, cr3⟩ := (pushInterruptFrame_pushed o).pushAll [code]
  have raised : Pushed o o.entryStack (interruptWords o.cpu ++ [code]) (o.raiseFault code) :=
    ⟨mem, esp, cr3⟩
  refine ⟨(o.raiseFault code).cpu.esp, ?_, rfl, pushInterruptFrame_sched o⟩
  rw [trapWords, ← pushInterruptFrame_general]
  exact raised.pushAll _

theorem length_trapWords (c : Cpu) (codes : List Word) (x : Word) :
    4 * (trapWords c codes x).length = c.frameSize + 4 * codes.length := by
  unfold trapWords interruptWords Context.frameSize
  split <;> simp [generalWords] <;> omega

theorem Pushed.spec {o₁ : Os} {sp : Word} {ws : List Word} (h : Pushed o sp ws o₁)
    (fit : 4 * ws.length ≤ sp.toNat) :
    o₁.cpu.esp.toNat = sp.toNat - 4 * ws.length ∧ Holds o₁.view o₁.cpu.esp.toNat ws.reverse ∧
      ∀ b a, (b = home o.cpu.cr3 a → a < o₁.cpu.esp.toNat ∨ sp.toNat ≤ a) → o₁.mem b a = o.mem b a :=
  pushes_spec fit h.mem h.esp h.cr3

/-! ### `popa` and `iret` -/

/-- The words that `popa` and `iret` take a context from, with `codes` between the two. -/
def trapFrame (c : Cpu) (codes : List Word) (x : Word) : List Word := (trapWords c codes x).reverse

theorem trapFrame_eq (c : Cpu) (codes : List Word) (x : Word) :
    trapFrame c codes x = [c.edi, c.esi, c.ebp, x, c.ebx, c.edx, c.ecx, c.eax] ++
      codes.reverse ++ [c.eip, c.cs, c.eflags] ++
      (if privilege c.cs = 0 then [] else [c.esp, c.ss]) := by
  unfold trapFrame trapWords interruptWords generalWords
  split <;> simp

theorem popa_top (o : Os) (k : ℕ) : o.popa.top k = o.top (k + 8) := by
  change stackWord o.view (o.cpu.esp + 32) k = stackWord o.view o.cpu.esp (k + 8)
  rw [stackWord, stackWord, show 4 * (k + 8) = 32 + 4 * k by omega, BitVec.ofNat_add,
    ← BitVec.add_assoc]
  rfl

theorem addEsp_top (o : Os) (n k : ℕ) : (o.addEsp (BitVec.ofNat 32 (4 * n))).top k = o.top (k + n) := by
  change stackWord o.view (o.cpu.esp + BitVec.ofNat 32 (4 * n)) k = stackWord o.view o.cpu.esp (k + n)
  rw [stackWord, stackWord, show 4 * (k + n) = 4 * n + 4 * k by omega, BitVec.ofNat_add,
    ← BitVec.add_assoc]

theorem trapFrame_general (c : Cpu) (codes : List Word) (x : Word) {k : ℕ} (hk : k < 8) :
    (trapFrame c codes x)[k]? = [c.edi, c.esi, c.ebp, x, c.ebx, c.edx, c.ecx, c.eax][k]? := by
  rw [trapFrame_eq, List.append_assoc, List.append_assoc, List.getElem?_append_left hk]

theorem trapFrame_interrupt (c : Cpu) (codes : List Word) (x : Word) (k : ℕ) :
    (trapFrame c codes x)[k + codes.length + 8]? =
      ([c.eip, c.cs, c.eflags] ++ if privilege c.cs = 0 then [] else [c.esp, c.ss])[k]? := by
  have eight : [c.edi, c.esi, c.ebp, x, c.ebx, c.edx, c.ecx, c.eax].length = 8 := rfl
  rw [trapFrame_eq, List.append_assoc, List.append_assoc,
    List.getElem?_append_right (by rw [eight]; omega), eight,
    List.getElem?_append_right (by rw [List.length_reverse]; omega), List.length_reverse]
  congr 1
  omega

/-- `popa`, dropping the words between, and `iret` resume the context `c` whose frame lies at the
stack pointer. -/
theorem resumes {o₁ : Os} {c : Cpu} {codes : List Word} {x : Word}
    (words : Holds o₁.view o₁.cpu.esp.toNat (trapFrame c codes x))
    (room : o₁.cpu.esp.toNat + 4 * (trapFrame c codes x).length ≤ 2 ^ 32)
    (ring : privilege o₁.cpu.cs = 0) (cr3 : o₁.cpu.cr3 = c.cr3)
    (esp : privilege c.cs = 0 → c.esp = o₁.cpu.esp + BitVec.ofNat 32 (44 + 4 * codes.length)) :
    (o₁.popa.addEsp (BitVec.ofNat 32 (4 * codes.length))).iret.cpu.toContext = c.toContext := by
  have top : ∀ k w, (trapFrame c codes x)[k]? = some w → o₁.top k = w := fun k w hk =>
    words.stackWord room hk
  have general : ∀ k w, k < 8 → [c.edi, c.esi, c.ebp, x, c.ebx, c.edx, c.ecx, c.eax][k]? = some w →
      o₁.top k = w := fun k w hk hw => top k w ((trapFrame_general c codes x hk).trans hw)
  set o₂ := o₁.popa.addEsp (BitVec.ofNat 32 (4 * codes.length)) with ho₂
  have interrupt : ∀ k w, ([c.eip, c.cs, c.eflags] ++
      if privilege c.cs = 0 then [] else [c.esp, c.ss])[k]? = some w → o₂.top k = w := by
    intro k w hw
    rw [ho₂, addEsp_top, popa_top]
    exact top _ w ((trapFrame_interrupt c codes x k).trans hw)
  have registers : o₂.cpu.toContext =
      { c.toContext with
        esp := o₁.cpu.esp + 32 + BitVec.ofNat 32 (4 * codes.length), eip := o₁.cpu.eip,
        cs := o₁.cpu.cs, eflags := o₁.cpu.eflags } := by
    change Context.mk (o₁.top 7) (o₁.top 4) (o₁.top 6) (o₁.top 5) (o₁.top 2) (o₁.top 1) (o₁.top 0)
      _ o₁.cpu.eip o₁.cpu.cs o₁.cpu.eflags o₁.cpu.cr3 = _
    rw [general 7 _ (by decide) rfl, general 4 _ (by decide) rfl, general 6 _ (by decide) rfl,
      general 5 _ (by decide) rfl, general 2 _ (by decide) rfl, general 1 _ (by decide) rfl,
      general 0 _ (by decide) rfl, cr3]
    rfl
  have eip := interrupt 0 c.eip rfl
  have cs := interrupt 1 c.cs rfl
  have eflags := interrupt 2 c.eflags rfl
  have inner : privilege o₂.cpu.cs = 0 := ring
  by_cases hk : privilege c.cs = 0
  · -- the frame of ring 0: the stack pointer goes on by the three words
    have last : o₂.iret.cpu.toContext = { o₂.cpu.toContext with
        eip := o₂.top 0, cs := o₂.top 1, eflags := o₂.top 2, esp := o₂.cpu.esp + 12 } := by
      unfold iret
      rw [cs, if_neg (by omega)]
    have sum : o₁.cpu.esp + 32 + BitVec.ofNat 32 (4 * codes.length) + 12 = c.esp := by
      have total : 32 + (4 * codes.length + 12) = 44 + 4 * codes.length := by omega
      rw [esp hk, ← total, BitVec.ofNat_add, BitVec.ofNat_add, ← BitVec.add_assoc,
        ← BitVec.add_assoc]
      rfl
    rw [last, registers, eip, cs, eflags]
    change Context.mk _ _ _ _ _ _ _ (o₁.cpu.esp + 32 + BitVec.ofNat 32 (4 * codes.length) + 12)
      _ _ _ _ = _
    rw [sum]
  · have last : o₂.iret.cpu.toContext = { o₂.cpu.toContext with
        eip := o₂.top 0, cs := o₂.top 1, eflags := o₂.top 2, esp := o₂.top 3 } := by
      unfold iret
      rw [cs, if_pos (by omega)]
    have user := interrupt 3 c.esp (by rw [if_neg hk]; rfl)
    rw [last, registers, eip, cs, eflags, user]

/-! ### The keyboard -/

/-- A C handler leaves the stack alone from where it was called up to `top`. -/
def KeepsStack (x : HandlerCall) (o : Os) (top : ℕ) : Prop :=
  ∀ a, o.cpu.esp.toNat ≤ a → a < top → x.mem.view o.cpu.cr3 a = o.view a

/-- A C handler leaves alone what the processes of `l` but the running one own. -/
def KeepsOthers (x : HandlerCall) (o : Os) (l : List Word) : Prop :=
  ∀ q ∈ l, q ≠ o.sched.currentProcess → ∀ b a, (o.sched.pcb q).Owns b a → x.mem b a = o.mem b a

theorem entryStack_esp {o₁ : Os} {n : ℕ} (hring : privilege o.cpu.cs = 0)
    (hesp : o₁.cpu.esp.toNat = o.entryStack.toNat - n) (fit : n ≤ o.entryStack.toNat) :
    o.cpu.esp = o₁.cpu.esp + BitVec.ofNat 32 n := by
  have entry : o.entryStack = o.cpu.esp := if_pos hring
  rw [entry] at hesp fit
  have := o.cpu.esp.isLt
  apply BitVec.eq_of_toNat_eq
  rw [BitVec.toNat_add, hesp, BitVec.toNat_ofNat]
  omega

theorem addEsp_zero (o : Os) : o.addEsp (BitVec.ofNat 32 (4 * 0)) = o := by
  unfold addEsp
  rw [show o.cpu.esp + BitVec.ofNat 32 (4 * 0) = o.cpu.esp from BitVec.add_zero _]

theorem holds_drop {m : Mem} {a : ℕ} {ws ws' : List Word} (h : Holds m a (ws ++ ws')) :
    Holds m (a + 4 * ws.length) ws' := by
  intro k w hk
  have := h (ws.length + k) w (by rw [List.getElem?_append_right (by omega)]; simpa using hk)
  rwa [show a + 4 * (ws.length + k) = a + 4 * ws.length + 4 * k by omega] at this

/-- A wrapper that pushed `extra` above its frame resumes what was interrupted, if its handler
kept the stack. -/
theorem returns {o₁ : Os} {x : HandlerCall} {codes extra : List Word} {y : Word}
    (h : Pushed o o.entryStack (trapWords o.cpu codes y ++ extra) o₁) (cs : o₁.cpu.cs = 0x08)
    (fit : o.cpu.frameSize + 4 * codes.length + 4 * extra.length ≤ o.entryStack.toNat)
    (keeps : KeepsStack x o₁ o.entryStack.toNat) :
    (((((o₁.callC x).addEsp (BitVec.ofNat 32 (4 * extra.length))).popa).addEsp
      (BitVec.ofNat 32 (4 * codes.length))).iret).cpu.toContext = o.cpu.toContext := by
  have length := length_trapWords o.cpu codes y
  have total : 4 * (trapWords o.cpu codes y ++ extra).length =
      o.cpu.frameSize + 4 * codes.length + 4 * extra.length := by
    rw [List.length_append]
    omega
  obtain ⟨low, words, -⟩ := h.spec (by omega)
  rw [total] at low
  have top := o.entryStack.isLt
  set o₂ := (o₁.callC x).addEsp (BitVec.ofNat 32 (4 * extra.length)) with ho₂
  have esp : o₂.cpu.esp.toNat = o₁.cpu.esp.toNat + 4 * extra.length := by
    change (o₁.cpu.esp + BitVec.ofNat 32 (4 * extra.length)).toNat = _
    rw [BitVec.toNat_add, BitVec.toNat_ofNat]
    omega
  have frame : Holds o₂.view o₂.cpu.esp.toNat (trapFrame o.cpu codes y) := by
    rw [List.reverse_append] at words
    have dropped := holds_drop words
    rw [List.length_reverse, ← esp] at dropped
    refine dropped.congr fun a h₁ h₂ => keeps a (by omega) ?_
    rw [List.length_reverse] at h₂
    omega
  have size : 4 * (trapFrame o.cpu codes y).length = o.cpu.frameSize + 4 * codes.length := by
    rw [trapFrame, List.length_reverse, length]
  refine resumes frame (by omega) ?_ h.cr3 fun ring => ?_
  · change privilege o₁.cpu.cs = 0
    rw [cs]
    rfl
  · have bytes : o.cpu.frameSize = 44 := if_pos ring
    rw [← bytes]
    exact entryStack_esp ring (by omega) (by omega)

theorem isrWrapper33_resumes {x : HandlerCall} (fit : o.cpu.frameSize ≤ o.entryStack.toNat)
    (keeps : KeepsStack x o.enterInterrupt.pusha o.entryStack.toNat) :
    (o.isrWrapper33 x).cpu.toContext = o.cpu.toContext := by
  obtain ⟨y, pushed, cs, -⟩ := enterInterrupt_pushed o
  have whole : Pushed o o.entryStack (trapWords o.cpu [] y ++ []) o.enterInterrupt.pusha := by
    rwa [List.append_nil]
  have back := returns whole cs (by simpa using fit) keeps
  rwa [List.length_nil, addEsp_zero, addEsp_zero] at back

theorem iret_popa_callC_mem (x : HandlerCall) (o : Os) : (o.callC x).popa.iret.mem = x.mem := by
  rw [iret_mem, popa_mem]
  rfl

theorem iret_popa_callC_sched (x : HandlerCall) (o : Os) :
    (o.callC x).popa.iret.sched = o.sched := by
  rw [iret_sched, popa_sched]
  rfl

theorem setPcb_same {s : Sched} {a : Word} {f : PCB → PCB} (h : f (s.pcb a) = s.pcb a) :
    s.setPcb a f = s := by
  have blocks : (fun b => if b = a then f (s.pcb a) else s.pcb b) = s.pcb := by
    funext b
    by_cases hb : b = a
    · rw [if_pos hb, h, hb]
    · rw [if_neg hb]
  unfold Sched.setPcb
  rw [blocks]

/-- For the processes, a keyboard interrupt is a step of the running one. -/
theorem Inv.keyboard {l : List Word} {ctx : Word → Context} {x : HandlerCall} {s : Scratch}
    (h : Inv o l ctx) (room : o.Room s) (stack : KeepsStack x o.enterInterrupt.pusha o.entryStack.toNat)
    (others : KeepsOthers x o.enterInterrupt.pusha l) :
    (o.isrWrapper33 x).cpu.toContext = o.cpu.toContext ∧ ProcessStep l o (o.isrWrapper33 x) := by
  obtain ⟨fit, owned⟩ := h.stack_owned room
  have context := isrWrapper33_resumes (by omega) stack
  obtain ⟨y, pushed, -, sched⟩ := enterInterrupt_pushed o
  have length := length_trapWords o.cpu [] y
  rw [List.length_nil, Nat.mul_zero, Nat.add_zero] at length
  obtain ⟨low, -, mem⟩ := pushed.spec (by omega)
  rw [length] at low
  refine ⟨context, ?_, ?_, fun q hq ne b a own => ?_, ?_⟩
  · exact congrArg Context.cr3 context
  · exact congrArg (fun c => privilege c.cs) context
  · rw [isrWrapper33, iret_popa_callC_mem, others q hq (by rwa [sched]) b a (by rwa [sched])]
    refine mem b a fun hb => ?_
    -- a byte of the frame would belong to two processes
    by_contra hin
    have mine := owned a (by omega) (by omega)
    rw [← hb] at mine
    exact h.places.apart q hq _ h.current ne b a own mine
  · refine ⟨(o.sched.pcb o.sched.currentProcess).sleepTime, ?_⟩
    rw [isrWrapper33, iret_popa_callC_sched, sched, setPcb_same rfl]

/-- In every run, a keyboard interrupt on a stack with room whose handler writes neither the stack
above its call nor what other processes own resumes the process it interrupted with the registers
it had, and the run goes on: `contexts_preserved` holds of runs with both kinds of interrupt. -/
theorem keyboard_transparent {l : List Word} {ctx : Word → Context} {x : HandlerCall}
    {s : Scratch} (run : Run o l ctx) (room : o.Room s)
    (stack : KeepsStack x o.enterInterrupt.pusha o.entryStack.toNat)
    (others : KeepsOthers x o.enterInterrupt.pusha l) :
    (o.isrWrapper33 x).cpu.toContext = o.cpu.toContext ∧ Run (o.isrWrapper33 x) l ctx := by
  obtain ⟨context, step⟩ := run.inv.keyboard room stack others
  exact ⟨context, run.step step⟩

/-- A key pressed while the first process is about to start. -/
theorem keyboard_transparent_first : ∃ o x, Starts idle 0 0xC0101000 firstProcess o ∧
    (o.isrWrapper33 x).cpu.toContext = initialContext 0xC0101000 false firstProcess.pageDir := by
  obtain ⟨o, start⟩ := firstProcess_starts
  obtain ⟨-, context, -⟩ := start.inv
  have esp : o.cpu.esp = BitVec.ofNat 32 (PROC_STACK_VIRT + PROC_STACK_SIZE) := by
    rw [show o.cpu.esp = o.cpu.toContext.esp from rfl, context]
    rfl
  have ring : privilege o.cpu.cs = 0 := by
    rw [show o.cpu.cs = o.cpu.toContext.cs from rfl, context, initialContext_privilege]
    rfl
  have room : o.Room ⟨0, fun _ => 0, 0, 0⟩ := by
    rw [Room, if_pos ring, esp]
    decide
  have kept := keyboard_transparent (x := ⟨o.enterInterrupt.pusha.mem, 1, 2, 3⟩) (.start start)
    room (fun _ _ _ => rfl) (fun _ _ _ _ _ _ => rfl)
  exact ⟨o, _, start, kept.1.trans context⟩

/-! ### `struct registers` -/

/-- The context as the map of `struct registers` has it, for the error code and the two words
above the frame. -/
def registers (c : Context) (esp errCode userEsp ss : Word) : Registers where
  edi := c.edi
  esi := c.esi
  ebp := c.ebp
  esp := esp
  ebx := c.ebx
  edx := c.edx
  ecx := c.ecx
  eax := c.eax
  errCode := errCode
  eip := c.eip
  cs := c.cs
  eflags := c.eflags
  userEsp := userEsp
  ss := ss

/-- The map reads the words from the address that the wrapper pushed. -/
theorem read_registers {o₁ : Os} {codes : List Word} {y : Word}
    (h : Pushed o o.entryStack (trapWords o.cpu codes y) o₁)
    (fit : o.cpu.frameSize + 4 * codes.length + 4 ≤ o.entryStack.toNat) :
    o₁.pushEsp.top 0 = o₁.cpu.esp ∧ ∀ k w, (trapFrame o.cpu codes y)[k]? = some w →
      loadWord o₁.pushEsp.view (o₁.cpu.esp.toNat + 4 * k) = w := by
  have length := length_trapWords o.cpu codes y
  have below := h.pushAll [o₁.cpu.esp]
  have total : 4 * (trapWords o.cpu codes y ++ [o₁.cpu.esp]).length =
      o.cpu.frameSize + 4 * codes.length + 4 := by
    rw [List.length_append, List.length_singleton]
    omega
  obtain ⟨low, -, -⟩ := h.spec (by omega)
  obtain ⟨low', words, -⟩ := below.spec (by omega)
  have top := o.entryStack.isLt
  rw [List.reverse_append] at words
  have room : (o₁.pushAll [o₁.cpu.esp]).cpu.esp.toNat +
      4 * ([o₁.cpu.esp].reverse ++ (trapWords o.cpu codes y).reverse).length ≤ 2 ^ 32 := by
    rw [List.length_append, List.length_reverse, List.length_reverse, List.length_singleton]
    omega
  refine ⟨words.stackWord room rfl, fun k w hk => ?_⟩
  have at_ : o₁.cpu.esp.toNat = (o₁.pushAll [o₁.cpu.esp]).cpu.esp.toNat + 4 := by omega
  have dropped := holds_drop words k w hk
  rwa [List.length_reverse, List.length_singleton, Nat.mul_one, ← at_] at dropped

theorem general_at (c : Cpu) (codes : List Word) (y : Word) {k : ℕ} {w : Word} (hk : k < 8)
    (h : [c.edi, c.esi, c.ebp, y, c.ebx, c.edx, c.ecx, c.eax][k]? = some w) :
    (trapFrame c codes y)[k]? = some w := (trapFrame_general c codes y hk).trans h

theorem interrupt_at (c : Cpu) (codes : List Word) (y : Word) {k : ℕ} {w : Word}
    (h : ([c.eip, c.cs, c.eflags] ++ if privilege c.cs = 0 then [] else [c.esp, c.ss])[k]? = some w) :
    (trapFrame c codes y)[k + codes.length + 8]? = some w :=
  (trapFrame_interrupt c codes y k).trans h

theorem singleton_bytes (w : Word) : BitVec.ofNat 32 (4 * [w].length) = 4 := rfl

theorem code_at (c : Cpu) (code y : Word) : (trapFrame c [code] y)[8]? = some code := by
  rw [trapFrame_eq]
  rfl

/-- In the wrappers of the faults, for every context and error code: the pointer that the handler
gets is where a `struct registers` lies with every field right, the user's stack included when the
fault came from ring 3; and if the handler returned, what was interrupted would go on. -/
theorem fault_registers (o : Os) (code : Word) (fit : o.cpu.frameSize + 8 ≤ o.entryStack.toNat) :
    let h := o.faultState code
    (∃ esp userEsp ss, Registers.read h.view (h.top 0).toNat =
        registers o.cpu.toContext esp code userEsp ss ∧
        (privilege o.cpu.cs ≠ 0 → userEsp = o.cpu.esp ∧ ss = o.cpu.ss)) ∧
      ∀ x, KeepsStack x h o.entryStack.toNat →
        (o.isrWrapperFault code x).cpu.toContext = o.cpu.toContext := by
  intro h
  obtain ⟨y, pushed, cs, -⟩ := raiseFault_pushed code o
  obtain ⟨pointer, words⟩ := read_registers pushed (by simpa using fit)
  have base : h.top 0 = (o.raiseFault code).pusha.cpu.esp := pointer
  set p := (h.top 0).toNat with hp
  rw [← base, ← hp] at words
  have general := fun k w (hk : k < 8) hw => words k w (general_at o.cpu [code] y hk hw)
  have interrupt := fun k w hw => words (k + 1 + 8) w (interrupt_at o.cpu [code] y hw)
  refine ⟨⟨y, loadWord h.view (p + 48), loadWord h.view (p + 52), ?_, fun ring => ⟨?_, ?_⟩⟩,
    fun x keeps => ?_⟩
  · simp only [Registers.read, registers, Registers.mk.injEq]
    exact ⟨general 0 _ (by decide) rfl, general 1 _ (by decide) rfl, general 2 _ (by decide) rfl,
      general 3 _ (by decide) rfl, general 4 _ (by decide) rfl, general 5 _ (by decide) rfl,
      general 6 _ (by decide) rfl, general 7 _ (by decide) rfl, words 8 _ (code_at o.cpu code y),
      interrupt 0 _ rfl, interrupt 1 _ rfl, interrupt 2 _ rfl, trivial, trivial⟩
  · exact interrupt 3 _ (by rw [if_neg ring]; rfl)
  · exact interrupt 4 _ (by rw [if_neg ring]; rfl)
  · have whole := pushed.pushAll [(o.raiseFault code).pusha.cpu.esp]
    have back := returns whole cs (by simpa using fit) keeps
    rwa [singleton_bytes, singleton_bytes] at back

/-- A fault of kernel code with error code 2. -/
theorem fault_registers_idle : ∃ esp userEsp ss,
    Registers.read (idle.faultState 2).view ((idle.faultState 2).top 0).toNat =
      registers idle.cpu.toContext esp 2 userEsp ss := by
  obtain ⟨⟨esp, userEsp, ss, fields, -⟩, -⟩ := fault_registers idle 2 (by decide)
  exact ⟨esp, userEsp, ss, fields⟩

/-- In the wrapper of the system call the handler reads the general registers right, among them
the number of the call and its argument; but no error code lies on the stack, so that the field
`err_code` is `EIP`, `eip` is `CS` and `cs` is `EFLAGS`.  The wrapper resumes the caller. -/
theorem systemCall_registers (o : Os) (fit : o.cpu.frameSize + 4 ≤ o.entryStack.toNat) :
    let h := o.systemCallState
    (∃ esp eflags userEsp ss, Registers.read h.view (h.top 0).toNat =
        { registers o.cpu.toContext esp o.cpu.eip userEsp ss with
          eip := o.cpu.cs, cs := o.cpu.eflags, eflags := eflags } ∧
        (privilege o.cpu.cs ≠ 0 → eflags = o.cpu.esp ∧ userEsp = o.cpu.ss)) ∧
      ∀ x, KeepsStack x h o.entryStack.toNat →
        (o.isrWrapper129 x).cpu.toContext = o.cpu.toContext := by
  intro h
  obtain ⟨y, pushed, cs, -⟩ := enterInterrupt_pushed o
  obtain ⟨pointer, words⟩ := read_registers pushed (by simpa using fit)
  have base : h.top 0 = o.enterInterrupt.pusha.cpu.esp := pointer
  set p := (h.top 0).toNat with hp
  rw [← base, ← hp] at words
  have general := fun k w (hk : k < 8) hw => words k w (general_at o.cpu [] y hk hw)
  have interrupt := fun k w hw => words (k + 0 + 8) w (interrupt_at o.cpu [] y hw)
  refine ⟨⟨y, loadWord h.view (p + 44), loadWord h.view (p + 48), loadWord h.view (p + 52), ?_,
    fun ring => ⟨?_, ?_⟩⟩, fun x keeps => ?_⟩
  · simp only [Registers.read, registers, Registers.mk.injEq]
    exact ⟨general 0 _ (by decide) rfl, general 1 _ (by decide) rfl, general 2 _ (by decide) rfl,
      general 3 _ (by decide) rfl, general 4 _ (by decide) rfl, general 5 _ (by decide) rfl,
      general 6 _ (by decide) rfl, general 7 _ (by decide) rfl, interrupt 0 _ rfl,
      interrupt 1 _ rfl, interrupt 2 _ rfl, trivial, trivial, trivial⟩
  · exact interrupt 3 _ (by rw [if_neg ring]; rfl)
  · exact interrupt 4 _ (by rw [if_neg ring]; rfl)
  · have whole := pushed.pushAll [o.enterInterrupt.pusha.cpu.esp]
    have back := returns whole cs (by simpa using fit) keeps
    rwa [List.length_nil, addEsp_zero, singleton_bytes] at back

/-- A system call from ring 3: the handler finds the user's `EIP` in `err_code`. -/
theorem systemCall_registers_user :
    let user : Os := { idle with
      cpu := { idle.cpu with eax := 1, cs := 0x1B, eip := 0x10000007 }
      sched := { idle.sched with esp0 := 0x70001000 } }
    let read := Registers.read user.systemCallState.view (user.systemCallState.top 0).toNat
    read.eax = 1 ∧ read.errCode = 0x10000007 ∧ read.eip = 0x1B := by
  intro user read
  obtain ⟨⟨esp, eflags, userEsp, ss, fields, -⟩, -⟩ := systemCall_registers user (by decide)
  have whole : read = _ := fields
  rw [whole]
  exact ⟨rfl, rfl, rfl⟩

end Os

end RaxzusHeap
