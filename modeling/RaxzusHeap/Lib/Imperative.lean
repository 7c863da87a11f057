import Mathlib

/-! # Running imperative programs

Programs are actions of `EStateM ε σ`: they read and write a state `σ` and may stop with an
`ε`, keeping the state in which they stopped.  This file holds what every proof about such
programs needs and nothing about a particular program:

* how a sequence runs (`run_bind_ok`, `run_bind_error`) and how a successful run of a
  sequence splits (`run_bind_eq_ok`);
* the bounded loop `iterate` with a loop-carried value, its instance `times` without one,
  and the invariant rules for both (`iterate_rule`, `times_rule` for total correctness,
  `iterate_of_ok`, `times_of_ok` when the run is known to have succeeded);
* the loop `loop` of a function on states that cannot stop (`loop_inv`);
* `Keeps`: an action that preserves a property of the state however it ends;
* `Costs`: how much of a resource an action uses up at most, however it ends;
* `Ends`: what holds when an action succeeds and what holds when it stops, with one rule
  for each way to build a program;
* `Yields`: partial correctness along a guard, for runs that are known to have succeeded and
  whose history satisfies a condition. -/

namespace Imperative

variable {ε σ α β : Type}

/-! ### Sequences -/

@[simp] theorem run_pure (a : α) (s : σ) : (pure a : EStateM ε σ α) s = .ok a s := rfl

@[simp] theorem run_get (s : σ) : (get : EStateM ε σ σ) s = .ok s s := rfl

@[simp] theorem run_modify (f : σ → σ) (s : σ) :
    (modify f : EStateM ε σ Unit) s = .ok () (f s) := rfl

@[simp] theorem run_throw (e : ε) (s : σ) : (throw e : EStateM ε σ α) s = .error e s := rfl

theorem run_bind_ok {x : EStateM ε σ α} {f : α → EStateM ε σ β} {s s' : σ} {a : α}
    (h : x s = .ok a s') : (x >>= f) s = f a s' := by
  show EStateM.bind x f s = _
  simp only [EStateM.bind, h]

theorem run_bind_error {x : EStateM ε σ α} {f : α → EStateM ε σ β} {s s' : σ} {e : ε}
    (h : x s = .error e s') : (x >>= f) s = .error e s' := by
  show EStateM.bind x f s = _
  simp only [EStateM.bind, h]

/-- A sequence succeeds exactly when its two halves do, one after the other. -/
theorem run_bind_eq_ok {x : EStateM ε σ α} {f : α → EStateM ε σ β} {s s₂ : σ} {b : β} :
    (x >>= f) s = .ok b s₂ ↔ ∃ a s₁, x s = .ok a s₁ ∧ f a s₁ = .ok b s₂ := by
  constructor
  · intro h
    cases hx : x s with
    | ok a s₁ => exact ⟨a, s₁, rfl, by rwa [run_bind_ok hx] at h⟩
    | error e s₁ => rw [run_bind_error hx] at h; cases h
  · rintro ⟨a, s₁, hx, hf⟩
    rwa [run_bind_ok hx]

/-! ### Loops -/

/-- `iterate n a body` runs `body 0`, …, `body (n - 1)` in order, threading a value through
them that starts as `a`. -/
def iterate : ℕ → α → (ℕ → α → EStateM ε σ α) → EStateM ε σ α
  | 0, a, _ => pure a
  | n + 1, a, body => do
      let b ← iterate n a body
      body n b

/-- `times n body` runs `body 0`, …, `body (n - 1)` in order. -/
def times (n : ℕ) (body : ℕ → EStateM ε σ Unit) : EStateM ε σ Unit :=
  iterate n () (fun i _ => body i)

/-- Invariant rule for `iterate`: a body that succeeds and moves the invariant from `i` to
`i + 1` makes the whole loop succeed. -/
theorem iterate_rule (body : ℕ → α → EStateM ε σ α) (I : ℕ → α → σ → Prop) {n : ℕ} {a : α}
    {s : σ} (h0 : I 0 a s)
    (hstep : ∀ i b t, i < n → I i b t → ∃ b' t', body i b t = .ok b' t' ∧ I (i + 1) b' t') :
    ∃ b s', iterate n a body s = .ok b s' ∧ I n b s' := by
  induction n with
  | zero => exact ⟨a, s, rfl, h0⟩
  | succ n ih =>
      obtain ⟨b, s₁, hr, hI⟩ := ih (fun i b t hi => hstep i b t (by omega))
      obtain ⟨b', s₂, hb, hI'⟩ := hstep n b s₁ (by omega) hI
      refine ⟨b', s₂, ?_, hI'⟩
      rw [iterate, run_bind_ok hr, hb]

/-- Invariant rule for a run of `iterate` that succeeded. -/
theorem iterate_of_ok (I : ℕ → α → σ → Prop) {n : ℕ} {a b : α} {body : ℕ → α → EStateM ε σ α}
    {s s' : σ} (hr : iterate n a body s = .ok b s') (h0 : I 0 a s)
    (hstep : ∀ i c d t t', i < n → I i c t → body i c t = .ok d t' → I (i + 1) d t') :
    I n b s' := by
  induction n generalizing b s' with
  | zero => cases hr; exact h0
  | succ n ih =>
      obtain ⟨c, s₁, hr₁, hb⟩ := run_bind_eq_ok.mp hr
      exact hstep n c b s₁ s' (by omega)
        (ih hr₁ (fun i c d t t' hi => hstep i c d t t' (by omega))) hb

theorem times_rule (body : ℕ → EStateM ε σ Unit) (I : ℕ → σ → Prop) {n : ℕ} {s : σ}
    (h0 : I 0 s) (hstep : ∀ i t, i < n → I i t → ∃ t', body i t = .ok () t' ∧ I (i + 1) t') :
    ∃ s', times n body s = .ok () s' ∧ I n s' := by
  obtain ⟨_, s', hr, hI⟩ := iterate_rule (fun i _ => body i) (fun i (_ : Unit) t => I i t) h0
    (fun i _ t hi hI => by
      obtain ⟨t', hb, hI'⟩ := hstep i t hi hI
      exact ⟨(), t', hb, hI'⟩)
  exact ⟨s', hr, hI⟩

theorem times_error {body : ℕ → EStateM ε σ Unit} {s s' : σ} {e : ε}
    (h : body 0 s = .error e s') (n : ℕ) : times (n + 1) body s = .error e s' := by
  induction n with
  | zero => exact h
  | succ n ih => exact run_bind_error ih

theorem times_of_ok (I : ℕ → σ → Prop) {n : ℕ} {body : ℕ → EStateM ε σ Unit} {s s' : σ}
    (hr : times n body s = .ok () s') (h0 : I 0 s)
    (hstep : ∀ i t t', i < n → I i t → body i t = .ok () t' → I (i + 1) t') : I n s' :=
  iterate_of_ok (fun i _ t => I i t) hr h0 (fun i _ _ t t' hi hI hb => hstep i t t' hi hI hb)

/-- A loop of turns that all succeed goes through turn `j`, and keeps what that turn brings
about. -/
theorem times_reach {P : σ → Prop} {body : ℕ → EStateM ε σ Unit} {j n : ℕ} (hjn : j < n)
    (htotal : ∀ i t, ∃ t', body i t = .ok () t')
    (hj : ∀ t t', body j t = .ok () t' → P t')
    (hkeep : ∀ i t t', body i t = .ok () t' → P t → P t') (s : σ) :
    ∃ s', times n body s = .ok () s' ∧ P s' := by
  obtain ⟨s', hr, hP⟩ := times_rule body (fun i t => j < i → P t) (n := n) (s := s)
    (fun h => absurd h (Nat.not_lt_zero j)) (fun i t _ hI => by
      obtain ⟨t', hb⟩ := htotal i t
      refine ⟨t', hb, fun hlt => ?_⟩
      by_cases hij : j = i
      · subst hij
        exact hj t t' hb
      · exact hkeep i t t' hb (hI (by omega)))
  exact ⟨s', hr, hP hjn⟩

/-- `loop n body` applies `body 0`, …, `body (n - 1)` in order. -/
def loop : ℕ → (ℕ → σ → σ) → σ → σ
  | 0, _, s => s
  | n + 1, body, s => body n (loop n body s)

theorem loop_inv (I : ℕ → σ → Prop) {n : ℕ} {f : ℕ → σ → σ} {s : σ} (h0 : I 0 s)
    (hstep : ∀ i t, i < n → I i t → I (i + 1) (f i t)) : I n (loop n f s) := by
  induction n with
  | zero => exact h0
  | succ n ih => exact hstep n _ (by omega) (ih fun i t hi => hstep i t (by omega))

/-! ### Properties kept however an action ends -/

/-- The state an action ends in, whether it succeeded or stopped. -/
def final : EStateM.Result ε σ α → σ
  | .ok _ s => s
  | .error _ s => s

@[simp] theorem final_ok (a : α) (s : σ) : final (.ok a s : EStateM.Result ε σ α) = s := rfl

@[simp] theorem final_error (e : ε) (s : σ) :
    final (.error e s : EStateM.Result ε σ α) = s := rfl

/-- `x` preserves `P`, also when it stops early. -/
def Keeps (P : σ → Prop) (x : EStateM ε σ α) : Prop := ∀ s, P s → P (final (x s))

theorem Keeps.pure (P : σ → Prop) (a : α) : Keeps P (Pure.pure a : EStateM ε σ α) :=
  fun _ h => h

theorem Keeps.throw (P : σ → Prop) (e : ε) :
    Keeps P (MonadExcept.throw e : EStateM ε σ α) := fun _ h => h

theorem Keeps.get (P : σ → Prop) : Keeps P (MonadState.get : EStateM ε σ σ) := fun _ h => h

theorem Keeps.modify {P : σ → Prop} {f : σ → σ} (h : ∀ s, P s → P (f s)) :
    Keeps P (modify f : EStateM ε σ Unit) := h

theorem Keeps.final_bind {P : σ → Prop} {x : EStateM ε σ α} {f : α → EStateM ε σ β} {s : σ}
    (h : P (final (x s))) (hf : ∀ a, Keeps P (f a)) : P (final ((x >>= f) s)) := by
  cases hr : x s with
  | ok a s' => rw [hr] at h; rw [run_bind_ok hr]; exact hf a s' h
  | error e s' => rw [hr] at h; rw [run_bind_error hr]; exact h

theorem Keeps.bind {P : σ → Prop} {x : EStateM ε σ α} {f : α → EStateM ε σ β}
    (hx : Keeps P x) (hf : ∀ a, Keeps P (f a)) : Keeps P (x >>= f) :=
  fun s hs => Keeps.final_bind (hx s hs) hf

theorem Keeps.iterate {P : σ → Prop} {body : ℕ → α → EStateM ε σ α}
    (h : ∀ i a, Keeps P (body i a)) (n : ℕ) (a : α) :
    Keeps P (Imperative.iterate n a body) := by
  induction n with
  | zero => exact Keeps.pure P a
  | succ n ih => exact ih.bind (fun b => h n b)

theorem Keeps.times {P : σ → Prop} {body : ℕ → EStateM ε σ Unit} (h : ∀ i, Keeps P (body i))
    (n : ℕ) : Keeps P (times n body) := Keeps.iterate (fun i _ => h i) n ()

theorem Keeps.times_lt {P : σ → Prop} {body : ℕ → EStateM ε σ Unit} {n : ℕ}
    (h : ∀ i < n, Keeps P (body i)) : Keeps P (Imperative.times n body) := by
  induction n with
  | zero => exact Keeps.pure P ()
  | succ n ih => exact (ih fun i hi => h i (by omega)).bind (fun _ => h n (by omega))

theorem Keeps.ok {P : σ → Prop} {x : EStateM ε σ α} (h : Keeps P x) {s s' : σ} {a : α}
    (hr : x s = .ok a s') (hs : P s) : P s' := by
  have := h s hs
  rwa [hr] at this

/-! ### Resources -/

/-- `x` uses up at most `k` units of a resource; `room n s` says that `n` units are left. -/
def Costs (room : ℕ → σ → Prop) (k : ℕ) (x : EStateM ε σ α) : Prop :=
  ∀ n s, room (n + k) s → room n (final (x s))

section Costs

variable {room : ℕ → σ → Prop} {k l : ℕ} {x : EStateM ε σ α}

theorem Costs.of_keeps (h : ∀ n, Keeps (room n) x) : Costs room 0 x := fun n s hs => h n s hs

theorem Costs.pure (a : α) : Costs room 0 (Pure.pure a : EStateM ε σ α) :=
  .of_keeps fun n => Keeps.pure (room n) a

theorem Costs.mono (hroom : ∀ n n' s, n' ≤ n → room n s → room n' s) (h : Costs room k x)
    (hkl : k ≤ l) : Costs room l x :=
  fun n s hs => h n s (hroom (n + l) (n + k) s (by omega) hs)

theorem Costs.bind {f : α → EStateM ε σ β} (hroom : ∀ n n' s, n' ≤ n → room n s → room n' s)
    (hx : Costs room k x) (hf : ∀ a, Costs room l (f a)) : Costs room (k + l) (x >>= f) := by
  intro n s hs
  have h := hx (n + l) s (by rwa [Nat.add_assoc, Nat.add_comm l k])
  cases hr : x s with
  | ok a t =>
      rw [run_bind_ok hr]
      rw [hr] at h
      exact hf a n t h
  | error e t =>
      rw [run_bind_error hr]
      rw [hr] at h
      exact hroom (n + l) n t (Nat.le_add_right n l) h

theorem Costs.iterate {body : ℕ → α → EStateM ε σ α}
    (hroom : ∀ n n' s, n' ≤ n → room n s → room n' s) (h : ∀ i a, Costs room k (body i a))
    (n : ℕ) (a : α) : Costs room (n * k) (Imperative.iterate n a body) := by
  induction n with
  | zero =>
      rw [Nat.zero_mul]
      exact Costs.pure a
  | succ n ih =>
      rw [Nat.succ_mul]
      exact ih.bind hroom fun b => h n b

end Costs

/-! ### Postconditions for success and for stopping -/

/-- Run from `s`, `x` either succeeds in `Q` or stops in `E`.  Irreducible, so that no
elaboration step runs the program. -/
@[irreducible] def Ends (x : EStateM ε σ α) (s : σ) (Q : α → σ → Prop) (E : σ → Prop) : Prop :=
  match x s with
  | .ok a s' => Q a s'
  | .error _ s' => E s'

section Ends

variable {x : EStateM ε σ α} {s s' : σ} {Q : α → σ → Prop} {E : σ → Prop}

theorem Ends.of_ok {a : α} (hr : x s = .ok a s') (hQ : Q a s') : Ends x s Q E := by
  rw [Ends, hr]
  exact hQ

theorem Ends.of_error {e : ε} (hr : x s = .error e s') (hE : E s') : Ends x s Q E := by
  rw [Ends, hr]
  exact hE

theorem Ends.ok (h : Ends x s Q E) {a : α} (hr : x s = .ok a s') : Q a s' := by
  rwa [Ends, hr] at h

theorem Ends.error (h : Ends x s Q E) {e : ε} (hr : x s = .error e s') : E s' := by
  rwa [Ends, hr] at h

theorem Ends.exists_ok (h : Ends x s Q (fun _ => False)) : ∃ a t, x s = .ok a t ∧ Q a t := by
  cases hr : x s with
  | ok a t => exact ⟨a, t, rfl, h.ok hr⟩
  | error e t => exact (h.error hr).elim

theorem Ends.mono {Q' : α → σ → Prop} {E' : σ → Prop} (h : Ends x s Q E)
    (hQ : ∀ a t, Q a t → Q' a t) (hE : ∀ t, E t → E' t) : Ends x s Q' E' := by
  cases hr : x s with
  | ok a t => exact .of_ok hr (hQ a t (h.ok hr))
  | error e t => exact .of_error hr (hE t (h.error hr))

theorem Ends.and {Q' : α → σ → Prop} {E' : σ → Prop} (h : Ends x s Q E) (h' : Ends x s Q' E') :
    Ends x s (fun a t => Q a t ∧ Q' a t) (fun t => E t ∧ E' t) := by
  cases hr : x s with
  | ok a t => exact .of_ok hr ⟨h.ok hr, h'.ok hr⟩
  | error e t => exact .of_error hr ⟨h.error hr, h'.error hr⟩

theorem Ends.bind {R : β → σ → Prop} {f : α → EStateM ε σ β} (h : Ends x s Q E)
    (hf : ∀ a t, Q a t → Ends (f a) t R E) : Ends (x >>= f) s R E := by
  cases hr : x s with
  | ok a t =>
      have := hf a t (h.ok hr)
      rw [Ends, run_bind_ok hr]
      rwa [Ends] at this
  | error e t => exact .of_error (run_bind_error hr) (h.error hr)

theorem Ends.bind_ok {R : β → σ → Prop} {f : α → EStateM ε σ β} {a : α} (hr : x s = .ok a s')
    (hf : Ends (f a) s' R E) : Ends (x >>= f) s R E := by
  rw [Ends, run_bind_ok hr]
  rwa [Ends] at hf

theorem Ends.iterate {body : ℕ → α → EStateM ε σ α} (I : ℕ → α → σ → Prop) {n : ℕ} {a : α}
    (h0 : I 0 a s) (hstep : ∀ i b t, i < n → I i b t → Ends (body i b) t (I (i + 1)) E) :
    Ends (Imperative.iterate n a body) s (I n) E := by
  induction n with
  | zero => exact .of_ok rfl h0
  | succ n ih =>
      have hn := ih (fun i b t hi => hstep i b t (by omega))
      exact hn.bind (fun b t hI => hstep n b t (by omega) hI)

theorem Ends.times {body : ℕ → EStateM ε σ Unit} (I : ℕ → σ → Prop) {n : ℕ}
    (h0 : I 0 s) (hstep : ∀ i t, i < n → I i t → Ends (body i) t (fun _ => I (i + 1)) E) :
    Ends (Imperative.times n body) s (fun _ => I n) E :=
  Ends.iterate (fun i (_ : Unit) => I i) h0 (fun i _ t hi hI => hstep i t hi hI)

theorem Costs.ends {room : ℕ → σ → Prop} {k n : ℕ} (h : Costs room k x) (hs : room (n + k) s) :
    Ends x s (fun _ => room n) (room n) := by
  have hroom := h n s hs
  cases hr : x s with
  | ok a t => rw [hr] at hroom; exact .of_ok hr hroom
  | error e t => rw [hr] at hroom; exact .of_error hr hroom

end Ends

/-! ### Partial correctness along a guard -/

/-- Whenever `x` succeeds and the guard `W` holds afterwards, `W` held before, and `P` before
gives `Q` afterwards.  A guard that only looks at a growing history meets the first part. -/
@[irreducible] def Yields (W P : σ → Prop) (x : EStateM ε σ α) (Q : α → σ → Prop) : Prop :=
  ∀ s a s', x s = .ok a s' → W s' → W s ∧ (P s → Q a s')

section Yields

variable {W P P' : σ → Prop} {x : EStateM ε σ α} {Q Q' : α → σ → Prop}

theorem Yields.of_ok (h : ∀ s a s', x s = .ok a s' → W s' → W s ∧ (P s → Q a s')) :
    Yields W P x Q := by
  rw [Yields]
  exact h

theorem Yields.ok (h : Yields W P x Q) {s s' : σ} {a : α} (hr : x s = .ok a s') (hW : W s') :
    W s ∧ (P s → Q a s') := by
  rw [Yields] at h
  exact h s a s' hr hW

theorem Yields.mono (h : Yields W P x Q) (hP : ∀ s, P' s → P s) (hQ : ∀ a s, Q a s → Q' a s) :
    Yields W P' x Q' :=
  .of_ok fun s a s' hr hW => ⟨(h.ok hr hW).1, fun hs => hQ a s' ((h.ok hr hW).2 (hP s hs))⟩

/-- A fact that does not depend on the state is still there afterwards. -/
theorem Yields.const (φ : Prop) (h : Yields W P x Q) :
    Yields W (fun s => φ ∧ P s) x fun a s => φ ∧ Q a s :=
  .of_ok fun _ _ _ hr hW => ⟨(h.ok hr hW).1, fun hs => ⟨hs.1, (h.ok hr hW).2 hs.2⟩⟩

/-- A condition that does not depend on the state may be used, once the guard is known. -/
theorem Yields.guard {φ : Prop} {P₀ : σ → Prop} {Q₀ : α → σ → Prop} (h₀ : Yields W P₀ x Q₀)
    (h : φ → Yields W P x Q) : Yields W (fun s => φ ∧ P s) x Q :=
  .of_ok fun _ _ _ hr hW => ⟨(h₀.ok hr hW).1, fun hs => ((h hs.1).ok hr hW).2 hs.2⟩

theorem Yields.and {Q₂ : α → σ → Prop} (h : Yields W P x Q) (h₂ : Yields W P x Q₂) :
    Yields W P x fun a s => Q a s ∧ Q₂ a s :=
  .of_ok fun _ _ _ hr hW =>
    ⟨(h.ok hr hW).1, fun hs => ⟨(h.ok hr hW).2 hs, (h₂.ok hr hW).2 hs⟩⟩

theorem Yields.keeps {I : σ → Prop} (h : Yields W P x Q) (hI : Keeps I x) :
    Yields W (fun s => P s ∧ I s) x fun a s => Q a s ∧ I s :=
  .of_ok fun _ _ _ hr hW => ⟨(h.ok hr hW).1, fun hs => ⟨(h.ok hr hW).2 hs.1, hI.ok hr hs.2⟩⟩

theorem Yields.pure {a : α} (h : ∀ s, P s → Q a s) :
    Yields W P (Pure.pure a : EStateM ε σ α) Q := by
  refine .of_ok fun s b s' hr hW => ?_
  cases hr
  exact ⟨hW, h s⟩

theorem Yields.bind {R : β → σ → Prop} {f : α → EStateM ε σ β} (h : Yields W P x Q)
    (hf : ∀ a, Yields W (Q a) (f a) R) : Yields W P (x >>= f) R := by
  refine .of_ok fun s b s' hr hW => ?_
  obtain ⟨a, t, hx, hb⟩ := run_bind_eq_ok.mp hr
  obtain ⟨hWt, hR⟩ := (hf a).ok hb hW
  obtain ⟨hWs, hQ⟩ := h.ok hx hWt
  exact ⟨hWs, fun hs => hR (hQ hs)⟩

theorem Yields.iterate {body : ℕ → α → EStateM ε σ α} (I : ℕ → α → σ → Prop) {n : ℕ} {a : α}
    (h : ∀ i < n, ∀ b, Yields W (I i b) (body i b) (I (i + 1))) :
    Yields W (I 0 a) (Imperative.iterate n a body) (I n) := by
  induction n with
  | zero => exact .pure fun _ hs => hs
  | succ n ih => exact (ih fun i hi => h i (by omega)).bind fun b => h n (by omega) b

theorem Yields.times {body : ℕ → EStateM ε σ Unit} (I : ℕ → σ → Prop) {n : ℕ}
    (h : ∀ i < n, Yields W (I i) (body i) fun _ => I (i + 1)) :
    Yields W (I 0) (Imperative.times n body) fun _ => I n :=
  Yields.iterate (fun i (_ : Unit) => I i) fun i hi _ => h i hi

end Yields

end Imperative
