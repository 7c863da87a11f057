import Mathlib

/-! # Servers that are determined by their history

A server hands resources out and takes them back; `Server.replay` is its state after a
history of such events, last event first.  `Genuine` says that everything handed out was
what the server had next.

`Simulation` relates the states of two servers that hand out the same resources, and
`stackServer` is the server that hands out what was returned last and, when nothing returned is
left, the next of an endless supply.

Two clients need not know the same names for their resources to make the same requests:
`SameShape` relates histories that give back, at each place, what was handed out by the same
earlier event.  Genuine histories of the same shape are equal (`SameShape.eq`), so a client
learns nothing from a server but its own requests. -/

namespace Replay

/-- What a server did. -/
inductive Event (ρ : Type) where
  | gave (r : ρ)
  | took (r : ρ)
deriving DecidableEq, Repr

/-- The resource an event handed out. -/
def Event.given {ρ : Type} : Event ρ → Option ρ
  | .gave r => some r
  | .took _ => none

/-- A server over states `ν` and resources `ρ`. -/
structure Server (ν ρ : Type) where
  start : ν
  next : ν → Option ρ
  give : ν → ν
  take : ν → ρ → ν

namespace Server

variable {ν ρ : Type} (S : Server ν ρ)

/-- The state after one event. -/
def after (v : ν) : Event ρ → ν
  | .gave _ => S.give v
  | .took r => S.take v r

/-- The state after a history. -/
def replay : List (Event ρ) → ν
  | [] => S.start
  | e :: es => S.after (replay es) e

/-- What the server may do in state `v`. -/
def Offers (v : ν) : Event ρ → Prop
  | .gave r => S.next v = some r
  | .took _ => True

/-- Every resource was the next one when it was handed out. -/
inductive Genuine : List (Event ρ) → Prop
  | nil : Genuine []
  | cons {e : Event ρ} {es : List (Event ρ)} (h : Genuine es) (he : S.Offers (S.replay es) e) :
      Genuine (e :: es)

/-- `R` relates states in which both servers have the same next resource, and what follows
them. -/
structure Simulation {μ : Type} (S : Server ν ρ) (T : Server μ ρ) (R : ν → μ → Prop) : Prop where
  start : R S.start T.start
  next : ∀ v w, R v w → S.next v = T.next w
  give : ∀ v w, R v w → R (S.give v) (T.give w)
  take : ∀ v w r, R v w → R (S.take v r) (T.take w r)

/-- After a common history the states are related. -/
theorem Simulation.replay {μ : Type} {S : Server ν ρ} {T : Server μ ρ} {R : ν → μ → Prop}
    (h : Simulation S T R) (es : List (Event ρ)) : R (S.replay es) (T.replay es) := by
  induction es with
  | nil => exact h.start
  | cons e es ih =>
      cases e with
      | gave r => exact h.give _ _ ih
      | took r => exact h.take _ _ r ih

end Server

/-- What was returned and not handed out again, the last first, and how much of the supply has
been used. -/
structure Stack (ρ : Type) where
  returned : List ρ
  used : ℕ
deriving DecidableEq, Repr

/-- Last returned, first handed out; then the next of the supply. -/
def stackServer {ρ : Type} (supply : ℕ → ρ) : Server (Stack ρ) ρ where
  start := ⟨[], 0⟩
  next w := some (w.returned.headD (supply w.used))
  give w :=
    match w.returned with
    | _ :: rest => { w with returned := rest }
    | [] => { w with used := w.used + 1 }
  take w r := { w with returned := r :: w.returned }

/-- The requests of two histories are the same: both were handed something, or both gave
back what the same earlier event had handed out. -/
inductive SameShape {ρ : Type} : List (Event ρ) → List (Event ρ) → Prop
  | nil : SameShape [] []
  | gave {xs ys : List (Event ρ)} (h : SameShape xs ys) (r r' : ρ) :
      SameShape (.gave r :: xs) (.gave r' :: ys)
  | took {xs ys : List (Event ρ)} (h : SameShape xs ys) (k : ℕ) {r r' : ρ}
      (hr : xs[k]? = some (.gave r)) (hr' : ys[k]? = some (.gave r')) :
      SameShape (.took r :: xs) (.took r' :: ys)

namespace SameShape

variable {ν ρ : Type} {S : Server ν ρ} {xs ys : List (Event ρ)}

/-- Genuine histories of the same shape are equal. -/
theorem eq (h : SameShape xs ys) (hx : S.Genuine xs) (hy : S.Genuine ys) : xs = ys := by
  induction h with
  | nil => rfl
  | @gave xs ys _ r r' ih =>
      cases hx with
      | cons hx hr =>
          cases hy with
          | cons hy hr' =>
              obtain rfl := ih hx hy
              -- the same state has the same resource next
              have hrr : some r = some r' := hr.symm.trans hr'
              rw [Option.some.inj hrr]
  | @took xs ys _ k r r' hr hr' ih =>
      cases hx with
      | cons hx _ =>
          cases hy with
          | cons hy _ =>
              obtain rfl := ih hx hy
              rw [hr] at hr'
              cases hr'
              rfl

end SameShape

end Replay
