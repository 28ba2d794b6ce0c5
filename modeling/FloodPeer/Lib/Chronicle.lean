/-
FloodPeer/Lib/Chronicle.lean

Programs and the moves that they are made of.

A program in the state monad may be a sequence of moves of a transition system.
A `Chronicle` of it gives, for each state in which it is started, the history of
these moves, and carries the proof that they are a run to the state in which the
program ends.  Chronicles are put together like the programs, and they compute.
-/
import FloodPeer.Lib.Runs
import FloodPeer.Lib.StateLogic

namespace Runs

open StateLogic

universe u v

variable {σ α β : Type u} {μ : Type v} {does : μ → σ → σ → Prop}

/-- The moves of the program `p`. -/
structure Chronicle (does : μ → σ → σ → Prop) (p : StateM σ α) where
  history : σ → List (σ × μ)
  isRun : ∀ s, Run does s (history s) (after p s)

/-- The program is one move. -/
def Chronicle.move {p : StateM σ α} (m : μ) (h : ∀ s, does m s (after p s)) :
    Chronicle does p where
  history s := [(s, m)]
  isRun s := .single (h s)

/-- The program does nothing. -/
def Chronicle.still {p : StateM σ α} (h : ∀ s, after p s = s) : Chronicle does p where
  history _ := []
  isRun s := by
    rw [h]
    exact .nil

def Chronicle.pure (a : α) : Chronicle does (Pure.pure a : StateM σ α) :=
  .still fun _ => rfl

def Chronicle.get : Chronicle does (MonadState.get : StateM σ σ) :=
  .still fun _ => rfl

/-- One program after another. -/
def Chronicle.bind {p : StateM σ α} {q : α → StateM σ β} (c : Chronicle does p)
    (d : ∀ a, Chronicle does (q a)) : Chronicle does (p >>= q) where
  history s := c.history s ++ (d (value p s)).history (after p s)
  isRun s := (c.isRun s).trans ((d (value p s)).isRun (after p s))

/-- The branches of a program. -/
def Chronicle.ite {b : Prop} [Decidable b] {p q : StateM σ α} (c : Chronicle does p)
    (d : Chronicle does q) : Chronicle does (if b then p else q) where
  history s := if b then c.history s else d.history s
  isRun s := by
    split
    · exact c.isRun s
    · exact d.isRun s

/-- Another text of the same program. -/
def Chronicle.of_eq {p q : StateM σ α} (h : p = q) (c : Chronicle does q) : Chronicle does p where
  history := c.history
  isRun := by
    rw [h]
    exact c.isRun

end Runs
