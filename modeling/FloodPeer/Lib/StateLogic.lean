/-
FloodPeer/Lib/StateLogic.lean

Reasoning about programs in the state monad, for imperative code that has been
translated statement by statement into `do` blocks.

A program `m : StateM σ α` started in `s` ends in the state `after m s` with the
result `value m s`; both are pushed through the monad operations by `simp`.
Two families of rules sit on top:

* `Keeps R m`: `m` relates every initial state to its final state by `R`.
  For a reflexive and transitive `R` (a frame condition, a monotone counter,
  an append-only log) the rules `Keeps.pure`, `Keeps.bind`, `Keeps.ite` follow
  the syntax of the program.
* `Triple P m Q`: total-correctness triples with the usual rule of sequencing.
-/
import Mathlib.Order.Defs.Unbundled
import Mathlib.Logic.Basic

namespace StateLogic

universe u

variable {σ α β : Type u}

/-- The state in which the program `m` ends when it is started in `s`. -/
def after (m : StateM σ α) (s : σ) : σ := (m.run s).2

/-- The result of the program `m` when it is started in `s`. -/
def value (m : StateM σ α) (s : σ) : α := (m.run s).1

/-! ### The monad operations -/

@[simp] theorem after_pure (a : α) (s : σ) : after (pure a : StateM σ α) s = s := rfl

@[simp] theorem value_pure (a : α) (s : σ) : value (pure a : StateM σ α) s = a := rfl

@[simp] theorem after_bind (m : StateM σ α) (f : α → StateM σ β) (s : σ) :
    after (m >>= f) s = after (f (value m s)) (after m s) := rfl

@[simp] theorem value_bind (m : StateM σ α) (f : α → StateM σ β) (s : σ) :
    value (m >>= f) s = value (f (value m s)) (after m s) := rfl

@[simp] theorem after_map (f : α → β) (m : StateM σ α) (s : σ) :
    after (f <$> m) s = after m s := rfl

@[simp] theorem value_map (f : α → β) (m : StateM σ α) (s : σ) :
    value (f <$> m) s = f (value m s) := rfl

@[simp] theorem after_get (s : σ) : after (get : StateM σ σ) s = s := rfl

@[simp] theorem value_get (s : σ) : value (get : StateM σ σ) s = s := rfl

@[simp] theorem after_modify (f : σ → σ) (s : σ) :
    after (modify f : StateM σ PUnit) s = f s := rfl

@[simp] theorem after_ite (c : Prop) [Decidable c] (m n : StateM σ α) (s : σ) :
    after (if c then m else n) s = if c then after m s else after n s := by
  split <;> rfl

@[simp] theorem value_ite (c : Prop) [Decidable c] (m n : StateM σ α) (s : σ) :
    value (if c then m else n) s = if c then value m s else value n s := by
  split <;> rfl

/-! ### Relations between the two ends of a program -/

/-- `m` relates every initial state to the state it ends in. -/
def Keeps (R : σ → σ → Prop) (m : StateM σ α) : Prop := ∀ s, R s (after m s)

theorem Keeps.pure {R : σ → σ → Prop} (hr : ∀ s, R s s) (a : α) :
    Keeps R (pure a : StateM σ α) := hr

theorem Keeps.bind {R : σ → σ → Prop} (ht : ∀ s t u, R s t → R t u → R s u)
    {m : StateM σ α} {f : α → StateM σ β} (hm : Keeps R m) (hf : ∀ a, Keeps R (f a)) :
    Keeps R (m >>= f) := fun s => ht _ _ _ (hm s) (hf _ _)

theorem Keeps.ite {R : σ → σ → Prop} {c : Prop} [Decidable c] {m n : StateM σ α}
    (hm : c → Keeps R m) (hn : ¬ c → Keeps R n) : Keeps R (if c then m else n) := by
  split
  · exact hm ‹_›
  · exact hn ‹_›

theorem Keeps.mono {R R' : σ → σ → Prop} (h : ∀ s t, R s t → R' s t)
    {m : StateM σ α} (hm : Keeps R m) : Keeps R' m := fun s => h _ _ (hm s)

/-! ### Triples -/

/-- Started in a state that satisfies `P`, the program `m` ends with a result
and a state that satisfy `Q`. -/
def Triple (P : σ → Prop) (m : StateM σ α) (Q : α → σ → Prop) : Prop :=
  ∀ s, P s → Q (value m s) (after m s)

theorem Triple.bind {P : σ → Prop} {Q : α → σ → Prop} {R : β → σ → Prop}
    {m : StateM σ α} {f : α → StateM σ β} (hm : Triple P m Q)
    (hf : ∀ a, Triple (Q a) (f a) R) : Triple P (m >>= f) R :=
  fun s hs => hf _ _ (hm s hs)

end StateLogic
