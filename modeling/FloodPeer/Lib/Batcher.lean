/-
FloodPeer/Lib/Batcher.lean

Gathering items into batches of bounded size.

A batcher keeps the items that wait in `pending` and the batches it has closed
so far.  `push` closes the waiting batch first when the new item would make it
too large; `flush` closes it unless its size is zero.  Whatever is pushed and
flushed, no item is lost, doubled or moved (`items_push`, `items_flush`), and
when no single item is too large no batch is (`Fits.push`, `Fits.flush`).  What
waits counts only as a whole: a batcher that is stopped and starts again with one
item in place of all that waited closes the same batches (`joined_pushAll`).
-/
import Mathlib.Algebra.GroupWithZero.Nat
import Mathlib.Data.List.Basic
import Mathlib.Tactic.Common

namespace Batcher

variable {α : Type*}

/-- The closed batches, oldest first, and the items that wait. -/
structure State (α : Type*) where
  closed : List (List α)
  pending : List α

/-- Everything that was pushed. -/
def State.items (b : State α) : List α := b.closed.flatten ++ b.pending

variable (size : α → Nat) (cap : Nat)

/-- The size of a batch. -/
def total (l : List α) : Nat := (l.map size).sum

/-- Add an item, in a new batch when the waiting one has no room for it. -/
def push (b : State α) (x : α) : State α :=
  if total size b.pending + size x > cap then
    { closed := b.closed ++ [b.pending], pending := [x] }
  else
    { b with pending := b.pending ++ [x] }

/-- Close the waiting batch, if it is of any size. -/
def flush (b : State α) : State α :=
  if total size b.pending = 0 then b
  else { closed := b.closed ++ [b.pending], pending := [] }

@[simp] theorem total_nil : total size ([] : List α) = 0 := rfl

@[simp] theorem total_append (l l' : List α) :
    total size (l ++ l') = total size l + total size l' := by
  simp [total]

@[simp] theorem total_singleton (x : α) : total size [x] = size x := by
  simp [total]

theorem items_push (b : State α) (x : α) : (push size cap b x).items = b.items ++ [x] := by
  unfold push State.items
  split <;> simp

theorem items_flush (b : State α) : (flush size b).items = b.items := by
  unfold flush State.items
  split <;> simp

/-- Nothing waits behind a flush. -/
theorem total_pending_flush (b : State α) : total size (flush size b).pending = 0 := by
  unfold flush
  split
  · assumption
  · rfl

/-- No batch is empty or too large. -/
structure Fits (b : State α) : Prop where
  closed : ∀ l ∈ b.closed, 0 < total size l ∧ total size l ≤ cap
  pending : total size b.pending ≤ cap

variable {size cap}

theorem Fits.push {b : State α} (h : Fits size cap b) {x : α} (hx : size x ≤ cap) :
    Fits size cap (push size cap b x) := by
  unfold Batcher.push
  split
  · rename_i hfull
    refine ⟨fun l hl => ?_, by simpa using hx⟩
    rcases List.mem_append.mp hl with hl | hl
    · exact h.closed l hl
    · obtain rfl := List.mem_singleton.mp hl
      have hpending := h.pending
      omega
  · rename_i hroom
    exact ⟨h.closed, by simpa using hroom⟩

theorem Fits.flush {b : State α} (h : Fits size cap b) : Fits size cap (flush size b) := by
  unfold Batcher.flush
  split
  · exact h
  · rename_i hsome
    refine ⟨fun l hl => ?_, by simp⟩
    rcases List.mem_append.mp hl with hl | hl
    · exact h.closed l hl
    · obtain rfl := List.mem_singleton.mp hl
      exact ⟨by omega, h.pending⟩

/-! ### Several items -/

variable (size cap) in
/-- Push one item after another. -/
def pushAll (b : State α) (l : List α) : State α := l.foldl (Batcher.push size cap) b

@[simp] theorem pushAll_nil (b : State α) : pushAll size cap b [] = b := rfl

@[simp] theorem pushAll_cons (b : State α) (x : α) (l : List α) :
    pushAll size cap b (x :: l) = pushAll size cap (push size cap b x) l := rfl

theorem pushAll_append (b : State α) (l l' : List α) :
    pushAll size cap b (l ++ l') = pushAll size cap (pushAll size cap b l) l' :=
  List.foldl_append

theorem items_pushAll (b : State α) (l : List α) : (pushAll size cap b l).items = b.items ++ l := by
  induction l generalizing b with
  | nil => exact (List.append_nil _).symm
  | cons x l ih => rw [pushAll_cons, ih, items_push, List.append_assoc, List.singleton_append]

/-! ### Items made of bytes -/

variable {β : Type*} {b c : State (List β)}

theorem total_length (l : List (List β)) : total List.length l = l.flatten.length :=
  List.length_flatten.symm

/-- The batches that `b` has and `c` has not are those that `b'` has and `c'` has
not, and the same waits. -/
structure Joined (b c b' c' : State (List β)) : Prop where
  pending : b'.pending.flatten = c'.pending.flatten
  closed : ∃ more, b'.closed.map List.flatten = b.closed.map List.flatten ++ more ∧
    c'.closed.map List.flatten = c.closed.map List.flatten ++ more

theorem joined_push (h : b.pending.flatten = c.pending.flatten) (x : List β) :
    Joined b c (push List.length cap b x) (push List.length cap c x) := by
  unfold push
  rw [total_length, total_length, h]
  split
  · exact ⟨rfl, [c.pending.flatten], by simp [h], by simp⟩
  · refine ⟨?_, [], by simp, by simp⟩
    rw [List.flatten_append, List.flatten_append, h]

/-- How the bytes that wait are divided into items makes no difference. -/
theorem joined_pushAll (h : b.pending.flatten = c.pending.flatten) (l : List (List β)) :
    Joined b c (pushAll List.length cap b l) (pushAll List.length cap c l) := by
  induction l generalizing b c with
  | nil => exact ⟨h, [], (List.append_nil _).symm, (List.append_nil _).symm⟩
  | cons x l ih =>
    have hfirst := @joined_push cap β b c h x
    have hrest := ih hfirst.pending
    obtain ⟨more, hb, hc⟩ := hfirst.closed
    obtain ⟨more', hb', hc'⟩ := hrest.closed
    refine ⟨hrest.pending, more ++ more', ?_, ?_⟩
    · rw [pushAll_cons, hb', hb, List.append_assoc]
    · rw [pushAll_cons, hc', hc, List.append_assoc]

end Batcher
