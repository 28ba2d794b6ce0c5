/-
FloodPeer/Lib/Schedule.lean

Attempts that are repeated after growing pauses.

Something is due at some time, it is attempted then or later, and after that it
is due again.  At least `least 0` passes before it is due first, and at least
`least n` between the `n`-th attempt and the time when it is due again; there
are at most `limit` attempts.  A `Schedule` is the list of the attempts so far,
each with the time for which the next one has been set.

What can be seen of it are the times of some of the attempts.  They are `Spaced`
in the same way, however many go unseen (`Spaced.sublist`).
-/
import Mathlib.Algebra.Order.Ring.Int
import Mathlib.Data.List.NodupEquivFin
import Mathlib.Order.WellFounded
import Mathlib.Tactic.Common

namespace Backoff

/-- `Schedule least limit start l due`: begun at `start`, after the attempts `l`
the next one is due at `due`. -/
inductive Schedule (least : ℕ → ℤ) (limit : ℕ) (start : ℤ) : List (ℤ × ℤ) → ℤ → Prop
  | nil {due : ℤ} (hdue : start + least 0 ≤ due) : Schedule least limit start [] due
  | snoc {l : List (ℤ × ℤ)} {due t due' : ℤ} (hl : Schedule least limit start l due)
      (hmore : l.length < limit) (ht : due ≤ t) (hdue : t + least (l.length + 1) ≤ due') :
      Schedule least limit start (l ++ [(t, due')]) due'

variable {least : ℕ → ℤ} {limit : ℕ} {start due : ℤ} {l : List (ℤ × ℤ)}

theorem Schedule.length_le (h : Schedule least limit start l due) : l.length ≤ limit := by
  cases h with
  | nil => exact Nat.zero_le _
  | snoc _ hmore =>
    rw [List.length_append, List.length_singleton]
    exact hmore

/-- The next attempt is due when the last one said. -/
theorem Schedule.due_eq (h : Schedule least limit start l due) {x : ℤ × ℤ}
    (hx : l.getLast? = some x) : due = x.2 := by
  cases h with
  | nil => cases hx
  | snoc =>
    rw [List.getLast?_concat] at hx
    rw [← Option.some.inj hx]

/-- The pause after the last attempt. -/
theorem Schedule.pause (h : Schedule least limit start l due) {x : ℤ × ℤ}
    (hx : l.getLast? = some x) : x.1 + least l.length ≤ due := by
  cases h with
  | nil => cases hx
  | snoc _ _ _ hdue =>
    rw [List.getLast?_concat] at hx
    rw [← Option.some.inj hx, List.length_append, List.length_singleton]
    exact hdue

theorem Schedule.of_nil (h : Schedule least limit start l due) (hl : l = []) :
    start + least 0 ≤ due := by
  cases h with
  | nil hdue => exact hdue
  | snoc => simp at hl

/-- The time before the first attempt. -/
theorem Schedule.first (h : Schedule least limit start l due) {x : ℤ × ℤ}
    (hx : l.head? = some x) : start + least 0 ≤ x.1 := by
  induction h with
  | nil => cases hx
  | @snoc l due t due' hl _ ht _ ih =>
    cases l with
    | nil =>
      rw [← Option.some.inj hx]
      exact le_trans (hl.of_nil rfl) ht
    | cons y l => exact ih hx

/-- The time between two attempts. -/
theorem Schedule.gap (h : Schedule least limit start l due) {i : ℕ} {x y : ℤ × ℤ}
    (hx : l[i]? = some x) (hy : l[i + 1]? = some y) : x.1 + least (i + 1) ≤ y.1 := by
  induction h with
  | nil => cases hx
  | @snoc l due t due' hl _ ht _ ih =>
    have hi : i + 1 < (l ++ [(t, due')]).length := (List.getElem?_eq_some_iff.mp hy).1
    rw [List.length_append, List.length_singleton] at hi
    rw [List.getElem?_append_left (by omega)] at hx
    by_cases hlast : i + 1 = l.length
    · -- `y` is the new attempt, and `x` the last one before it
      rw [List.getElem?_append_right (by omega), hlast, Nat.sub_self] at hy
      rw [← Option.some.inj hy]
      have hpause := hl.pause (x := x) (by rw [List.getLast?_eq_getElem?, ← hlast]; exact hx)
      rw [← hlast] at hpause
      exact le_trans hpause ht
    · rw [List.getElem?_append_left (by omega)] at hy
      exact ih hx hy

/-- Not more than `limit` times, the first `least 0` behind `start`, and the others
as far apart as `least` says. -/
structure Spaced (least : ℕ → ℤ) (limit : ℕ) (start : ℤ) (l : List ℤ) : Prop where
  length_le : l.length ≤ limit
  first : ∀ t, l.head? = some t → start + least 0 ≤ t
  gap : ∀ i s t, l[i]? = some s → l[i + 1]? = some t → s + least (i + 1) ≤ t

theorem Schedule.spaced (h : Schedule least limit start l due) :
    Spaced least limit start (l.map Prod.fst) where
  length_le := by
    rw [List.length_map]
    exact h.length_le
  first := by
    intro t ht
    rw [List.head?_map] at ht
    obtain ⟨x, hx, rfl⟩ := Option.map_eq_some_iff.mp ht
    exact h.first hx
  gap := by
    intro i s t hs ht
    rw [List.getElem?_map] at hs ht
    obtain ⟨x, hx, rfl⟩ := Option.map_eq_some_iff.mp hs
    obtain ⟨y, hy, rfl⟩ := Option.map_eq_some_iff.mp ht
    exact h.gap hx hy

section Spaced

variable {ts ts' : List ℤ}

/-- From one time to any later one. -/
theorem Spaced.gap_of_lt (h : Spaced least limit start ts) (hpos : ∀ n, 0 ≤ least (n + 1))
    {i j : ℕ} (hij : i < j) {s t : ℤ} (hs : ts[i]? = some s) (ht : ts[j]? = some t) :
    s + least (i + 1) ≤ t := by
  obtain ⟨d, rfl⟩ := Nat.exists_eq_add_of_lt hij
  induction d generalizing t with
  | zero => exact h.gap i s t hs ht
  | succ d ih =>
    have hlength := (List.getElem?_eq_some_iff.mp ht).1
    obtain ⟨u, hu⟩ : ∃ u, ts[i + d + 1]? = some u := ⟨_, List.getElem?_eq_getElem (by omega)⟩
    have hpause := h.gap (i + d + 1) u t hu ht
    have hnext := hpos (i + d + 1)
    calc s + least (i + 1)
      _ ≤ u := ih (by omega) hu
      _ ≤ u + least (i + d + 1 + 1) := Int.le_add_of_nonneg_right hnext
      _ ≤ t := hpause

/-- Some of the times, when the pauses never become shorter. -/
theorem Spaced.sublist (h : Spaced least limit start ts) (hpos : ∀ n, 0 ≤ least (n + 1))
    (hmono : ∀ i j, i ≤ j → least (i + 1) ≤ least (j + 1)) (hsub : ts'.Sublist ts) :
    Spaced least limit start ts' := by
  obtain ⟨f, hf⟩ := List.sublist_iff_exists_orderEmbedding_getElem?_eq.mp hsub
  refine ⟨le_trans hsub.length_le h.length_le, fun t ht => ?_, fun i s t hs ht => ?_⟩
  · rw [List.head?_eq_getElem?, hf] at ht
    obtain ⟨s, hs⟩ : ∃ s, ts[0]? = some s :=
      ⟨_, List.getElem?_eq_getElem (by have := (List.getElem?_eq_some_iff.mp ht).1; omega)⟩
    have hfirst := h.first s (by rw [List.head?_eq_getElem?]; exact hs)
    rcases Nat.eq_zero_or_pos (f 0) with hzero | hlater
    · rw [hzero, hs] at ht
      rw [← Option.some.inj ht]
      exact hfirst
    · have hpause := h.gap_of_lt hpos hlater hs ht
      have hnext := hpos 0
      omega
  · -- the two are at least as far behind in the whole list
    rw [hf] at hs ht
    have hpause := h.gap_of_lt hpos (f.lt_iff_lt.mpr (Nat.lt_succ_self i)) hs ht
    have hle : i ≤ f i := f.strictMono.le_apply
    have hlonger := hmono i (f i) hle
    omega

end Spaced

end Backoff
