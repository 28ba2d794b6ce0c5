/-
FloodPeer/ListRep.lean

The redundant fields of the lists of `genlist.c`, over sequences of operations.

Every operation keeps `first` and `last` right.  The counter `length` goes
wrong in one place: `remove_elem` forgets it when the cell it takes out is
neither the first nor the last one.  `rep_iff_of_run` says that this is the
only way to break the representation.  On a list whose fields agree and whose
contents are strictly increasing, `add_elem` inserts in order, and no element
twice (`addElem_sorted`).
-/
import FloodPeer.Linked
import FloodPeer.Lib.Runs

namespace FloodPeer

open StateLogic Runs

variable {α σ : Type}

/-- The three redundant fields of a list agree. -/
structure CList.Rep (this : CList α) : Prop where
  length : this.length = this.entries.length
  last : this.last = this.entries.getLast?.map (·.addr)
  empty : this.last = none ↔ this.first = none

/-! ### The counter -/

theorem length_addLast {this : CList α} {bound : Nat} (h : this.Linked bound)
    (calloc : StateM σ (Option Nat)) (elem : α) (s : σ) :
    (value (addLast calloc this elem) s).1.length + this.entries.length =
      this.length + (value (addLast calloc this elem) s).1.entries.length := by
  obtain ⟨-, hvalue⟩ := addLast_eq h calloc elem s
  rw [hvalue]
  cases value calloc s with
  | none => rfl
  | some a =>
    show this.length + 1 + this.entries.length =
      this.length + (this.entries ++ [({ addr := a, content := elem } : ListEntry α)]).length
    rw [List.length_append, List.length_singleton]
    omega

theorem length_addElemLoop (compare : α → α → Int) (calloc : StateM σ (Option Nat)) (elem : α)
    (s : σ) (l : List (ListEntry α)) {r : List (ListEntry α) × Nat × Int}
    (hr : value (addElemLoop compare calloc elem l) s = some r) :
    r.1.length = l.length + r.2.1 := by
  -- the increment is `1` in the branch that has a new cell, and `0` in all others
  induction l generalizing r with
  | nil => exact absurd hr (by simp [addElemLoop])
  | cons nxt rest ih =>
    by_cases hgt : compare nxt.content elem > 0
    · simp only [addElemLoop, if_pos hgt, initEntry, value_bind, value_pure] at hr
      cases hv : value calloc s with
      | none =>
        rw [hv] at hr
        obtain rfl := Option.some.inj hr
        rfl
      | some a =>
        rw [hv] at hr
        obtain rfl := Option.some.inj hr
        rfl
    by_cases hzero : compare nxt.content elem = 0
    · simp only [addElemLoop, if_neg hgt, if_pos hzero] at hr
      obtain rfl := Option.some.inj hr
      rfl
    · simp only [addElemLoop, if_neg hgt, if_neg hzero, value_bind] at hr
      cases hv : value (addElemLoop compare calloc elem rest) s with
      | none =>
        rw [hv] at hr
        exact absurd hr (Option.some_ne_none _).symm
      | some r' =>
        rw [hv] at hr
        obtain rfl := Option.some.inj hr
        have hlen := ih hv
        show r'.1.length + 1 = rest.length + 1 + r'.2.1
        omega

theorem length_addElem (compare : α → α → Int) {this : CList α} {bound : Nat}
    (h : this.Linked bound) (calloc : StateM σ (Option Nat)) (elem : α) (s : σ) :
    (value (addElem compare calloc this elem) s).1.length + this.entries.length =
      this.length + (value (addElem compare calloc this elem) s).1.entries.length := by
  have hend := length_addLast h calloc elem
  obtain ⟨length, entries, last⟩ := this
  unfold addElem
  rcases h.cases with ⟨rfl, rfl⟩ | ⟨pre, e, hentries, rfl, -⟩
  · exact hend s
  obtain ⟨first, rest, rfl⟩ : ∃ first rest, entries = first :: rest :=
    List.exists_cons_of_ne_nil (by rw [show entries = _ from hentries]; simp)
  by_cases hgt : compare first.content elem > 0
  · simp only [if_pos hgt, initEntry, value_bind, value_pure]
    cases value calloc s with
    | none => rfl
    | some a =>
      show length + 1 + (rest.length + 1) = length + (rest.length + 1 + 1)
      omega
  by_cases hzero : compare first.content elem = 0
  · simp only [if_neg hgt, if_pos hzero]
    rfl
  · simp only [if_neg hgt, if_neg hzero, value_bind]
    have hloop := @length_addElemLoop α σ compare calloc elem s rest
    generalize value (addElemLoop compare calloc elem rest) s = r at hloop ⊢
    cases r with
    | none => exact hend _
    | some r =>
      have hlen := hloop rfl
      show length + r.2.1 + (rest.length + 1) = length + (r.1.length + 1)
      omega

theorem length_removeFirst {this : CList α} (h : this.entries.length ≤ this.length) :
    (removeFirst this).1.length + this.entries.length =
      this.length + (removeFirst this).1.entries.length := by
  unfold removeFirst
  cases hentries : this.entries with
  | nil =>
    show this.length + 0 = this.length + this.entries.length
    rw [hentries]
    rfl
  | cons e rest =>
    rw [hentries, List.length_cons] at h
    show this.length - 1 + (rest.length + 1) = this.length + rest.length
    omega

theorem after_addLimited (calloc : StateM σ (Option Nat)) (this : CList α) (elem : α)
    (max_t : Nat) (s : σ) :
    after (addLimited calloc this elem max_t) s = after (addLast calloc this elem) s := by
  unfold addLimited
  simp only [after_bind, after_ite, after_pure, ite_self]

theorem length_addLimited {this : CList α} {bound : Nat} (h : this.Linked bound)
    (calloc : StateM σ (Option Nat)) (elem : α) (max_t : Nat) (s : σ)
    (hlen : this.entries.length ≤ this.length) :
    (value (addLimited calloc this elem max_t) s).1.length + this.entries.length =
      this.length + (value (addLimited calloc this elem max_t) s).1.entries.length := by
  have hlast := length_addLast h calloc elem s
  unfold addLimited
  simp only [value_bind, value_ite, value_pure]
  generalize value (addLast calloc this elem) s = r at hlast ⊢
  by_cases hlong : r.1.length > max_t
  · have hfirst := @length_removeFirst α r.1 (by omega)
    simp only [if_pos hlong]
    omega
  · simp only [if_neg hlong]
    exact hlast

/-- The first cell that compares equal to `elem` is neither the first nor the
last one. -/
def CList.TakesMiddle (this : CList α) (compare : α → α → Int) (elem : α) : Prop :=
  ∃ pre e post, this.entries = pre ++ e :: post ∧
    (∀ x ∈ pre, compare x.content elem ≠ 0) ∧ compare e.content elem = 0 ∧
    pre ≠ [] ∧ post ≠ []

theorem not_takesMiddle_of_first {this : CList α} {compare : α → α → Int} {elem : α}
    {first : ListEntry α} {rest : List (ListEntry α)} (hentries : this.entries = first :: rest)
    (hzero : compare first.content elem = 0) : ¬ this.TakesMiddle compare elem := by
  rintro ⟨pre, e, post, heq, hpre, -, hne, -⟩
  rw [hentries] at heq
  obtain ⟨x, pre, rfl⟩ := List.exists_cons_of_ne_nil hne
  obtain ⟨rfl, -⟩ := List.cons.inj heq
  exact hpre first List.mem_cons_self hzero

/-- The first cell that compares equal is determined. -/
theorem first_equal_unique {p : ListEntry α → Prop} {pre pre' post post' : List (ListEntry α)}
    {e e' : ListEntry α} (h : pre ++ e :: post = pre' ++ e' :: post') (hpre : ∀ x ∈ pre, ¬ p x)
    (he : p e) (hpre' : ∀ x ∈ pre', ¬ p x) (he' : p e') : pre = pre' ∧ post = post' := by
  rcases List.append_eq_append_iff.mp h with ⟨l, rfl, heq⟩ | ⟨l, rfl, heq⟩
  · cases l with
    | nil =>
      rw [List.nil_append] at heq
      exact ⟨(List.append_nil _).symm, (List.cons.inj heq).2⟩
    | cons x l =>
      obtain ⟨rfl, -⟩ := List.cons.inj heq
      exact absurd he (hpre' e (by simp))
  · cases l with
    | nil =>
      rw [List.nil_append] at heq
      exact ⟨List.append_nil _, (List.cons.inj heq).2.symm⟩
    | cons x l =>
      obtain ⟨rfl, -⟩ := List.cons.inj heq
      exact absurd he' (hpre e' (by simp))

/-- `remove_elem` forgets the counter exactly when it takes out a cell from the
middle. -/
theorem length_removeElem (compare : α → α → Int) {this : CList α}
    (hlen : this.entries.length ≤ this.length) (elem : α) :
    (this.TakesMiddle compare elem ∧ (removeElem compare this elem).1.length = this.length ∧
      (removeElem compare this elem).1.entries.length + 1 = this.entries.length) ∨
    (¬ this.TakesMiddle compare elem ∧
      (removeElem compare this elem).1.length + this.entries.length =
        this.length + (removeElem compare this elem).1.entries.length) := by
  have hfirst := length_removeFirst hlen
  unfold removeElem CList.TakesMiddle
  cases hentries : this.entries with
  | nil =>
    right
    refine ⟨?_, by simp [hentries]⟩
    rintro ⟨pre, e, post, heq, -⟩
    exact absurd heq (by simp)
  | cons first rest =>
    rw [hentries] at hfirst hlen
    by_cases hzero : compare first.content elem = 0
    · simp only [if_pos hzero]
      right
      have hno := not_takesMiddle_of_first hentries hzero
      unfold CList.TakesMiddle at hno
      rw [hentries] at hno
      exact ⟨hno, hfirst⟩
    · simp only [if_neg hzero]
      have hloop := @removeElemLoop_spec α compare elem first rest
      generalize removeElemLoop compare elem first rest = r at hloop ⊢
      cases r with
      | none =>
        right
        refine ⟨?_, by simp [hentries]⟩
        rintro ⟨pre, e, post, heq, -, he, hne, -⟩
        obtain ⟨x, pre, rfl⟩ := List.exists_cons_of_ne_nil hne
        obtain ⟨rfl, rfl⟩ := List.cons.inj heq
        exact hloop e (by simp) he
      | some r =>
        obtain ⟨rest', cont, last⟩ := r
        obtain ⟨pre, e, post, rfl, hpre, he, rfl, rfl, rfl⟩ := hloop
        have hpre' : ∀ x ∈ first :: pre, ¬ compare x.content elem = 0 := by
          intro x hx
          rcases List.mem_cons.mp hx with rfl | hx
          · exact hzero
          · exact hpre x hx
        cases post with
        | nil =>
          -- the last cell
          right
          obtain ⟨x, hx⟩ : ∃ x, (first :: pre).getLast? = some x :=
            ⟨_, List.getLast?_eq_some_getLast (List.cons_ne_nil _ _)⟩
          simp only [List.isEmpty_nil, if_true, hx, Option.map_some]
          refine ⟨?_, ?_⟩
          · rintro ⟨pre', e', post', heq, hpre₂, he₂, -, hpost⟩
            rw [← List.cons_append] at heq
            exact hpost (first_equal_unique heq hpre' he hpre₂ he₂).2.symm
          · simp only [List.length_cons, List.length_append, List.length_nil] at hlen ⊢
            omega
        | cons e' post =>
          left
          simp only [List.isEmpty_cons, Bool.false_eq_true, if_false]
          refine ⟨⟨first :: pre, e, e' :: post, rfl, hpre', he, by simp, by simp⟩, trivial, ?_⟩
          simp only [List.length_cons, List.length_append]
          omega

/-! ### Sequences of operations -/

/-- The operations of `genlist.c`, each with the comparator it uses and with
whether the allocator has memory for it. -/
inductive ListOp (α : Type) where
  | addLast (elem : α) (ok : Bool)
  | addElem (compare : α → α → Int) (elem : α) (ok : Bool)
  | addLimited (elem : α) (max_t : Nat) (ok : Bool)
  | removeFirst
  | removeElem (compare : α → α → Int) (elem : α)
  | freeList (isNull : α → Bool)

/-- An allocator whose next block is known. -/
def allocator (ok : Bool) : StateM Nat (Option Nat) := fun next =>
  if ok then (some next, next + 1) else (none, next)

/-- What an operation does to a list, and to the allocator. -/
def ListOp.act : ListOp α → CList α × Nat → CList α × Nat
  | .addLast elem ok, s =>
    let m := FloodPeer.addLast (allocator ok) s.1 elem
    ((value m s.2).1, after m s.2)
  | .addElem compare elem ok, s =>
    let m := FloodPeer.addElem compare (allocator ok) s.1 elem
    ((value m s.2).1, after m s.2)
  | .addLimited elem max_t ok, s =>
    let m := FloodPeer.addLimited (allocator ok) s.1 elem max_t
    ((value m s.2).1, after m s.2)
  | .removeFirst, s => ((FloodPeer.removeFirst s.1).1, s.2)
  | .removeElem compare elem, s => ((FloodPeer.removeElem compare s.1 elem).1, s.2)
  | .freeList isNull, s => (FloodPeer.freeList isNull s.1, s.2)

def ListOp.Does (op : ListOp α) (s s' : CList α × Nat) : Prop := s' = op.act s

/-- The operation does not take a cell out of the middle. -/
def ListOp.AtTheEnds (op : ListOp α) (l : CList α) : Prop :=
  ∀ compare elem, op = .removeElem compare elem → ¬ l.TakesMiddle compare elem

/-- What holds whatever has gone wrong with the counter. -/
structure Counted (s : CList α × Nat) : Prop where
  linked : s.1.Linked s.2
  length : s.1.entries.length ≤ s.1.length

theorem rep_iff {s : CList α × Nat} (h : Counted s) :
    s.1.Rep ↔ s.1.length = s.1.entries.length := by
  constructor
  · exact CList.Rep.length
  · intro hlen
    refine ⟨hlen, h.linked.last, ?_⟩
    rw [h.linked.last]
    unfold CList.first
    cases s.1.entries with
    | nil => exact Iff.rfl
    | cons e rest => simp

theorem allocator_spec (ok : Bool) (next : Nat) :
    next ≤ after (allocator ok) next ∧
      ∀ a, value (allocator ok) next = some a → next ≤ a ∧ a < after (allocator ok) next := by
  cases ok with
  | false => exact ⟨Nat.le_refl _, nofun⟩
  | true =>
    refine ⟨Nat.le_succ _, ?_⟩
    rintro a ⟨rfl⟩
    exact ⟨Nat.le_refl _, Nat.lt_succ_self _⟩

/-- Freeing a list keeps it linked, and the counter as wrong as it was. -/
theorem freeListLoop_spec (isNull : α → Bool) (fuel : Nat) {this : CList α} {bound : Nat}
    (h : this.Linked bound) (hlen : this.entries.length ≤ this.length) :
    (freeListLoop isNull fuel this).Linked bound ∧
      (freeListLoop isNull fuel this).length + this.entries.length =
        this.length + (freeListLoop isNull fuel this).entries.length := by
  induction fuel generalizing this with
  | zero => exact ⟨h, rfl⟩
  | succ fuel ih =>
    obtain ⟨hlinked, -, -⟩ := linked_removeFirst h
    have hfirst := length_removeFirst hlen
    unfold freeListLoop
    generalize removeFirst this = r at hlinked hfirst ⊢
    obtain ⟨this', tmp⟩ := r
    cases tmp with
    | none => exact ⟨hlinked, hfirst⟩
    | some tmp =>
      cases hnull : isNull tmp with
      | true =>
        simp only [hnull, if_true]
        exact ⟨hlinked, hfirst⟩
      | false =>
        simp only [hnull, Bool.false_eq_true, if_false]
        have hfirst : this'.length + this.entries.length =
          this.length + this'.entries.length := hfirst
        obtain ⟨hl, hcount⟩ := ih hlinked (show this'.entries.length ≤ this'.length by omega)
        have hcount : (freeListLoop isNull fuel this').length + this'.entries.length =
          this'.length + (freeListLoop isNull fuel this').entries.length := hcount
        exact ⟨hl, by omega⟩

/-- One operation: the counter goes wrong by one when a cell is taken out of the
middle, and otherwise stays as it was. -/
theorem ListOp.step (op : ListOp α) {s : CList α × Nat} (h : Counted s) :
    Counted (op.act s) ∧
      (op.AtTheEnds s.1 → (op.act s).1.length + s.1.entries.length =
        s.1.length + (op.act s).1.entries.length) ∧
      (¬ op.AtTheEnds s.1 → (op.act s).1.entries.length < (op.act s).1.length) := by
  obtain ⟨l, next⟩ := s
  obtain ⟨hlinked, hlen⟩ := h
  -- all but `remove_elem` only have to keep the balance
  have hends : (∀ compare elem, op ≠ .removeElem compare elem) → op.AtTheEnds l :=
    fun hop compare elem heq => absurd heq (hop compare elem)
  have hbalance : ∀ {s' : CList α × Nat}, s'.1.Linked s'.2 →
      s'.1.length + l.entries.length = l.length + s'.1.entries.length → Counted s' := by
    intro s' hs' hcount
    exact ⟨hs', by have hlen : l.entries.length ≤ l.length := hlen; omega⟩
  cases op with
  | addLast elem ok =>
    obtain ⟨hnext, hfresh⟩ := allocator_spec ok next
    obtain ⟨hafter, hvalue⟩ := addLast_eq hlinked (allocator ok) elem next
    have hcount := length_addLast hlinked (allocator ok) elem next
    have hl : (value (FloodPeer.addLast (allocator ok) l elem) next).1.Linked
        (after (FloodPeer.addLast (allocator ok) l elem) next) := by
      rw [hafter, hvalue]
      cases hv : value (allocator ok) next with
      | none => exact hlinked.mono hnext
      | some a =>
        obtain ⟨ha, hhi⟩ := hfresh a hv
        exact hlinked.snoc ha hhi elem _
    exact ⟨hbalance hl hcount, fun _ => hcount, fun hno => absurd (hends nofun) hno⟩
  | addElem compare elem ok =>
    obtain ⟨hnext, hfresh⟩ := allocator_spec ok next
    obtain ⟨hins, hlast, hnew⟩ := @addElem_spec α Nat compare l next hlinked (allocator ok)
      elem next
    have hcount := length_addElem compare hlinked (allocator ok) elem next
    have hl : (value (FloodPeer.addElem compare (allocator ok) l elem) next).1.Linked
        (after (FloodPeer.addElem compare (allocator ok) l elem) next) := by
      have hafter : next ≤ after (FloodPeer.addElem compare (allocator ok) l elem) next :=
        keeps_addElem Nat.le_refl (fun _ _ _ => Nat.le_trans)
          (fun next => (allocator_spec ok next).1) compare l elem next
      refine ⟨hins.nodup hlinked.nodup hlinked.below fun a ha => (hfresh a ha).1, hlast, ?_⟩
      intro e he
      rcases hins.mem.mp he with he | ⟨hrc, a, ha, rfl⟩
      · exact Nat.lt_of_lt_of_le (hlinked.below e he) hafter
      · rw [hnew hrc]
        exact (hfresh a ha).2
    exact ⟨hbalance hl hcount, fun _ => hcount, fun hno => absurd (hends nofun) hno⟩
  | addLimited elem max_t ok =>
    obtain ⟨hnext, hfresh⟩ := allocator_spec ok next
    obtain ⟨hafter, -⟩ := addLast_eq hlinked (allocator ok) elem next
    obtain ⟨hl, -⟩ := addLimited_spec hlinked (allocator ok) elem max_t next hnext hfresh
    have hcount := length_addLimited hlinked (allocator ok) elem max_t next hlen
    have hl : (value (FloodPeer.addLimited (allocator ok) l elem max_t) next).1.Linked
        (after (FloodPeer.addLimited (allocator ok) l elem max_t) next) := by
      rw [after_addLimited, hafter]
      exact hl
    exact ⟨hbalance hl hcount, fun _ => hcount, fun hno => absurd (hends nofun) hno⟩
  | removeFirst =>
    obtain ⟨hl, -, -⟩ := linked_removeFirst hlinked
    have hcount := length_removeFirst hlen
    exact ⟨hbalance hl hcount, fun _ => hcount, fun hno => absurd (hends nofun) hno⟩
  | removeElem compare elem =>
    obtain ⟨-, hl⟩ := @removeElem_spec α compare l next hlinked elem
    rcases length_removeElem compare hlen elem with ⟨hmid, hlen', hentries⟩ | ⟨hmid, hcount⟩
    · have hlt : (FloodPeer.removeElem compare l elem).1.entries.length <
          (FloodPeer.removeElem compare l elem).1.length := by
        have hlen : l.entries.length ≤ l.length := hlen
        have hentries : (FloodPeer.removeElem compare l elem).1.entries.length + 1 =
          l.entries.length := hentries
        rw [hlen']
        exact Nat.lt_of_lt_of_le (Nat.lt_of_succ_le (Nat.le_of_eq hentries)) hlen
      exact ⟨⟨hl, Nat.le_of_lt hlt⟩, fun hop => absurd hmid (hop _ _ rfl), fun _ => hlt⟩
    · refine ⟨hbalance hl hcount, fun _ => hcount, fun hno => absurd ?_ hno⟩
      rintro _ _ ⟨rfl, rfl⟩
      exact hmid
  | freeList isNull =>
    obtain ⟨hl, hcount⟩ := freeListLoop_spec isNull (l.entries.length + 1) hlinked hlen
    exact ⟨hbalance hl hcount, fun _ => hcount, fun hno => absurd (hends nofun) hno⟩

theorem counted_initList : Counted ((initList : CList α), 0) :=
  ⟨linked_initList 0, Nat.le_refl 0⟩

theorem counted_of_run {s s' : CList α × Nat} {tr : List ((CList α × Nat) × ListOp α)}
    (h : Run ListOp.Does s tr s') (hs : Counted s) : Counted s' :=
  h.invariant hs fun _ op _ hv hop => (show _ = op.act _ from hop) ▸ (op.step hv).1

/-- **The representation invariant of the lists**: it holds in every state of a
sequence of operations exactly when no operation takes a cell out of the middle
of its list. -/
theorem rep_iff_of_run {s : CList α × Nat} {tr : List ((CList α × Nat) × ListOp α)}
    (hrun : Run ListOp.Does ((initList : CList α), 0) tr s) :
    ((∀ x ∈ tr, x.1.1.Rep) ∧ s.1.Rep) ↔ ∀ x ∈ tr, x.2.AtTheEnds x.1.1 := by
  induction hrun with
  | nil =>
    refine ⟨fun _ _ hx => absurd hx List.not_mem_nil, fun _ => ⟨fun _ hx => absurd hx
      List.not_mem_nil, ?_⟩⟩
    exact (rep_iff counted_initList).mpr rfl
  | @snoc tr v u op hrun hdoes ih =>
    have hv := counted_of_run hrun counted_initList
    obtain ⟨hu, hends, hmid⟩ := op.step hv
    have hu' : Counted u := (show u = op.act v from hdoes) ▸ hu
    constructor
    · rintro ⟨hall, hrep⟩ x hx
      have hvrep : v.1.Rep := hall (v, op) (by simp)
      rcases List.mem_append.mp hx with hx | hx
      · exact ih.mp ⟨fun x hx => hall x (List.mem_append_left _ hx), hvrep⟩ x hx
      · obtain rfl := List.mem_singleton.mp hx
        -- a cell out of the middle would leave the counter too high
        by_contra hop
        have hlt := hmid hop
        rw [← show u = op.act v from hdoes] at hlt
        exact absurd ((rep_iff hu').mp hrep) (Nat.ne_of_gt hlt)
    · intro hall
      obtain ⟨hrep, hvrep⟩ := ih.mpr fun x hx => hall x (List.mem_append_left _ hx)
      refine ⟨fun x hx => ?_, ?_⟩
      · rcases List.mem_append.mp hx with hx | hx
        · exact hrep x hx
        · obtain rfl := List.mem_singleton.mp hx
          exact hvrep
      · have hcount := hends (hall (v, op) (by simp))
        rw [← show u = op.act v from hdoes] at hcount
        have hlen := (rep_iff hv).mp hvrep
        exact (rep_iff hu').mpr (by omega)

/-- Three numbers in a list, by difference. -/
def threeNumbers : List (ListOp Int) :=
  [.addLast 1 true, .addLast 2 true, .addElem (· - ·) 3 true]

theorem rep_after_removal :
    (played ListOp.act (threeNumbers ++ [.removeElem (· - ·) 1]) (initList, 0)).1.Rep := by
  refine ((rep_iff_of_run (@run_played _ _ ListOp.Does ListOp.act (fun _ _ => rfl) _ _)).mpr ?_).2
  intro x hx compare elem hop
  -- the only removal takes the first cell
  rcases hx with _ | ⟨_, _ | ⟨_, _ | ⟨_, _ | ⟨_, hx⟩⟩⟩⟩
  · exact absurd hop nofun
  · exact absurd hop nofun
  · exact absurd hop nofun
  · obtain ⟨rfl, rfl⟩ := ListOp.removeElem.inj hop
    exact not_takesMiddle_of_first rfl (by decide)
  · exact absurd hx List.not_mem_nil

/-- The second of three cells is taken out, and the counter stays at three. -/
theorem not_rep_after_removal :
    Run ListOp.Does ((initList : CList Int), 0)
        (playedHistory ListOp.act (threeNumbers ++ [.removeElem (· - ·) 2]) (initList, 0))
        (played ListOp.act (threeNumbers ++ [.removeElem (· - ·) 2]) (initList, 0)) ∧
      ¬ (played ListOp.act (threeNumbers ++ [.removeElem (· - ·) 2]) (initList, 0)).1.Rep := by
  refine ⟨@run_played _ _ ListOp.Does ListOp.act (fun _ _ => rfl) _ _, fun hrep => ?_⟩
  exact absurd hrep.length (by decide)

/-! ### Insertion into a sorted list -/

/-- The comparator is a strict total order. -/
structure StrictTotal (compare : α → α → Int) : Prop where
  antisymm : ∀ x y, compare x y < 0 ↔ 0 < compare y x
  trans : ∀ x y z, compare x y < 0 → compare y z < 0 → compare x z < 0
  eq_zero_iff : ∀ x y, compare x y = 0 ↔ x = y

/-- The contents of the list are strictly increasing. -/
def CList.Increasing (this : CList α) (compare : α → α → Int) : Prop :=
  this.contents.Pairwise fun x y => compare x y < 0

section Increasing

variable {compare : α → α → Int} {elem : α}

/-- The loop stops at a cell that compares equal, before it allocates anything. -/
theorem addElemLoop_clash (calloc : StateM σ (Option Nat)) {pre post : List (ListEntry α)}
    {e : ListEntry α} (hpre : ∀ x ∈ pre, compare x.content elem < 0)
    (he : compare e.content elem = 0) (s : σ) :
    value (addElemLoop compare calloc elem (pre ++ e :: post)) s =
      some (pre ++ e :: post, 0, 2) := by
  induction pre with
  | nil =>
    rw [List.nil_append, addElemLoop]
    simp only [he, gt_iff_lt, Int.lt_irrefl, if_true, if_false]
    rfl
  | cons x pre ih =>
    have hx : compare x.content elem < 0 := hpre x List.mem_cons_self
    rw [List.cons_append, addElemLoop]
    simp only [gt_iff_lt, Int.lt_asymm hx, Int.ne_of_lt hx, if_false, value_bind]
    rw [ih fun y hy => hpre y (List.mem_cons_of_mem _ hy)]
    rfl

theorem addElem_clash (calloc : StateM σ (Option Nat)) {this : CList α} {bound : Nat}
    (h : this.Linked bound) {pre post : List (ListEntry α)} {e : ListEntry α}
    (hentries : this.entries = pre ++ e :: post) (hpre : ∀ x ∈ pre, compare x.content elem < 0)
    (he : compare e.content elem = 0) (s : σ) :
    value (addElem compare calloc this elem) s = (this, 2) := by
  obtain ⟨length, entries, last⟩ := this
  obtain rfl : entries = pre ++ e :: post := hentries
  rcases h.cases with ⟨hnil, -⟩ | ⟨-, e', -, rfl, -⟩
  · exact absurd hnil (by simp)
  unfold addElem
  cases pre with
  | nil =>
    simp only [List.nil_append, he, gt_iff_lt, Int.lt_irrefl, if_true, if_false]
    rfl
  | cons x pre =>
    have hx : compare x.content elem < 0 := hpre x List.mem_cons_self
    simp only [List.cons_append, gt_iff_lt, Int.lt_asymm hx, Int.ne_of_lt hx, if_false, value_bind]
    rw [addElemLoop_clash calloc (fun y hy => hpre y (List.mem_cons_of_mem _ hy)) he]
    rfl

/-- In an increasing list, what is in front of a cell is smaller. -/
theorem CList.Increasing.front {this : CList α} (h : this.Increasing compare)
    {pre post : List (ListEntry α)} {e : ListEntry α} (hentries : this.entries = pre ++ e :: post) :
    ∀ x ∈ pre, compare x.content e.content < 0 := by
  intro x hx
  have hpairs := List.pairwise_map.mp h
  rw [hentries] at hpairs
  exact (List.pairwise_append.mp hpairs).2.2 x hx e List.mem_cons_self

/-- The new element goes where it belongs. -/
theorem StrictTotal.pairwise_insert (hcompare : StrictTotal compare)
    {pre post : List (ListEntry α)} {res : ListEntry α}
    (h : (pre ++ post).Pairwise fun x y => compare x.content y.content < 0)
    (hpre : ∀ x ∈ pre, compare x.content res.content < 0)
    (hpost : ∀ x ∈ post.head?, 0 < compare x.content res.content) :
    (pre ++ res :: post).Pairwise fun x y => compare x.content y.content < 0 := by
  obtain ⟨hl, hr, hlr⟩ := List.pairwise_append.mp h
  -- the elements behind the new one are greater than the first of them
  have hafter : ∀ y ∈ post, compare res.content y.content < 0 := by
    intro y hy
    cases post with
    | nil => cases hy
    | cons z post =>
      have hz : compare res.content z.content < 0 :=
        (hcompare.antisymm _ _).mpr (hpost z rfl)
      rcases List.mem_cons.mp hy with rfl | hy
      · exact hz
      · exact hcompare.trans _ _ _ hz ((List.pairwise_cons.mp hr).1 y hy)
  refine List.pairwise_append.mpr ⟨hl, List.pairwise_cons.mpr ⟨hafter, hr⟩, fun x hx y hy => ?_⟩
  rcases List.mem_cons.mp hy with rfl | hy
  · exact hpre x hx
  · exact hlr x hx y hy

/-- A list is its cells, as far as the redundant fields agree. -/
theorem CList.Rep.eq_of_entries {this this' : CList α} {bound : Nat} (h : this.Linked bound)
    (hlast : this'.last = this'.entries.getLast?.map (·.addr))
    (hlen : this'.length + this.entries.length = this.length + this'.entries.length)
    (hentries : this'.entries = this.entries) : this' = this := by
  have hthis := h.last
  obtain ⟨length, entries, last⟩ := this
  obtain ⟨length', entries', last'⟩ := this'
  obtain rfl : entries' = entries := hentries
  obtain rfl : last' = last := hlast.trans hthis.symm
  obtain rfl : length' = length := Nat.add_right_cancel hlen
  rfl

/-- **Sorted insertion without duplicates.**  In an increasing list `add_elem`
finds an equal element and answers `2`; otherwise it answers `1` and the new
cell is in its place, or `0` when there is no memory. -/
theorem addElem_sorted (hcompare : StrictTotal compare) {this : CList α} {bound : Nat}
    (hlinked : this.Linked bound) (hrep : this.Rep) (hsorted : this.Increasing compare)
    (elem : α) (calloc : StateM σ (Option Nat)) (s : σ)
    (hfresh : ∀ a, value calloc s = some a → bound ≤ a) :
    (elem ∈ this.contents → value (addElem compare calloc this elem) s = (this, 2)) ∧
    (elem ∉ this.contents → value calloc s = none →
      value (addElem compare calloc this elem) s = (this, 0)) ∧
    (elem ∉ this.contents → ∀ a, value calloc s = some a → ∃ this' pre post,
      value (addElem compare calloc this elem) s = (this', 1) ∧
      this.entries = pre ++ post ∧
      this'.entries = pre ++ { addr := a, content := elem } :: post ∧
      this'.Increasing compare ∧ this'.length = this.length + 1 ∧
      this'.Rep ∧ this'.Linked (a + 1)) := by
  obtain ⟨hins, hlast, -⟩ := @addElem_spec _ _ compare this bound hlinked calloc elem s
  have hlen := length_addElem compare hlinked calloc elem s
  -- nothing compares equal to an element that is not there
  have hclash : ∀ pre e post, this.entries = pre ++ e :: post → compare e.content elem = 0 →
      elem ∈ this.contents := by
    intro pre e post hentries he
    rw [← (hcompare.eq_zero_iff _ _).mp he, CList.contents, hentries]
    exact List.mem_map_of_mem (List.mem_append_right _ List.mem_cons_self)
  refine ⟨fun hmem => ?_, fun hmem hnone => ?_, fun hmem a ha => ?_⟩
  · obtain ⟨e, he, rfl⟩ := List.mem_map.mp hmem
    obtain ⟨pre, post, hentries⟩ := List.append_of_mem he
    exact addElem_clash calloc hlinked hentries (hsorted.front hentries)
      ((hcompare.eq_zero_iff _ _).mpr rfl) s
  · rw [hnone] at hins
    generalize value (addElem compare calloc this elem) s = r at hins hlast hlen ⊢
    obtain ⟨this', rc⟩ := r
    generalize hl' : this'.entries = l' at hins
    cases hins with
    | failed =>
      obtain rfl := CList.Rep.eq_of_entries hlinked hlast hlen hl'
      rfl
    | clash pre e post hentries hpre he => exact absurd (hclash pre e post hentries he) hmem
    | inserted b pre post hb => cases hb
  · rw [ha] at hins
    generalize value (addElem compare calloc this elem) s = r at hins hlast hlen ⊢
    obtain ⟨this', rc⟩ := r
    generalize hl' : this'.entries = l' at hins
    cases hins with
    | failed hfound => cases hfound
    | clash pre e post hentries hpre he => exact absurd (hclash pre e post hentries he) hmem
    | inserted b pre post hb hentries hpre hpost =>
      obtain rfl := Option.some.inj hb
      have hgrown : this'.entries.length = this.entries.length + 1 := by
        rw [hl', hentries]
        simp only [List.length_append, List.length_cons]
        omega
      have hlen : this'.length + this.entries.length = this.length + this'.entries.length := hlen
      have hlinked' : this'.Linked (a + 1) := by
        refine ⟨?_, hlast, fun e he => ?_⟩
        · rw [hl']
          exact nodup_insert (hentries ▸ hlinked.nodup) (hentries ▸ hlinked.below) (hfresh a ha)
        · rw [hl'] at he
          rcases List.mem_append.mp he with he | he
          · have hlt := hlinked.below e (hentries ▸ List.mem_append_left _ he)
            have hle := hfresh a ha
            omega
          · rcases List.mem_cons.mp he with rfl | he
            · exact Nat.lt_succ_self a
            · have hlt := hlinked.below e (hentries ▸ List.mem_append_right _ he)
              have hle := hfresh a ha
              omega
      have hcount := hrep.length
      have hcounted : this'.length = this'.entries.length := by omega
      refine ⟨this', pre, post, rfl, hentries, hl', ?_, by omega, ?_, hlinked'⟩
      · refine List.pairwise_map.mpr ?_
        rw [hl']
        exact hcompare.pairwise_insert (hentries ▸ List.pairwise_map.mp hsorted) hpre hpost
      · exact (@rep_iff α (this', a + 1) ⟨hlinked', Nat.le_of_eq hcounted.symm⟩).mpr hcounted

end Increasing

/-- `1` and `3`, in the cells `0` and `1`. -/
def oneAndThree : CList Int :=
  { length := 2, entries := [⟨0, 1⟩, ⟨1, 3⟩], last := some 1 }

theorem strictTotal_sub : StrictTotal fun x y : Int => x - y where
  antisymm := by
    intro x y
    omega
  trans := by
    intro x y z hxy hyz
    omega
  eq_zero_iff := by
    intro x y
    omega

theorem addElem_sorted_two : ∃ this' pre post,
    value (addElem (fun x y : Int => x - y) (allocator true) oneAndThree 2) 2 = (this', 1) ∧
    oneAndThree.entries = pre ++ post ∧ this'.entries = pre ++ ⟨2, 2⟩ :: post ∧
    this'.Increasing (fun x y : Int => x - y) ∧ this'.length = 3 ∧ this'.Rep ∧ this'.Linked 3 := by
  have hlinked : oneAndThree.Linked 2 := ⟨by decide, rfl, by decide⟩
  have hrep : oneAndThree.Rep := ⟨rfl, rfl, by decide⟩
  have hsorted : oneAndThree.Increasing fun x y : Int => x - y := by
    unfold CList.Increasing
    decide
  refine (addElem_sorted strictTotal_sub hlinked hrep hsorted 2 (allocator true) 2 ?_).2.2
    (by decide) 2 rfl
  rintro a ⟨rfl⟩
  exact Nat.le_refl 2

end FloodPeer
