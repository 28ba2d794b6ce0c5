/-
FloodPeer/Linked.lean

The lists of `genlist.c` as sequences.

A list is `Linked` when its cells have different addresses and `last` points to
the final one.  All the operations keep lists linked, and on linked lists each
of them is an operation on the sequence of cells: `addLast` appends
(`addLast_eq`), `add_elem` inserts (`Inserts`), `remove_elem` takes out the
first cell that compares equal (`Removes`).  Nothing is assumed about the
comparator.
-/
import FloodPeer.Genlist
import Mathlib.Data.List.Nodup
import Mathlib.Tactic.Common

namespace FloodPeer

open StateLogic

variable {α σ : Type}

/-! ### Linked lists -/

/-- The redundant fields of a list agree, and its cells are below `bound`. -/
structure CList.Linked (this : CList α) (bound : Nat) : Prop where
  nodup : (this.entries.map (·.addr)).Nodup
  last : this.last = this.entries.getLast?.map (·.addr)
  below : ∀ e ∈ this.entries, e.addr < bound

theorem CList.Linked.mono {this : CList α} {bound bound' : Nat} (h : this.Linked bound)
    (hle : bound ≤ bound') : this.Linked bound' :=
  ⟨h.nodup, h.last, fun e he => Nat.lt_of_lt_of_le (h.below e he) hle⟩

theorem linked_initList (bound : Nat) : (initList : CList α).Linked bound :=
  ⟨List.nodup_nil, rfl, fun _ he => absurd he List.not_mem_nil⟩

/-- A chain with a new cell somewhere. -/
theorem nodup_insert {pre post : List (ListEntry α)} {a bound : Nat} {elem : α}
    (hnodup : ((pre ++ post).map (·.addr)).Nodup) (hbelow : ∀ e ∈ pre ++ post, e.addr < bound)
    (ha : bound ≤ a) : ((pre ++ { addr := a, content := elem } :: post).map (·.addr)).Nodup := by
  have hperm : ((pre ++ ({ addr := a, content := elem } : ListEntry α) :: post).map
      (·.addr)).Perm (a :: (pre ++ post).map (·.addr)) := by
    exact List.perm_middle.map fun e : ListEntry α => e.addr
  rw [hperm.nodup_iff, List.nodup_cons]
  refine ⟨fun hmem => ?_, hnodup⟩
  obtain ⟨e, he, heq⟩ := List.mem_map.mp hmem
  have hlt := hbelow e he
  omega

/-! ### What allocates a cell

A reflexive and transitive relation that the allocator keeps is kept by the
operations that allocate a cell. -/

section Allocation

variable {R : σ → σ → Prop} (hrefl : ∀ s, R s s) (htrans : ∀ s t u, R s t → R t u → R s u)
  {calloc : StateM σ (Option Nat)} (hcalloc : Keeps R calloc)

include hrefl htrans hcalloc

theorem keeps_initEntry (elem : α) : Keeps R (initEntry calloc elem) :=
  Keeps.bind htrans hcalloc fun _ => Keeps.pure hrefl _

theorem keeps_addLast (this : CList α) (elem : α) : Keeps R (addLast calloc this elem) := by
  unfold addLast
  split
  all_goals
    apply Keeps.bind htrans (keeps_initEntry hrefl htrans hcalloc elem)
    intro res
    cases res <;> exact Keeps.pure hrefl _

theorem keeps_addElemLoop (compare : α → α → Int) (elem : α) (l : List (ListEntry α)) :
    Keeps R (addElemLoop compare calloc elem l) := by
  induction l with
  | nil => exact Keeps.pure hrefl _
  | cons nxt rest ih =>
    apply Keeps.ite
    · intro _
      apply Keeps.bind htrans (keeps_initEntry hrefl htrans hcalloc elem)
      intro res
      cases res <;> exact Keeps.pure hrefl _
    intro _
    apply Keeps.ite (fun _ => Keeps.pure hrefl _)
    intro _
    apply Keeps.bind htrans ih
    intro res
    cases res <;> exact Keeps.pure hrefl _

theorem keeps_addElem (compare : α → α → Int) (this : CList α) (elem : α) :
    Keeps R (addElem compare calloc this elem) := by
  unfold addElem
  split
  · exact keeps_addLast hrefl htrans hcalloc _ _
  · exact Keeps.pure hrefl _
  · apply Keeps.ite
    · intro _
      apply Keeps.bind htrans (keeps_initEntry hrefl htrans hcalloc elem)
      intro res
      cases res <;> exact Keeps.pure hrefl _
    intro _
    apply Keeps.ite (fun _ => Keeps.pure hrefl _)
    intro _
    apply Keeps.bind htrans (keeps_addElemLoop hrefl htrans hcalloc _ _ _)
    intro res
    cases res with
    | none => exact keeps_addLast hrefl htrans hcalloc _ _
    | some res => exact Keeps.pure hrefl _

theorem keeps_addLimited (this : CList α) (elem : α) (max_t : Nat) :
    Keeps R (addLimited calloc this elem max_t) :=
  Keeps.bind htrans (keeps_addLast hrefl htrans hcalloc _ _) fun _ =>
    Keeps.ite (fun _ => Keeps.pure hrefl _) fun _ => Keeps.pure hrefl _

end Allocation

/-! ### `addLast` -/

theorem linkAfter_eq {pre : List (ListEntry α)} {e : ListEntry α} (res : ListEntry α)
    (hpre : ∀ x ∈ pre, x.addr ≠ e.addr) :
    linkAfter e.addr res (pre ++ [e]) = pre ++ [e, res] := by
  induction pre with
  | nil => simp [linkAfter]
  | cons x pre ih =>
    have hx : x.addr ≠ e.addr := hpre x List.mem_cons_self
    simp only [List.cons_append, linkAfter, if_neg hx]
    rw [ih fun y hy => hpre y (List.mem_cons_of_mem _ hy)]

/-- The two shapes of a linked list. -/
theorem CList.Linked.cases {this : CList α} {bound : Nat} (h : this.Linked bound) :
    (this.entries = [] ∧ this.last = none) ∨
    ∃ pre e, this.entries = pre ++ [e] ∧ this.last = some e.addr ∧
      ∀ x ∈ pre, x.addr ≠ e.addr := by
  have hlast := h.last
  have hnodup := h.nodup
  rcases List.eq_nil_or_concat this.entries with hnil | ⟨pre, e, hconcat⟩
  · rw [hnil] at hlast
    exact .inl ⟨hnil, hlast⟩
  · rw [List.concat_eq_append] at hconcat
    rw [hconcat] at hlast hnodup
    refine .inr ⟨pre, e, hconcat, by simpa using hlast, fun x hx heq => ?_⟩
    rw [List.map_append, List.nodup_append] at hnodup
    exact hnodup.2.2 _ (List.mem_map_of_mem hx) _ (by simp) heq

theorem addLast_eq {this : CList α} {bound : Nat} (h : this.Linked bound)
    (calloc : StateM σ (Option Nat)) (elem : α) (s : σ) :
    after (addLast calloc this elem) s = after calloc s ∧
    value (addLast calloc this elem) s =
      match value calloc s with
      | none => (this, 0)
      | some a => ({ length := this.length + 1
                     entries := this.entries ++ [{ addr := a, content := elem }]
                     last := some a }, 1) := by
  obtain ⟨length, entries, last⟩ := this
  unfold addLast initEntry
  rcases h.cases with ⟨rfl, rfl⟩ | ⟨pre, e, rfl, rfl, hpre⟩
  · simp only [after_bind, value_bind, after_pure, value_pure]
    cases value calloc s with
    | none => exact ⟨rfl, rfl⟩
    | some a => exact ⟨rfl, rfl⟩
  · simp only [after_bind, value_bind, after_pure, value_pure]
    cases value calloc s with
    | none => exact ⟨rfl, rfl⟩
    | some a =>
      refine ⟨rfl, ?_⟩
      simp only [Option.map_some, value_pure, linkAfter_eq _ hpre, List.append_assoc]
      rfl

/-- An appended cell keeps the list linked. -/
theorem CList.Linked.snoc {this : CList α} {bound a hi : Nat} (h : this.Linked bound)
    (ha : bound ≤ a) (hhi : a < hi) (elem : α) (length : Nat) :
    ({ length := length
       entries := this.entries ++ [{ addr := a, content := elem }]
       last := some a } : CList α).Linked hi := by
  refine ⟨?_, by simp, fun e he => ?_⟩
  · exact nodup_insert (by simpa using h.nodup) (by simpa using h.below) ha
  · rcases List.mem_append.mp he with he | he
    · have hlt := h.below e he
      omega
    · obtain rfl := List.mem_singleton.mp he
      exact hhi

/-! ### `add_elem` -/

variable (compare : α → α → Int)

/-- What `add_elem` makes of a chain, with its return code, when the allocator
answers `found`. -/
inductive Inserts (elem : α) (found : Option Nat) (l : List (ListEntry α)) :
    List (ListEntry α) → Int → Prop
  /-- There was no memory for the new cell. -/
  | failed (hfound : found = none) : Inserts elem found l l 0
  /-- A cell that compares equal was met first. -/
  | clash (pre : List (ListEntry α)) (e : ListEntry α) (post : List (ListEntry α))
      (hl : l = pre ++ e :: post) (hpre : ∀ x ∈ pre, compare x.content elem < 0)
      (he : compare e.content elem = 0) : Inserts elem found l l 2
  /-- The new cell follows the smaller ones. -/
  | inserted (a : Nat) (pre post : List (ListEntry α)) (hfound : found = some a)
      (hl : l = pre ++ post) (hpre : ∀ x ∈ pre, compare x.content elem < 0)
      (hpost : ∀ x ∈ post.head?, 0 < compare x.content elem) :
      Inserts elem found l (pre ++ { addr := a, content := elem } :: post) 1

variable {compare} {elem : α} {found : Option Nat}

theorem Inserts.cons {l l' : List (ListEntry α)} {rc : Int} {x : ListEntry α}
    (hx : compare x.content elem < 0) (h : Inserts compare elem found l l' rc) :
    Inserts compare elem found (x :: l) (x :: l') rc := by
  have hcons : ∀ pre : List (ListEntry α), (∀ y ∈ pre, compare y.content elem < 0) →
      ∀ y ∈ x :: pre, compare y.content elem < 0 := by
    intro pre hpre y hy
    rcases List.mem_cons.mp hy with rfl | hy
    · exact hx
    · exact hpre y hy
  cases h with
  | failed hfound => exact .failed hfound
  | clash pre e post hl hpre he =>
    exact .clash (x :: pre) e post (by rw [hl]; rfl) (hcons pre hpre) he
  | inserted a pre post hfound hl hpre hpost =>
    exact .inserted a (x :: pre) post hfound (by rw [hl]; rfl) (hcons pre hpre) hpost

/-- The loop of `add_elem`: it runs off the end, or it inserts before some cell. -/
theorem addElemLoop_spec (calloc : StateM σ (Option Nat)) (elem : α) (s : σ)
    (l : List (ListEntry α)) :
    match value (addElemLoop compare calloc elem l) s with
    | none => (∀ x ∈ l, compare x.content elem < 0) ∧
        after (addElemLoop compare calloc elem l) s = s
    | some (l', _, rc) => Inserts compare elem (value calloc s) l l' rc ∧
        l'.getLast? = l.getLast? ∧
        (rc = 1 → after (addElemLoop compare calloc elem l) s = after calloc s) := by
  -- at each cell: the element belongs before it, it is there already, or the walk goes on
  induction l with
  | nil => exact ⟨fun _ hx => absurd hx List.not_mem_nil, rfl⟩
  | cons nxt rest ih =>
    by_cases hgt : compare nxt.content elem > 0
    · simp only [addElemLoop, if_pos hgt, initEntry, value_bind, after_bind, value_pure,
        after_pure]
      cases hv : value calloc s with
      | none => exact ⟨.failed rfl, rfl, fun h => absurd h (by decide)⟩
      | some a =>
        refine ⟨.inserted a [] (nxt :: rest) rfl rfl (fun _ hx => absurd hx List.not_mem_nil)
          fun _ hx => Option.some.inj hx ▸ hgt, ?_, fun _ => rfl⟩
        rw [List.getLast?_cons_cons]
    by_cases hzero : compare nxt.content elem = 0
    · simp only [addElemLoop, if_neg hgt, if_pos hzero]
      exact ⟨.clash [] nxt rest rfl (fun _ hx => absurd hx List.not_mem_nil) hzero, rfl,
        fun h => absurd h (by decide)⟩
    · have hlt : compare nxt.content elem < 0 := by omega
      simp only [addElemLoop, if_neg hgt, if_neg hzero, value_bind, after_bind]
      generalize value (addElemLoop compare calloc elem rest) s = r at ih ⊢
      cases r with
      | none =>
        obtain ⟨hall, hafter⟩ := ih
        refine ⟨fun x hx => ?_, hafter⟩
        rcases List.mem_cons.mp hx with rfl | hx
        · exact hlt
        · exact hall x hx
      | some r =>
        obtain ⟨l', grown, rc⟩ := r
        obtain ⟨hins, hlast, hafter⟩ := ih
        refine ⟨hins.cons hlt, ?_, hafter⟩
        show (nxt :: l').getLast? = (nxt :: rest).getLast?
        rw [List.getLast?_cons, List.getLast?_cons, hlast]

/-- Everything that `add_elem` can do to a linked list. -/
theorem addElem_spec {this : CList α} {bound : Nat} (h : this.Linked bound)
    (calloc : StateM σ (Option Nat)) (elem : α) (s : σ) :
    Inserts compare elem (value calloc s) this.entries
      (value (addElem compare calloc this elem) s).1.entries
      (value (addElem compare calloc this elem) s).2 ∧
    (value (addElem compare calloc this elem) s).1.last =
      (value (addElem compare calloc this elem) s).1.entries.getLast?.map (·.addr) ∧
    ((value (addElem compare calloc this elem) s).2 = 1 →
      after (addElem compare calloc this elem) s = after calloc s) := by
  -- behind the last cell, `add_elem` is `addLast`
  have hend : (∀ x ∈ this.entries, compare x.content elem < 0) →
      Inserts compare elem (value calloc s) this.entries
        (value (addLast calloc this elem) s).1.entries (value (addLast calloc this elem) s).2 ∧
      (value (addLast calloc this elem) s).1.last =
        (value (addLast calloc this elem) s).1.entries.getLast?.map (·.addr) ∧
      ((value (addLast calloc this elem) s).2 = 1 →
        after (addLast calloc this elem) s = after calloc s) := by
    intro hall
    obtain ⟨hafter, hvalue⟩ := addLast_eq h calloc elem s
    rw [hvalue]
    cases value calloc s with
    | none => exact ⟨.failed rfl, h.last, fun h1 => absurd h1 (by decide : (0 : Int) ≠ 1)⟩
    | some a =>
      exact ⟨.inserted a this.entries [] rfl (List.append_nil _).symm hall nofun, by simp,
        fun _ => hafter⟩
  obtain ⟨length, entries, last⟩ := this
  have hthis : last = entries.getLast?.map (·.addr) := h.last
  unfold addElem
  rcases h.cases with ⟨rfl, rfl⟩ | ⟨pre, e, hentries, rfl, -⟩
  · exact hend fun _ hx => absurd hx List.not_mem_nil
  obtain ⟨first, rest, rfl⟩ : ∃ first rest, entries = first :: rest :=
    List.exists_cons_of_ne_nil (by rw [show entries = _ from hentries]; simp)
  have hnone : ∀ x ∈ ([] : List (ListEntry α)), compare x.content elem < 0 :=
    fun _ hx => absurd hx List.not_mem_nil
  by_cases hgt : compare first.content elem > 0
  · simp only [if_pos hgt, initEntry, value_bind, after_bind, value_pure, after_pure]
    cases value calloc s with
    | none => exact ⟨.failed rfl, hthis, fun h1 => absurd h1 (by decide : (0 : Int) ≠ 1)⟩
    | some a =>
      refine ⟨.inserted a [] (first :: rest) rfl rfl hnone fun _ hx => Option.some.inj hx ▸ hgt,
        ?_, fun _ => rfl⟩
      show some e.addr = (_ :: first :: rest).getLast?.map (·.addr)
      rw [List.getLast?_cons_cons, hthis]
  by_cases hzero : compare first.content elem = 0
  · simp only [if_neg hgt, if_pos hzero]
    exact ⟨.clash [] first rest rfl hnone hzero, hthis,
      fun h1 => absurd h1 (by decide : (2 : Int) ≠ 1)⟩
  have hlt : compare first.content elem < 0 := by omega
  simp only [if_neg hgt, if_neg hzero, value_bind, after_bind]
  have hloop := @addElemLoop_spec α σ compare calloc elem s rest
  generalize value (addElemLoop compare calloc elem rest) s = r at hloop ⊢
  cases r with
  | none =>
    obtain ⟨hall, hafter⟩ := hloop
    rw [hafter]
    refine hend fun x hx => ?_
    rcases List.mem_cons.mp hx with rfl | hx
    · exact hlt
    · exact hall x hx
  | some r =>
    obtain ⟨rest', grown, rc⟩ := r
    obtain ⟨hins, hlast', hafter⟩ := hloop
    refine ⟨hins.cons hlt, ?_, hafter⟩
    show some e.addr = (first :: rest').getLast?.map (·.addr)
    rw [hthis, List.getLast?_cons, List.getLast?_cons, hlast']

/-- An insertion keeps the cells apart. -/
theorem Inserts.nodup {l l' : List (ListEntry α)} {rc : Int} {bound : Nat}
    (h : Inserts compare elem found l l' rc) (hl : (l.map (·.addr)).Nodup)
    (hbelow : ∀ e ∈ l, e.addr < bound) (hfound : ∀ a, found = some a → bound ≤ a) :
    (l'.map (·.addr)).Nodup := by
  cases h with
  | failed => exact hl
  | clash => exact hl
  | inserted a pre post ha hpost =>
    rw [hpost] at hl hbelow
    exact nodup_insert hl hbelow (hfound a ha)

/-- The cells in front that are smaller are passed. -/
theorem Inserts.append_left {front rest l' : List (ListEntry α)} {rc : Int}
    (h : Inserts compare elem found (front ++ rest) l' rc)
    (hfront : ∀ x ∈ front, compare x.content elem < 0) :
    ∃ rest', l' = front ++ rest' ∧ Inserts compare elem found rest rest' rc := by
  -- a cell that is not smaller is not in front
  have hsplit : ∀ {pre post : List (ListEntry α)}, front ++ rest = pre ++ post →
      (∀ x ∈ post.head?, 0 ≤ compare x.content elem) →
        ∃ between, pre = front ++ between ∧ rest = between ++ post := by
    intro pre post heq hpost
    rcases List.append_eq_append_iff.mp heq with ⟨between, hpre, hrest⟩ | ⟨between, hpre, hpost'⟩
    · exact ⟨between, hpre, hrest⟩
    · cases between with
      | nil => exact ⟨[], by rw [hpre, List.append_nil, List.append_nil], hpost'.symm⟩
      | cons b between =>
        have hb := hfront b (hpre ▸ List.mem_append_right _ List.mem_cons_self)
        exact absurd (hpost b (hpost' ▸ rfl)) (Int.not_le.mpr hb)
  generalize hl : front ++ rest = l at h
  cases h with
  | failed hfound => exact ⟨rest, hl.symm, .failed hfound⟩
  | clash pre e post hclash hpre he =>
    subst hl
    obtain ⟨between, hbetween, hrest⟩ := hsplit hclash fun x hx =>
      Int.le_of_eq (Option.some.inj hx ▸ he.symm)
    refine ⟨rest, rfl, .clash between e post hrest (fun x hx => ?_) he⟩
    exact hpre x (hbetween ▸ List.mem_append_right _ hx)
  | inserted a pre post hfound hinserted hpre hpost =>
    subst hl
    obtain ⟨between, hbetween, hrest⟩ := hsplit hinserted fun x hx =>
      Int.le_of_lt (hpost x hx)
    refine ⟨between ++ { addr := a, content := elem } :: post, ?_,
      .inserted a between post hfound hrest (fun x hx => ?_) hpost⟩
    · rw [hbetween, List.append_assoc]
    · exact hpre x (hbetween ▸ List.mem_append_right _ hx)

/-- The cells after an insertion: the old ones and perhaps the new one. -/
theorem Inserts.mem {l l' : List (ListEntry α)} {rc : Int} (h : Inserts compare elem found l l' rc)
    {e : ListEntry α} : e ∈ l' ↔ e ∈ l ∨
      rc = 1 ∧ ∃ a, found = some a ∧ e = { addr := a, content := elem } := by
  cases h with
  | failed => simp
  | clash => simp
  | inserted a pre post ha hpost =>
    subst hpost
    simp only [List.mem_append, List.mem_cons, ha, Option.some.injEq, true_and]
    constructor
    · rintro (he | rfl | he)
      · exact .inl (.inl he)
      · exact .inr ⟨a, rfl, rfl⟩
      · exact .inl (.inr he)
    · rintro ((he | he) | ⟨b, rfl, rfl⟩)
      · exact .inl he
      · exact .inr (.inr he)
      · exact .inr (.inl rfl)

/-! ### `remove_elem` -/

variable (compare elem)

/-- What `remove_elem` makes of a chain, with the content it takes out. -/
inductive Removes (l : List (ListEntry α)) : List (ListEntry α) → Option α → Prop
  | absent (hl : ∀ x ∈ l, compare x.content elem ≠ 0) : Removes l l none
  /-- The first cell that compares equal. -/
  | found (pre : List (ListEntry α)) (e : ListEntry α) (post : List (ListEntry α))
      (hl : l = pre ++ e :: post) (hpre : ∀ x ∈ pre, compare x.content elem ≠ 0)
      (he : compare e.content elem = 0) : Removes l (pre ++ post) (some e.content)

variable {compare elem}

/-- The loop of `remove_elem`, with the cell `ent` before it. -/
theorem removeElemLoop_spec (elem : α) (ent : ListEntry α) (l : List (ListEntry α)) :
    match removeElemLoop compare elem ent l with
    | none => ∀ x ∈ l, compare x.content elem ≠ 0
    | some (rest', cont, last) => ∃ pre e post, l = pre ++ e :: post ∧
        (∀ x ∈ pre, compare x.content elem ≠ 0) ∧ compare e.content elem = 0 ∧
        rest' = pre ++ post ∧ cont = e.content ∧
        last = if post.isEmpty then (ent :: pre).getLast?.map (·.addr) else none := by
  induction l generalizing ent with
  | nil => exact fun _ hx => absurd hx List.not_mem_nil
  | cons nxt rest ih =>
    by_cases hzero : compare nxt.content elem = 0
    · simp only [removeElemLoop, if_pos hzero]
      exact ⟨[], nxt, rest, rfl, fun _ hx => absurd hx List.not_mem_nil, hzero, rfl, rfl, rfl⟩
    · have hcons : ∀ pre : List (ListEntry α), (∀ y ∈ pre, compare y.content elem ≠ 0) →
          ∀ y ∈ nxt :: pre, compare y.content elem ≠ 0 := by
        intro pre hpre y hy
        rcases List.mem_cons.mp hy with rfl | hy
        · exact hzero
        · exact hpre y hy
      simp only [removeElemLoop, if_neg hzero]
      have ih := ih nxt
      generalize removeElemLoop compare elem nxt rest = r at ih ⊢
      cases r with
      | none => exact hcons rest ih
      | some r =>
        obtain ⟨rest', cont, last⟩ := r
        obtain ⟨pre, e, post, rfl, hpre, he, rfl, rfl, rfl⟩ := ih
        refine ⟨nxt :: pre, e, post, rfl, hcons pre hpre, he, rfl, rfl, ?_⟩
        rw [List.getLast?_cons_cons]

theorem Linked.of_sublist {this this' : CList α} {bound : Nat} (h : this.Linked bound)
    (hsub : this'.entries.Sublist this.entries)
    (hlast : this'.last = this'.entries.getLast?.map (·.addr)) : this'.Linked bound :=
  ⟨(hsub.map _).nodup h.nodup, hlast, fun e he => h.below e (hsub.subset he)⟩

theorem linked_removeFirst {this : CList α} {bound : Nat} (h : this.Linked bound) :
    (removeFirst this).1.Linked bound ∧ (removeFirst this).1.entries = this.entries.tail ∧
      (removeFirst this).2 = this.entries.head?.map (·.content) := by
  have hlast := h.last
  have hnodup := h.nodup
  unfold removeFirst
  cases hentries : this.entries with
  | nil => exact ⟨h, hentries, rfl⟩
  | cons e rest =>
    rw [hentries] at hlast hnodup
    refine ⟨Linked.of_sublist h ?_ ?_, rfl, rfl⟩
    · rw [hentries]
      exact List.sublist_cons_self _ _
    · show (if this.last = some e.addr then none else this.last) = _
      cases rest with
      | nil =>
        rw [hlast]
        simp
      | cons e' rest =>
        rw [List.getLast?_cons_cons] at hlast
        -- the first cell is not the last one
        rw [if_neg, hlast]
        intro heq
        rw [hlast] at heq
        obtain ⟨x, hx, hxaddr⟩ := Option.map_eq_some_iff.mp heq
        have hmem : x ∈ e' :: rest := List.mem_of_getLast? hx
        rw [List.map_cons, List.nodup_cons] at hnodup
        exact hnodup.1 (List.mem_map.mpr ⟨x, hmem, hxaddr⟩)

/-- Everything that `remove_elem` can do to a linked list. -/
theorem removeElem_spec {this : CList α} {bound : Nat} (h : this.Linked bound) (elem : α) :
    Removes compare elem this.entries (removeElem compare this elem).1.entries
      (removeElem compare this elem).2 ∧
    (removeElem compare this elem).1.Linked bound := by
  have hlast := h.last
  obtain ⟨hfl, hfe, hfc⟩ := linked_removeFirst h
  unfold removeElem
  cases hentries : this.entries with
  | nil =>
    refine ⟨?_, h⟩
    exact hentries.symm ▸ .absent fun _ hx => absurd hx List.not_mem_nil
  | cons first rest =>
    rw [hentries] at hlast hfe hfc
    by_cases hzero : compare first.content elem = 0
    · simp only [if_pos hzero]
      rw [hfe, hfc]
      exact ⟨.found [] first rest rfl (fun _ hx => absurd hx List.not_mem_nil) hzero, hfl⟩
    · simp only [if_neg hzero]
      have hloop := @removeElemLoop_spec α compare elem first rest
      have hcons : ∀ pre : List (ListEntry α), (∀ y ∈ pre, compare y.content elem ≠ 0) →
          ∀ y ∈ first :: pre, compare y.content elem ≠ 0 := by
        intro pre hpre y hy
        rcases List.mem_cons.mp hy with rfl | hy
        · exact hzero
        · exact hpre y hy
      generalize removeElemLoop compare elem first rest = r at hloop ⊢
      cases r with
      | none =>
        refine ⟨?_, h⟩
        exact hentries.symm ▸ .absent (hcons rest hloop)
      | some r =>
        obtain ⟨rest', cont, last⟩ := r
        obtain ⟨pre, e, post, rfl, hpre, he, rfl, rfl, rfl⟩ := hloop
        have hremoves : Removes compare elem (first :: (pre ++ e :: post))
            (first :: (pre ++ post)) (some e.content) :=
          .found (first :: pre) e post rfl (hcons pre hpre) he
        have hsub : (first :: (pre ++ post)).Sublist (first :: (pre ++ e :: post)) :=
          List.Sublist.cons_cons _ ((List.sublist_cons_self _ _).append_left pre)
        cases post with
        | nil =>
          -- the last cell goes: `last` points to the one before it
          obtain ⟨x, hx⟩ : ∃ x, (first :: pre).getLast? = some x :=
            ⟨_, List.getLast?_eq_some_getLast (List.cons_ne_nil _ _)⟩
          simp only [List.isEmpty_nil, if_true, hx, Option.map_some]
          refine ⟨hremoves, Linked.of_sublist h (by rw [hentries]; exact hsub) ?_⟩
          simp [hx]
        | cons e' post =>
          simp only [List.isEmpty_cons, Bool.false_eq_true, if_false]
          refine ⟨hremoves, Linked.of_sublist h (by rw [hentries]; exact hsub) ?_⟩
          show this.last = (first :: (pre ++ e' :: post)).getLast?.map (·.addr)
          rw [hlast]
          simp [List.getLast?_cons, List.getLast?_append]

theorem Removes.sublist {l l' : List (ListEntry α)} {taken : Option α}
    (h : Removes compare elem l l' taken) : l'.Sublist l := by
  cases h with
  | absent => exact List.Sublist.refl _
  | found pre e post hl =>
    rw [hl]
    exact (List.sublist_cons_self _ _).append_left pre

/-- A walk looks at cells of the list. -/
theorem walked_subset (stop : α → Bool) (l : List α) : walked stop l ⊆ l := by
  induction l with
  | nil => exact List.Subset.refl _
  | cons x rest ih =>
    unfold walked
    split
    · exact List.cons_subset_cons x (List.nil_subset rest)
    · exact List.cons_subset_cons x ih

/-! ### `add_limited` -/

/-- `add_limited` appends, and may drop the first cell. -/
theorem addLimited_spec {this : CList α} {bound : Nat} (h : this.Linked bound)
    (calloc : StateM σ (Option Nat)) (elem : α) (max_t : Nat) (s : σ) {hi : Nat}
    (hle : bound ≤ hi) (hfresh : ∀ a, value calloc s = some a → bound ≤ a ∧ a < hi) :
    (value (addLimited calloc this elem max_t) s).1.Linked hi ∧
    (value (addLimited calloc this elem max_t) s).1.entries.Sublist
      (this.entries ++ ((value calloc s).map fun a =>
        ({ addr := a, content := elem } : ListEntry α)).toList) := by
  obtain ⟨-, hvalue⟩ := addLast_eq h calloc elem s
  have hlast : (value (addLast calloc this elem) s).1.Linked hi ∧
      (value (addLast calloc this elem) s).1.entries =
        this.entries ++ ((value calloc s).map fun a =>
          ({ addr := a, content := elem } : ListEntry α)).toList := by
    rw [hvalue]
    cases hv : value calloc s with
    | none => exact ⟨h.mono hle, (List.append_nil _).symm⟩
    | some a =>
      obtain ⟨ha, hhi⟩ := hfresh a hv
      exact ⟨h.snoc ha hhi elem _, rfl⟩
  unfold addLimited
  simp only [value_bind, value_ite, value_pure]
  generalize value (addLast calloc this elem) s = r at hlast ⊢
  obtain ⟨l, rc⟩ := r
  obtain ⟨hlinked, hentries⟩ := hlast
  by_cases hlong : l.length > max_t
  · obtain ⟨hfl, hfe, -⟩ := linked_removeFirst hlinked
    simp only [if_pos hlong]
    refine ⟨hfl, ?_⟩
    rw [hfe, ← hentries]
    exact List.tail_sublist _
  · simp only [if_neg hlong]
    exact ⟨hlinked, by rw [← hentries]⟩

end FloodPeer
