/-
FloodPeer/Genlist.lean

The generic singly linked list of `genlist.c`.

A `CList α` keeps the three redundant fields of `struct list` apart: the cells
reachable from `first` (`entries`, each with the address `calloc` returned for
it), the pointer `last` and the counter `length`.  Nothing forces them to
agree; that they do is a theorem about the operations.

The comparator `compare_f` is passed to the operations that call it.  It
returns a `short`, here an `Int`; no property of it is assumed.  The
operations that allocate a cell run in an arbitrary state monad and take the
allocator `calloc`, which answers `none` for a null pointer.
-/
import FloodPeer.Lib.StateLogic

namespace FloodPeer

/-! ### The representation -/

/-- `struct list_entry`: a cell, its own address and its content. -/
structure ListEntry (α : Type) where
  addr : Nat
  content : α
  deriving DecidableEq, Repr

/-- `struct list`.  `entries` is the chain that starts at `first`. -/
structure CList (α : Type) where
  length : Nat
  entries : List (ListEntry α)
  last : Option Nat
  deriving DecidableEq, Repr

variable {α σ : Type}

/-- The contents of the chain, first cell first. -/
def CList.contents (this : CList α) : List α := this.entries.map (·.content)

/-- `this->first`, as an address. -/
def CList.first (this : CList α) : Option Nat := this.entries.head?.map (·.addr)

/-- The cell at address `a`. -/
def CList.cell? (this : CList α) (a : Nat) : Option (ListEntry α) :=
  this.entries.find? (·.addr = a)

/-- `ent->next`, for the cell `ent` at address `a`. -/
def CList.next? (this : CList α) (a : Nat) : Option Nat :=
  match this.entries.dropWhile (·.addr ≠ a) with
  | _ :: nxt :: _ => some nxt.addr
  | _ => none

/-- Assign to the content of the cell at address `a`. -/
def CList.modifyCell (this : CList α) (a : Nat) (f : α → α) : CList α :=
  { this with entries := this.entries.map fun e =>
      if e.addr = a then { e with content := f e.content } else e }

/-- `init_list`. -/
def initList : CList α := { length := 0, entries := [], last := none }

/-! ### Insertion -/

/-- `init_entry`, up to the two link assignments its callers ask for. -/
def initEntry (calloc : StateM σ (Option Nat)) (elem : α) :
    StateM σ (Option (ListEntry α)) := do
  let res ← calloc
  return res.map fun a => { addr := a, content := elem }

/-- `prev->next = res` with `res->next = NULL`, for the cell `prev` at `a`. -/
def linkAfter (a : Nat) (res : ListEntry α) : List (ListEntry α) → List (ListEntry α)
  | [] => []
  | e :: rest => if e.addr = a then [e, res] else e :: linkAfter a res rest

/-- `addLast`. -/
def addLast (calloc : StateM σ (Option Nat)) (this : CList α) (elem : α) :
    StateM σ (CList α × Int) := do
  match this.last with
  | none =>
    match ← initEntry calloc elem with
    -- `first` is assigned before it is tested
    | none => return ({ this with entries := [] }, 0)
    | some res =>
      return ({ length := this.length + 1, entries := [res], last := some res.addr }, 1)
  | some a =>
    match ← initEntry calloc elem with
    | none => return (this, 0)
    | some res =>
      return ({ length := this.length + 1, entries := linkAfter a res this.entries,
                last := some res.addr }, 1)

variable (compare : α → α → Int)

/-- The `for` loop of `add_elem`, over the cells after `first`.  `none`: the
loop ran off the end of the chain; otherwise the new chain, the increment of
`length` and the return code. -/
def addElemLoop (calloc : StateM σ (Option Nat)) (elem : α) :
    List (ListEntry α) → StateM σ (Option (List (ListEntry α) × Nat × Int))
  | [] => return none
  | nxt :: rest => do
    let dif := compare nxt.content elem
    if dif > 0 then
      match ← initEntry calloc elem with
      | none => return some (nxt :: rest, 0, 0)
      | some res => return some (res :: nxt :: rest, 1, 1)
    else if dif = 0 then
      return some (nxt :: rest, 0, 2)
    else
      match ← addElemLoop calloc elem rest with
      | none => return none
      | some (rest', grown, rc) => return some (nxt :: rest', grown, rc)

/-- `add_elem`: insertion before the first greater element; `2` when an element
comparing equal is met first, `0` when the cell cannot be allocated. -/
def addElem (calloc : StateM σ (Option Nat)) (this : CList α) (elem : α) :
    StateM σ (CList α × Int) := do
  match this.last, this.entries with
  | none, _ => addLast calloc this elem
  -- `this->first->content` through a null `first`: the operations never get here
  | some _, [] => return (this, 0)
  | some _, first :: rest =>
    let dif := compare first.content elem
    if dif > 0 then
      match ← initEntry calloc elem with
      | none => return (this, 0)
      | some res =>
        return ({ this with length := this.length + 1, entries := res :: first :: rest }, 1)
    else if dif = 0 then
      return (this, 2)
    else
      match ← addElemLoop compare calloc elem rest with
      | none => addLast calloc this elem
      | some (rest', grown, rc) =>
        return ({ this with length := this.length + grown, entries := first :: rest' }, rc)

/-! ### Removal and search -/

/-- `remove_first`. -/
def removeFirst (this : CList α) : CList α × Option α :=
  match this.entries with
  | [] => (this, none)
  | e :: rest =>
    ({ length := this.length - 1, entries := rest,
       last := if this.last = some e.addr then none else this.last }, some e.content)

/-- The `for` loop of `remove_elem` behind the cell `ent`.  The last component
is the new `last`, when the removed cell was the final one. -/
def removeElemLoop (elem : α) (ent : ListEntry α) :
    List (ListEntry α) → Option (List (ListEntry α) × α × Option Nat)
  | [] => none
  | nxt :: rest =>
    if compare nxt.content elem = 0 then
      some (rest, nxt.content, if rest.isEmpty then some ent.addr else none)
    else
      match removeElemLoop elem nxt rest with
      | none => none
      | some (rest', cont, last) => some (nxt :: rest', cont, last)

/-- `remove_elem`: unlink the first cell whose content compares equal.  In the
middle of the chain the source leaves `length` alone. -/
def removeElem (this : CList α) (elem : α) : CList α × Option α :=
  match this.entries with
  | [] => (this, none)
  | first :: rest =>
    if compare first.content elem = 0 then removeFirst this
    else
      match removeElemLoop compare elem first rest with
      | none => (this, none)
      | some (rest', cont, some a) =>
        ({ length := this.length - 1, entries := first :: rest', last := some a }, some cont)
      | some (rest', cont, none) =>
        ({ this with entries := first :: rest' }, some cont)

/-- `add_limited`: append, then drop the first cell when there are more than
`max_t`. -/
def addLimited (calloc : StateM σ (Option Nat)) (this : CList α) (elem : α) (max_t : Nat) :
    StateM σ (CList α × Option α) := do
  -- whether there was memory for the cell is not looked at
  let (this, _) ← addLast calloc this elem
  if this.length > max_t then
    return removeFirst this
  else
    return (this, none)

/-- The `for` loop of `free_list`. -/
def freeListLoop (isNull : α → Bool) : Nat → CList α → CList α
  | 0, this => this
  | fuel + 1, this =>
    match removeFirst this with
    | (this, none) => this
    | (this, some tmp) => if isNull tmp then this else freeListLoop isNull fuel this

/-- `free_list`.  It stops at the first content that is a null pointer; each
turn of its loop takes a cell off the list, so that there is one more turn than
cells at most. -/
def freeList (isNull : α → Bool) (this : CList α) : CList α :=
  freeListLoop isNull (this.entries.length + 1) this

/-- `get`: the first cell whose content compares equal.  The source returns the
content pointer; the model returns the cell, so that the caller can assign
through it. -/
def CList.get (this : CList α) (elem : α) : Option (ListEntry α) :=
  this.entries.find? fun ent => compare ent.content elem = 0

/-- The contents a walk along the chain looks at, up to the one it stops at. -/
def walked (stop : α → Bool) : List α → List α
  | [] => []
  | x :: xs => if stop x then [x] else x :: walked stop xs

end FloodPeer
