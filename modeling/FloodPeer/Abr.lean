/-
FloodPeer/Abr.lean

The search trees of `abr.c`: `NEIGHBORS` and `POTENTIAL`.
-/
import FloodPeer.Util

namespace FloodPeer

open Octets StateLogic

/-! ### Insertion and search -/

/-- `init`: a node with copies of `key` and `val`, or null. -/
def init (key : Neighbor) (val : Ident) (left right : Tree) : Peer Tree := do
  -- the node, its record and its key; what was allocated before a failure is freed
  match ← malloc with
  | none => return .null
  | some _ =>
    match ← malloc with
    | none => return .null
    | some _ =>
      match ← malloc with
      | none => return .null
      | some a => return .node { key with addr := a } val left right

/-- `add_neighbor_aux`: the tree and the return code.  The update branch
assigns the two times and leaves the rest of the record alone. -/
def addNeighborAux (key : Neighbor) (val : Ident) : Tree → Peer (Tree × Int)
  -- `t->key` through a null `t`: the callers look first
  | .null => do note .fault; return (.null, 0)
  | .node k v left right => do
    let comp := compareN k.toNeighbor key
    if comp > 0 then
      if left = .null then
        let left' ← init key val .null .null
        return (.node k v left' right, if left' ≠ .null then 1 else 0)
      else
        let (left', rc) ← addNeighborAux key val left
        return (.node k v left' right, rc)
    else if comp < 0 then
      if right = .null then
        let right' ← init key val .null .null
        return (.node k v left right', if right' ≠ .null then 1 else 0)
      else
        let (right', rc) ← addNeighborAux key val right
        return (.node k v left right', rc)
    else
      return (.node k { v with lastHello := val.lastHello, lastHelloLong := val.lastHelloLong }
        left right, 2)

/-- `add_potential`. -/
def addPotential (key : Neighbor) (val : Ident) : Peer Int := do
  -- a potential neighbour has no message
  let key := { key with msg := none }
  if (← get).potential = .null then
    let t ← init key val .null .null
    modify fun w => { w with potential := t }
    return if t ≠ .null then 1 else 0
  else
    let (t, rc) ← addNeighborAux key val (← get).potential
    modify fun w => { w with potential := t }
    return rc

/-- `if(msg) free(msg);` -/
def freeIfSet : Option Nat → Peer Unit
  | none => pure ()
  | some a => freeMsg a

/-- The assignments of `add_neighbor` to the message it has allocated. -/
def emptyMsg : Option Nat → Peer Unit
  | none => pure ()
  | some a => do putMsg a { magic := 93, version := 2, bodyLength := 0, body := ← uninit }

/-- `add_neighbor`: a pending message is allocated first, and freed again when
no new record takes it. -/
def addNeighbor (key : Neighbor) (val : Ident) : Peer Int := do
  let msg ← malloc
  let key := { key with msg := msg }
  emptyMsg msg
  if (← get).neighbors = .null then
    let t ← init key val .null .null
    modify fun w => { w with neighbors := t }
    if t = .null then
      freeIfSet msg
      return 0
    else return 1
  else
    let (t, res) ← addNeighborAux key val (← get).neighbors
    modify fun w => { w with neighbors := t }
    -- the record was there already, or there is no memory for it
    if res = 2 ∨ res = 0 then
      freeIfSet msg
      return res
    else return res

/-- `get_ident`. -/
def getIdent (key : Neighbor) : Tree → Option Ident
  | .null => none
  | .node k v left right =>
    let comp := compareN k.toNeighbor key
    if comp = 0 then some v
    else if comp > 0 then getIdent key left
    else getIdent key right

/-! ### Selection -/

/-- `issymmetrical`. -/
def issymmetrical : Tree → Peer Bool
  | .null => do note .fault; return false
  | .node _ val _ _ => do
    let now ← getSeconds
    return decide (now - val.lastHelloLong < 120)

/-- `is_old`. -/
def isOld : Tree → Peer Bool
  | .null => do note .fault; return false
  | .node _ val _ _ => do
    let now ← getSeconds
    return decide (now - val.lastHello > 120)

/-- `init_ngb_entry`. -/
def initNgbEntry (peer : NeighborPtr) (timesSent : Nat) : Peer (Option NgbEntry) := do
  match ← malloc with
  | none => return none
  | some _ =>
    let wait ← waitTime timesSent
    -- whatever the argument, nothing has been sent yet
    return some { sym := peer, timesSent := 0, waitTime := wait + (← getSeconds) }

/-- `find_by_aux`. -/
def findByAux (func : Tree → Peer Bool) : Tree → CList NgbEntry → Peer (CList NgbEntry)
  | .null, l => return l
  | .node k v left right, l => do
    let l ← findByAux func left l
    let l ← if ← func (.node k v left right) then do
        match ← initNgbEntry k 0 with
        -- a neighbour without an entry is left out
        | none => pure l
        | some ent => pure (← addLast malloc l ent).1
      else pure l
    findByAux func right l

/-- `find_by`; `none` when the list itself cannot be allocated. -/
def findBy (t : Tree) (func : Tree → Peer Bool) : Peer (Option (CList NgbEntry)) := do
  match ← malloc with
  | none => return none
  | some _ => return some (← findByAux func t initList)

/-- `get_symmetrical`. -/
def getSymmetrical (t : Tree) : Peer (Option (CList NgbEntry)) := findBy t issymmetrical

/-! ### Deletion -/

/-- `remove_min`, for a tree with a left child: the leftmost node and the tree
without it. -/
def removeMin : Tree → Tree × Tree
  | .null => (.null, .null)
  | .node k v (.node lk lv .null lright) right =>
    (.node lk lv .null lright, .node k v lright right)
  | .node k v left right =>
    let (min, left') := removeMin left
    (min, .node k v left' right)

/-- What `remove_neighbor_aux` puts in the place of a removed node. -/
def replacement (l r : Tree) : Tree :=
  match r with
  | .null => l
  | .node rk rv .null rright => .node rk rv l rright
  | r =>
    match removeMin r with
    | (.node k v _ _, r') => .node k v l r'
    | (.null, r') => r'

/-- `remove_neighbor_aux`. -/
def removeNeighborAux (key : Neighbor) : Tree → Peer Tree
  | .null => return .null
  | .node k v left right => do
    let comp := compareN k.toNeighbor key
    if comp = 0 then
      -- what is still pending for the neighbour goes with it
      freeIfSet k.msg
      return replacement left right
    else if comp > 0 then
      return .node k v (← removeNeighborAux key left) right
    else
      return .node k v left (← removeNeighborAux key right)

/-- `remove_neighbor`. -/
def removeNeighbor (key : Neighbor) : Peer Unit := do
  let t ← removeNeighborAux key (← get).neighbors
  modify fun w => { w with neighbors := t }

/-- `remove_potential`. -/
def removePotential (key : Neighbor) : Peer Unit := do
  let t ← removeNeighborAux key (← get).potential
  modify fun w => { w with potential := t }

/-! ### Checking -/

/-- `t->key`, unless `t` is null. -/
def Tree.key? : Tree → Option NeighborPtr
  | .null => none
  | .node key _ _ _ => some key

/-- `check`: each key is compared with those of the two children. -/
def check : Tree → Int
  | .null => 1
  | .node k _ left right =>
    if left.key?.any (fun lk => compareN k.toNeighbor lk.toNeighbor < 0) ∨
        right.key?.any (fun rk => compareN k.toNeighbor rk.toNeighbor > 0) then 0
    else if check left ≠ 0 ∧ check right ≠ 0 then 1 else 0

end FloodPeer
