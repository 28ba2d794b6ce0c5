/-
FloodPeer/Util.lean

The comparators and the random delays of `util.c` and `list.c`.
-/
import FloodPeer.World

namespace FloodPeer

open Octets StateLogic

/-! ### Comparators -/

/-- The loop of `compare_n` over the bytes of the two addresses. -/
def compareIp : List UInt8 → List UInt8 → Int
  | b1 :: bs1, b2 :: bs2 =>
    if b1 < b2 then -1 else if b1 > b2 then 1 else compareIp bs1 bs2
  | _, _ => 0

/-- `compare_n`. -/
def compareN (key1 key2 : Neighbor) : Int :=
  let ip := compareIp key1.ip.toList key2.ip.toList
  if ip ≠ 0 then ip
  else if key1.port < key2.port then -1
  else if key1.port > key2.port then 1
  else 0

/-- `compare_n_s`: `0` for the same neighbour, otherwise by deadline.  The
difference of the deadlines is an `int`, the result a `short`. -/
def compareNS (n1 n2 : NgbEntry) : Int :=
  if compareN n1.sym.toNeighbor n2.sym.toNeighbor = 0 then 0
  else
    let i := n1.waitTime - n2.waitTime
    -- the test is made on the `int`: a multiple of 65536 still comes out as `0`
    if i = 0 then 1 else toShort i

/-- `compare_d`. -/
def compareD (data data2 : DataIndex) : Int :=
  if data.id = data2.id ∧ data.nonce = data2.nonce then 0 else 1

/-- `compare_flood`.  Its callers record a `fault` when one of the two is a
null pointer. -/
def compareFlood (c1 c2 : Option FloodEntry) : Int :=
  match c1, c2 with
  | some f1, some f2 => compareD f1.index f2.index
  | _, _ => 1

/-- `compare_b`.  The difference of the nonces is an `u_int32_t`, the result a
`short`. -/
def compareB (b1 b2 : BigData) : Int :=
  toShort (b1.globalNonce - b2.globalNonce).toNat

/-! ### Random values -/

/-- `rand_a_b`. -/
def randAB (a b : Nat) : Peer Nat := do
  -- `b` itself is never drawn
  let truc := (← rand) % (b - a) + a
  return truc

/-- `wait_time`. -/
def waitTime (timesSent : Nat) : Peer Int := do
  if timesSent = 0 then
    return 1
  else
    return (← randAB (2 ^ (timesSent - 1)) (2 ^ timesSent) : Nat)

/-- `random_on_octets`: the low bytes of as many calls of `rand`. -/
def randomOnOctets : Nat → Peer (List UInt8)
  | 0 => return []
  | n + 1 => do
    let b := UInt8.ofNat (← rand)
    return b :: (← randomOnOctets n)

/-! ### Pointers to neighbours -/

/-- `*sym`, for a pointer into `NEIGHBORS`; a `fault` when the block has been
freed. -/
def deref (sym : NeighborPtr) : Peer (Option Neighbor) := do
  if (← get).neighbors.owns sym then
    return some sym.toNeighbor
  else
    note .fault
    return none

/-- The comparisons of a walk over these entries follow their pointers. -/
def touchSyms (l : List NgbEntry) : Peer Unit := do
  let w ← get
  if ∃ ent ∈ l, ¬ w.neighbors.owns ent.sym then note .fault

end FloodPeer
