/-
FloodPeer/Struct.lean

The data types of `struct.h`, `list.h`, `abr.h`, and the integer conversions
of the C types they are made of.

Addresses are natural numbers that are never handed out twice.  A pointer to a
`struct neighbor` is a `NeighborPtr`: the address of the block together with
the block's contents.  The contents can travel with the pointer because the
blocks the program keeps pointers to are filled once, by `init`, and never
assigned afterwards; whether the block is still allocated is a question about
the tree that owns it (`Tree.owns`).
-/
import FloodPeer.Genlist
import FloodPeer.Lib.Octets

namespace FloodPeer

open Octets

/-! ### Constants and conversions -/

/-- `MAX_SIZE`: the bytes of a message body. -/
def maxSize : Nat := 4096

/-- `PMTU`: the largest datagram. -/
def pmtu : Nat := 1232

/-- `NBDATA`: the most flood entries kept. -/
def nbdata : Nat := 100

/-- `NB_TLV`: the first unknown TLV type. -/
def nbTlv : Nat := 8

/-- A byte read through a plain `char *`: signed, as on gcc/x86_64. -/
def toChar (b : UInt8) : Int := Int.bmod b.toNat 256

/-- Conversion of an `int` to the `short` a comparator returns. -/
def toShort (i : Int) : Int := Int.bmod i 65536

theorem toShort_eq_zero_iff (i : Int) : toShort i = 0 ↔ (65536 : Int) ∣ i := by
  unfold toShort
  constructor
  · exact Int.dvd_of_bmod_eq_zero
  · rintro ⟨k, rfl⟩
    exact Int.mul_bmod_right 65536 k

/-- Conversion of an `int` to `size_t`. -/
def toSize (i : Int) : Nat := (i % 18446744073709551616).toNat

/-- Conversion of an `int` to `u_int16_t`. -/
def toU16 (i : Int) : UInt16 := UInt16.ofNat (i % 65536).toNat

/-! ### Neighbours -/

/-- `struct neighbor`: an address and the buffer of the message being gathered
for it, if there is one. -/
structure Neighbor where
  ip : Vector UInt8 16
  port : UInt16
  msg : Option Nat
  deriving DecidableEq, Repr

/-- A `struct neighbor *`, with the contents of the block it points to.  The
address `0` stands for a block that is not on the heap. -/
structure NeighborPtr extends Neighbor where
  addr : Nat
  deriving DecidableEq, Repr

/-- `&peer` for a `struct neighbor peer` on the stack. -/
def Neighbor.ptr (peer : Neighbor) : NeighborPtr := { peer with addr := 0 }

/-- `struct ident`. -/
structure Ident where
  id : UInt64
  lastHello : Int
  lastHelloLong : Int
  deriving DecidableEq, Repr

/-- `struct tree`; `null` is the null pointer. -/
inductive Tree where
  | null
  | node (key : NeighborPtr) (val : Ident) (left right : Tree)
  deriving DecidableEq, Repr

/-- The nodes of a tree, left to right. -/
def Tree.inorder : Tree → List (NeighborPtr × Ident)
  | .null => []
  | .node key val left right => left.inorder ++ (key, val) :: right.inorder

/-- The block `key` points to is the key of a node of the tree. -/
def Tree.owns (t : Tree) (key : NeighborPtr) : Prop := key ∈ t.inorder.map Prod.fst

instance (t : Tree) (key : NeighborPtr) : Decidable (t.owns key) := by
  unfold Tree.owns; infer_instance

/-! ### Messages -/

/-- `struct message_h`.  `bodyLength` is the field as stored, in network byte
order; `body` is the memory from `body[0]` on. -/
structure MessageH where
  magic : UInt8
  version : UInt8
  bodyLength : UInt16
  body : Mem

/-- The first `taille` bytes of a message, as `sendto` reads them. -/
def MessageH.bytes (msg : MessageH) (taille : Nat) : List UInt8 :=
  (msg.magic :: msg.version :: toLE 2 msg.bodyLength.toNat ++
    Octets.read msg.body 0 (taille - 4)).take taille

/-- The message stored in a block of memory. -/
def MessageH.ofMem (m : Mem) : MessageH where
  magic := m 0
  version := m 1
  bodyLength := UInt16.ofNat (ofLE (Octets.read m 2 2))
  body := fun i => m (4 + i)

/-- `struct sockaddr_in6`, without the family: the address and the port in
network byte order. -/
structure Sockaddr where
  addr : Vector UInt8 16
  port : UInt16
  deriving DecidableEq, Repr

/-! ### Flooding -/

/-- `struct data_index`. -/
structure DataIndex where
  id : UInt64
  nonce : UInt32
  deriving DecidableEq, Repr

/-- `struct ngb_entry`: a neighbour that has not acknowledged yet. -/
structure NgbEntry where
  sym : NeighborPtr
  timesSent : Nat
  waitTime : Int
  deriving DecidableEq, Repr

/-- `struct flood_entry`.  `data` is the part of the array that `init_flood`
copies: the two header bytes and the value of the Data TLV. -/
structure FloodEntry where
  index : DataIndex
  data : List UInt8
  symNeighbors : CList NgbEntry
  deriving DecidableEq, Repr

/-- `struct big_data`: a message that comes in parts.  `message` is the block the
pointer points to. -/
structure BigData where
  globalNonce : UInt32
  totalLength : UInt16
  receivedLength : UInt16
  startTime : Int
  type : Int
  message : List UInt8
  deriving DecidableEq, Repr

end FloodPeer
