/-
FloodPeer/World.lean

The global variables of a peer, and the outside it runs in.

Whatever the program cannot know is a stream in the state, consumed from its
head: the readings of the monotonic clock, the outcomes of `malloc` and
`calloc`, the values of `rand`, the results of `sendto` and the contents of
uninitialised buffers.  A run is thus determined by its initial `World`, and a
statement about every run quantifies over the streams.

The `log` is a history variable: it records what leaves the process (datagrams,
writes), which bytes of a received message are looked at, and undefined
behaviour (`fault`).  No function reads it back.  After a `fault` the model
goes on in some way; nothing is claimed about the program from there on.
-/
import FloodPeer.Struct
import Mathlib.Data.Stream.Init

namespace FloodPeer

open StateLogic

/-! ### Observations -/

/-- The two descriptors the program writes to. -/
inductive Fd where
  | stdout
  | gui
  deriving DecidableEq, Repr

/-- What the history variable records. -/
inductive Obs where
  /-- `handle_message_h` looks at `msg->body[pos .. pos + n)`. -/
  | bodyRead (pos n : Nat)
  /-- `handle_message_h` calls the handler of `type` for the TLV at `pos`. -/
  | dispatch (type : UInt8) (pos : Nat) (value : List UInt8)
  /-- A handler reads `n` bytes from offset `off` of the value it was given. -/
  | valueRead (off n : Nat)
  /-- A handler passes `n` on as a number of bytes. -/
  | count (n : Int)
  | write (fd : Fd) (bytes : List UInt8)
  | printf (n : Int)
  | puts (bytes : List UInt8)
  /-- `send_message` adds `body` to the message at address `buf`. -/
  | queued (buf : Nat) (body : List UInt8)
  | sendto (server : Sockaddr) (bytes : List UInt8)
  /-- A neighbour is given up, with these bytes still waiting for it. -/
  | dropping (sym : NeighborPtr) (pending : List UInt8)
  /-- `main` is about to wait at most this long. -/
  | select (timeout : Int)
  | fault
  /-- The fuel of a loop ran out. -/
  | stuck
  deriving DecidableEq, Repr

/-- The observations that only the parser makes. -/
def Obs.ofParser : Obs → Bool
  | .bodyRead .. | .dispatch .. | .stuck => true
  | _ => false

/-- The observations about the value of a TLV. -/
def Obs.ofValue : Obs → Bool
  | .valueRead .. | .count _ => true
  | _ => false

/-- The observations about a received message. -/
def Obs.ofInput (o : Obs) : Bool := o.ofParser || o.ofValue

/-! ### The state -/

/-- The state of a peer and the answers it will get from outside. -/
structure World where
  id : UInt64
  potential : Tree
  neighbors : Tree
  dataf : CList (Option FloodEntry)
  nexttime : Int
  nbSymetrical : Int
  /-- The messages being gathered, by address; `none` when not allocated. -/
  msgs : Nat → Option MessageH
  /-- The next address the allocator hands out. -/
  next : Nat
  clock : Stream' Nat
  mallocs : Stream' Bool
  rands : Stream' Nat
  sendtos : Stream' Int
  /-- What uninitialised buffers hold. -/
  memory : Stream' Octets.Mem
  log : List Obs

/-- Programs of the peer. -/
abbrev Peer := StateM World

/-! ### The outside -/

/-- Record an observation. -/
def note (o : Obs) : Peer Unit := modify fun w => { w with log := w.log ++ [o] }

/-- `get_seconds`. -/
def getSeconds : Peer Int := modifyGet fun w =>
  ((w.clock.head : Int), { w with clock := w.clock.tail })

/-- `malloc` and `calloc`: a fresh address, or null. -/
def malloc : Peer (Option Nat) := modifyGet fun w =>
  if w.mallocs.head then
    (some w.next, { w with mallocs := w.mallocs.tail, next := w.next + 1 })
  else
    (none, { w with mallocs := w.mallocs.tail })

/-- `rand`. -/
def rand : Peer Nat := modifyGet fun w =>
  (w.rands.head, { w with rands := w.rands.tail })

/-- `sendto`: the datagram is handed over; the result comes from outside. -/
def sendto (server : Sockaddr) (bytes : List UInt8) : Peer Int := modifyGet fun w =>
  (w.sendtos.head,
    { w with sendtos := w.sendtos.tail, log := w.log ++ [.sendto server bytes] })

/-- An uninitialised buffer. -/
def uninit : Peer Octets.Mem := modifyGet fun w =>
  (w.memory.head, { w with memory := w.memory.tail })

/-- Store a message at an address. -/
def putMsg (a : Nat) (msg : MessageH) : Peer Unit := modify fun w =>
  { w with msgs := fun b => if b = a then some msg else w.msgs b }

/-- `free` of a message. -/
def freeMsg (a : Nat) : Peer Unit := modify fun w =>
  { w with msgs := fun b => if b = a then none else w.msgs b }

section Outside

variable (w : World)

@[simp] theorem after_note (o : Obs) : after (note o) w = { w with log := w.log ++ [o] } := rfl

@[simp] theorem value_getSeconds : value getSeconds w = (w.clock.head : Int) := rfl

@[simp] theorem after_getSeconds : after getSeconds w = { w with clock := w.clock.tail } := rfl

@[simp] theorem value_rand : value rand w = w.rands.head := rfl

@[simp] theorem after_rand : after rand w = { w with rands := w.rands.tail } := rfl

@[simp] theorem value_sendto (server : Sockaddr) (bytes : List UInt8) :
    value (sendto server bytes) w = w.sendtos.head := rfl

@[simp] theorem after_sendto (server : Sockaddr) (bytes : List UInt8) :
    after (sendto server bytes) w =
      { w with sendtos := w.sendtos.tail, log := w.log ++ [.sendto server bytes] } := rfl

@[simp] theorem value_uninit : value uninit w = w.memory.head := rfl

@[simp] theorem after_uninit : after uninit w = { w with memory := w.memory.tail } := rfl

@[simp] theorem after_putMsg (a : Nat) (msg : MessageH) :
    after (putMsg a msg) w =
      { w with msgs := fun b => if b = a then some msg else w.msgs b } := rfl

@[simp] theorem after_freeMsg (a : Nat) :
    after (freeMsg a) w = { w with msgs := fun b => if b = a then none else w.msgs b } := rfl

theorem malloc_of_true {w : World} (h : w.mallocs.head = true) :
    value malloc w = some w.next ∧
      after malloc w = { w with mallocs := w.mallocs.tail, next := w.next + 1 } := by
  have hrun : malloc.run w =
      (some w.next, { w with mallocs := w.mallocs.tail, next := w.next + 1 }) := if_pos h
  exact ⟨congrArg Prod.fst hrun, congrArg Prod.snd hrun⟩

theorem malloc_of_false {w : World} (h : w.mallocs.head = false) :
    value malloc w = none ∧ after malloc w = { w with mallocs := w.mallocs.tail } := by
  have hrun : malloc.run w = (none, { w with mallocs := w.mallocs.tail }) :=
    if_neg (by rw [h]; exact Bool.false_ne_true)
  exact ⟨congrArg Prod.fst hrun, congrArg Prod.snd hrun⟩

/-- The two outcomes of an allocation. -/
theorem malloc_cases (w : World) :
    (value malloc w = none ∧ (after malloc w).next = w.next) ∨
    (value malloc w = some w.next ∧ (after malloc w).next = w.next + 1) := by
  cases h : w.mallocs.head with
  | true => exact .inr ⟨(malloc_of_true h).1, by rw [(malloc_of_true h).2]⟩
  | false => exact .inl ⟨(malloc_of_false h).1, by rw [(malloc_of_false h).2]⟩

theorem malloc_eq_none_iff (w : World) : value malloc w = none ↔ w.mallocs.head = false := by
  cases h : w.mallocs.head with
  | true => simp [(malloc_of_true h).1]
  | false => simp [(malloc_of_false h).1]

end Outside

/-! ### Successful allocation, monotonic clock -/

/-- Every allocation from now on succeeds. -/
def World.Allocates (w : World) : Prop := ∀ k, w.mallocs.get k = true

/-- The readings of the clock never decrease. -/
def World.Monotonic (w : World) : Prop := ∀ j k, j ≤ k → w.clock.get j ≤ w.clock.get k

end FloodPeer
