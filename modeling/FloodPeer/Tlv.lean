/-
FloodPeer/Tlv.lean

The receiving half of `tlv.c`: the handlers of the seven TLV types and the
parser `handle_message_h` that calls them.

A handler is given the buffer `tlv`, which the parser reuses from one TLV to
the next, and the declared length.  Nothing stops it from reading behind that
length; every read is recorded.
-/
import FloodPeer.Flood

namespace FloodPeer

open Octets StateLogic

/-! ### Fields -/

/-- `memcpy(&x,tlv+off,8)`. -/
def u64At (tlv : Mem) (off : Nat) : UInt64 := UInt64.ofNat (ofLE (Octets.read tlv off 8))

/-- `memcpy(&x,tlv+off,4)`. -/
def u32At (tlv : Mem) (off : Nat) : UInt32 := UInt32.ofNat (ofLE (Octets.read tlv off 4))

/-- `memcpy(&x,tlv+off,2)`. -/
def u16At (tlv : Mem) (off : Nat) : UInt16 := UInt16.ofNat (ofLE (Octets.read tlv off 2))

/-- The `index` that `data` and `ack` fill. -/
def indexAt (tlv : Mem) : DataIndex := { id := u64At tlv 0, nonce := u32At tlv 8 }

/-- The `key` that `neighbour` fills. -/
def keyAt (tlv : Mem) : Neighbor where
  ip := Vector.ofFn fun i => tlv i
  port := swap16 (u16At tlv 16)
  msg := none

/-- `*(tlv+12)`, the type of a datum, as the `int` that `data` keeps it in. -/
def typeAt (tlv : Mem) : Int := toChar (tlv 12)

/-- `tlv[0]`, the code of a GoAway, as the `int` that `goaway` prints. -/
def codeAt (tlv : Mem) : Int := toChar (tlv 0)

/-! ### Handlers -/

/-- The escape sequence for red text. -/
def rouge : List UInt8 := [27, 91, 51, 49, 109]

/-- The escape sequence that resets the colour. -/
def blanc : List UInt8 := [27, 91, 48, 109]

/-- `print_on_screen`, for the pointer `data + off`.  A size that comes from a
negative `int` makes the writes run over the end of memory. -/
def printOnScreen (data : Mem) (off size : Nat) : Peer Unit := do
  note (.printf size)
  note (.puts rouge)
  if size ≥ 2 ^ 63 then
    note .fault
  else
    note (.valueRead off size)
    note (.write .stdout (Octets.read data off size))
    note (.write .gui [0])
    note (.write .gui (Octets.read data off size))
    if off + size = 0 then
      note .fault
    else
      note (.valueRead (off + size - 1) 1)
      if data (off + size - 1) ≠ 10 then note (.write .stdout [10])
  note (.puts blanc)

/-- `pad1`. -/
def pad1 (_tlv : Mem) (_length : UInt8) (_peer : Neighbor) : Peer Unit := pure ()

/-- `padN`. -/
def padN (_tlv : Mem) (_length : UInt8) (_peer : Neighbor) : Peer Unit := pure ()

/-- What `hello` does with an accepted Hello. -/
def acceptHello (val : Ident) (peer : Neighbor) : Peer Unit := do
  let rc ← addNeighbor peer val
  if rc = 1 then
    removePotential peer
    let _ ← sendHelloEveryone (← get).neighbors

/-- `hello`. -/
def hello (tlv : Mem) (length : UInt8) (peer : Neighbor) : Peer Unit := do
  let current ← getSeconds
  note (.valueRead 0 8)
  let val : Ident := { id := u64At tlv 0, lastHello := current, lastHelloLong := 0 }
  if length = 16 then
    note (.valueRead 8 8)
    let destId := u64At tlv 8
    -- a long Hello for somebody else is ignored
    if destId = (← get).id then
      acceptHello { val with lastHelloLong := current } peer
  else
    -- of any other length it is a short one: `last_hello_long` is set to `0`
    acceptHello val peer

/-- `neighbour`. -/
def neighbour (tlv : Mem) (_length : UInt8) (_peer : Neighbor) : Peer Unit := do
  note (.valueRead 0 16)
  note (.valueRead 16 2)
  let key := keyAt tlv
  match getIdent key (← get).neighbors with
  | some _ => pure ()
  | none =>
    let val : Ident := { id := 0, lastHello := ← getSeconds, lastHelloLong := 0 }
    let _ ← addPotential key val

/-- The Ack that `data` sends. -/
def sendAck (index : DataIndex) (peer : Neighbor) : Peer Unit := do
  let (body, size) := tlvAck (← uninit) 0 (pmtu - 4) index.id index.nonce
  if size > 0 then
    let _ ← sendMessage (messageOf body size) (toSize (size + 4)) peer

/-- The branch of `data` for an index that is not in `DATAF`. -/
def newData (tlv : Mem) (length : UInt8) (peer : Neighbor) : Peer Unit := do
  note (.count length.toNat)
  addMessageToFlood tlv length (some peer.ptr)
  note (.valueRead 12 1)
  let size := typeAt tlv
  if size = 0 then
    note (.count ((length.toNat : Int) - 13))
    printOnScreen tlv 13 (toSize ((length.toNat : Int) - 13))

/-- `data`. -/
def data (tlv : Mem) (length : UInt8) (peer : Neighbor) : Peer Unit := do
  note (.valueRead 0 8)
  note (.valueRead 8 4)
  let index := indexAt tlv
  sendAck index peer
  match ← getFlood index with
  | some _ =>
    let _ ← removeNeighborFromFlood index peer.ptr
  | none => newData tlv length peer

/-- `ack`. -/
def ack (tlv : Mem) (_length : UInt8) (peer : Neighbor) : Peer Unit := do
  note (.valueRead 0 8)
  note (.valueRead 8 4)
  let _ ← removeNeighborFromFlood (indexAt tlv) peer.ptr

/-- `write(1,tlv+1,length-1)`, which runs over the end of memory for an empty
value. -/
def writeText (tlv : Mem) (length : UInt8) : Peer Unit := do
  note (.count ((length.toNat : Int) - 1))
  if length = 0 then
    note .fault
  else
    note (.valueRead 1 (length.toNat - 1))
    note (.write .stdout (Octets.read tlv 1 (length.toNat - 1)))

/-- `goaway`. -/
def goaway (tlv : Mem) (length : UInt8) (peer : Neighbor) : Peer Unit := do
  note (.valueRead 0 1)
  note (.printf (codeAt tlv))
  writeText tlv length
  let _ ← removeNeighborEverywhere peer.ptr

/-- `warning`.  The text is printed up to its first null byte. -/
def warning (tlv : Mem) (length : UInt8) (_peer : Neighbor) : Peer Unit := do
  note (.count length.toNat)
  note (.valueRead 0 length.toNat)
  let buf := Octets.read tlv 0 length.toNat
  note (.puts (buf.takeWhile (· ≠ 0)))

/-- `handle_tlv[type]`, for `type < NB_TLV`. -/
def handleTlv (type : UInt8) : Mem → UInt8 → Neighbor → Peer Unit :=
  match type with
  | 0 => pad1
  | 1 => padN
  | 2 => hello
  | 3 => neighbour
  | 4 => data
  | 5 => ack
  | 6 => goaway
  | _ => warning

/-! ### The parser -/

/-- The loop of `handle_message_h`.  `tlv` is the shared buffer. -/
def handleMessageLoop (msg : MessageH) (bodyLength : Nat) (rcpt : Neighbor) :
    Nat → Nat → Mem → Peer Unit
  | 0, pos, _ => if pos < bodyLength then note .stuck else pure ()
  | fuel + 1, pos, tlv => do
    if pos < bodyLength then
      note (.bodyRead pos 1)
      let type := msg.body pos
      if type = 0 then
        handleMessageLoop msg bodyLength rcpt fuel (pos + 1) tlv
      else
        note (.bodyRead (pos + 1) 1)
        let length := msg.body (pos + 1)
        -- the two bytes of the header are not counted
        if (length.toNat : Int) > (bodyLength : Int) - pos then
          pure ()
        else if type.toNat < nbTlv then
          note (.bodyRead (pos + 2) length.toNat)
          let value := Octets.read msg.body (pos + 2) length.toNat
          -- what an earlier, longer TLV has left behind the value stays there
          let tlv := write tlv 0 value
          note (.dispatch type pos value)
          handleTlv type tlv length rcpt
          handleMessageLoop msg bodyLength rcpt fuel (pos + (length.toNat + 2)) tlv
        else
          -- a type without a handler is skipped
          handleMessageLoop msg bodyLength rcpt fuel (pos + (length.toNat + 2)) tlv
    else pure ()

/-- `handle_message_h`.  Each turn of its loop advances, so that there are at
most `body_length` of them. -/
def handleMessageH (msg : MessageH) (bufT : Nat) (rcpt : Neighbor) : Peer Unit := do
  if bufT < 4 then pure ()
  else if msg.magic ≠ 93 ∨ msg.version ≠ 2 then pure ()
  else
    let bodyLength := (swap16 msg.bodyLength).toNat
    if bodyLength + 4 > bufT then pure ()
    else handleMessageLoop msg bodyLength rcpt bodyLength 0 (← uninit)

end FloodPeer
