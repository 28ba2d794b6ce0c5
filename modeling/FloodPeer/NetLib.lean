/-
FloodPeer/NetLib.lean

The sending half of `net_lib.c`.

A neighbour record carries the address of a message in which the TLVs meant
for it are gathered.  `send_message` appends to that message and hands it to
`sendto` only when the new TLVs would not fit in a datagram any more; a
neighbour without one is written to directly.
-/
import FloodPeer.Abr
import FloodPeer.Encode

namespace FloodPeer

open Octets StateLogic

/-! ### Addresses -/

/-- `sockaddr6_to_neighbor`. -/
def sockaddr6ToNeighbor (saddr : Sockaddr) : Neighbor where
  ip := saddr.addr
  port := swap16 saddr.port
  msg := none

/-- `neighbor_to_sockaddr6`. -/
def neighborToSockaddr6 (neighbor : Neighbor) : Sockaddr where
  addr := neighbor.ip
  port := swap16 neighbor.port

/-! ### The first message -/

/-- A message on the stack, with the bytes of `body` and a body length. -/
def messageOf (body : Mem) (size : Int) : MessageH where
  magic := 93
  version := 2
  bodyLength := swap16 (toU16 size)
  body := body

/-- The loop of `send_first_message` over the addresses. -/
def firstMessageLoop (msg : MessageH) : List Sockaddr → Int → Peer Int
  | [], nb => return nb
  | p :: rest, nb => do
    let blop ← sendto p (msg.bytes 14)
    firstMessageLoop msg rest (if blop > 0 then nb + 1 else nb)

/-- `send_first_message`; `r` is what `getaddrinfo` returns, `none` an error. -/
def sendFirstMessage (r : Option (List Sockaddr)) : Peer Int := do
  let (body, nb) := tlvShortHello (fun _ => 0) 0 maxSize (← get).id
  match r with
  | none => return -1
  | some r => firstMessageLoop (messageOf body nb) r 0

/-! ### One neighbour -/

/-- `send_message_now`. -/
def sendMessageNow (buf : MessageH) (taille : Nat) (rcpt : Neighbor) : Peer Int :=
  sendto (neighborToSockaddr6 rcpt) (buf.bytes taille)

/-- The overflow branch of `send_message`: what is pending is sent, and
`act_size` starts again at `0`. -/
def makeRoom (msg : MessageH) (actSize sizeToAdd : Nat) (rcpt : Neighbor) : Peer Nat := do
  if actSize + sizeToAdd + 4 > pmtu then
    let _ ← sendMessageNow msg (actSize + 4) rcpt
    return 0
  else
    return actSize

/-- The end of `send_message`: `bytes` go behind the first `act_size` bytes of
the pending message, and its length is set. -/
def gather (a : Nat) (msg : MessageH) (actSize : Nat) (bytes : List UInt8) : Peer Unit := do
  if actSize + bytes.length > maxSize then note .fault
  putMsg a { msg with
    body := write msg.body actSize bytes
    bodyLength := swap16 (UInt16.ofNat (actSize + bytes.length)) }

/-- `send_message`. -/
def sendMessage (buf : MessageH) (taille : Nat) (rcpt : Neighbor) : Peer Int := do
  match rcpt.msg with
  | none =>
    let _ ← sendMessageNow buf taille rcpt
    return 1
  | some a =>
    match (← get).msgs a with
    | none => note .fault; return 1
    | some msg =>
      -- both sizes are what the headers declare, not `taille`
      let actSize := (swap16 msg.bodyLength).toNat
      let sizeToAdd := (swap16 buf.bodyLength).toNat
      note (.queued a (Octets.read buf.body 0 sizeToAdd))
      let actSize ← makeRoom msg actSize sizeToAdd rcpt
      gather a msg actSize (Octets.read buf.body 0 sizeToAdd)
      return 1

/-! ### A tree of neighbours -/

/-- `send_to_everyone`. -/
def sendToEveryone (buf : MessageH) (length : Nat) : Tree → Peer Int
  | .null => return 0
  | .node key _ left right => do
    let res := if (← sendMessage buf length key.toNeighbor) > 0 then 1 else 0
    let res := res + (← sendToEveryone buf length left)
    return res + (← sendToEveryone buf length right)

/-- The flush of one record in `send_to_everyone_now`. -/
def flushNeighbor (key : Neighbor) : Peer Int := do
  match key.msg with
  | none => return 0
  | some a =>
    match (← get).msgs a with
    | none => note .fault; return 0
    | some msg =>
      if msg.bodyLength ≠ 0 then
        let n ← sendMessageNow msg ((swap16 msg.bodyLength).toNat + 4) key
        putMsg a { msg with bodyLength := 0 }
        return if n > 0 then 1 else 0
      else return 0

/-- `send_to_everyone_now`. -/
def sendToEveryoneNow : Tree → Peer Int
  | .null => return 0
  | .node key _ left right => do
    let res ← flushNeighbor key.toNeighbor
    let res := res + (← sendToEveryoneNow left)
    return res + (← sendToEveryoneNow right)

/-- `send_hello_everyone`. -/
def sendHelloEveryone : Tree → Peer Int
  | .null => return 0
  | .node key val left right => do
    let (body, tmp) := tlvLongHello (← uninit) 0 (pmtu - 4) (← get).id val.id
    let msg := messageOf body tmp
    let res := if (← sendMessage msg (toSize (tmp + 4)) key.toNeighbor) > 0 then 1 else 0
    let res := res + (← sendHelloEveryone left)
    return res + (← sendHelloEveryone right)

/-- The `for` loop of `send_symetrical_everyone`, over what `remove_first` takes
off the list one by one: the body, its size, `res` and `count`. -/
def symetricalLoop (people : Tree) : List NgbEntry → Mem → Nat → Int → Int →
    Peer (Mem × Nat × Int × Int)
  | [], body, size, res, count => return (body, size, res, count)
  | tmp :: rest, body, size, res, count => do
    let (body', rc) := tlvNeighbour body size (toSize (pmtu - 4 - size)) tmp.sym.toNeighbor
    if rc < 0 then
      -- the body is full: it goes to everyone, and the TLV begins the next one
      let res ← sendToEveryone (messageOf body size) (size + 4) people
      let (body', _) := tlvNeighbour body 0 (pmtu - 4) tmp.sym.toNeighbor
      symetricalLoop people rest body' 20 res (count + 1)
    else
      symetricalLoop people rest body' (size + 20) res (count + 1)

/-- `send_symetrical_everyone`. -/
def sendSymetricalEveryone (people : Tree) : Peer Int := do
  match ← getSymmetrical (← get).neighbors with
  | none => return -1
  | some sym =>
    let (body, size, res, count) ← symetricalLoop people sym.contents (fun _ => 0) 0 0 0
    modify fun w => { w with nbSymetrical := count }
    -- an empty body is not sent
    if size > 0 then
      sendToEveryone (messageOf body size) (size + 4) people
    else return res

/-- `send_shorthello_everyone`.  Whatever the argument, it writes to `POTENTIAL`. -/
def sendShorthelloEveryone (_people : Tree) : Peer Int := do
  let (body, nb) := tlvShortHello (← uninit) 0 (pmtu - 4) (← get).id
  sendToEveryone (messageOf body nb) (toSize (nb + 4)) (← get).potential

end FloodPeer
