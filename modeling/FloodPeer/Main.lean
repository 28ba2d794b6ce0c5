/-
FloodPeer/Main.lean

The main loop of `main.c`.

`select`, `recvfrom` and the `read` on the pipe of the user interface are
answered from outside by a `Wake`.  The variables of `main` that live on from
one turn of the loop to the next are in a `MainState`: the receive buffer and
the sender's address keep their contents when `recvfrom` fails.
-/
import FloodPeer.Tlv

namespace FloodPeer

open Octets StateLogic

/-- `TIMEHELLO`. -/
def timehello : Int := 30

/-- `MIN_SYM`. -/
def minSym : Int := 10

/-- The result of `recvfrom`. -/
inductive Recv where
  | error
  | datagram (bytes : List UInt8) (client : Sockaddr)

/-- What one turn of the loop gets from outside: the truth value of `select`,
and the results of the two reads for the descriptors that are ready (`none`
in a `read` is `-1`). -/
structure Wake where
  selected : Bool
  soc : Option Recv
  gui : Option (Option (List UInt8))

/-- The variables of `main`. -/
structure MainState where
  msg : Mem
  client : Sockaddr
  nexthello : Int

/-- `sizeof(struct message_h)`. -/
def sizeofMessage : Nat := 4 + maxSize

/-- `recvfrom(soc,&msg,sizeof(struct message_h),0,&client,&client_len)`. -/
def recvfrom (m : MainState) : Recv → MainState × Int
  | .error => (m, -1)
  | .datagram bytes client =>
    let bytes := bytes.take sizeofMessage
    ({ m with msg := write m.msg 0 bytes, client := client }, bytes.length)

/-- `if(buf[tmp-1]==c) tmp--;`, with `tmp` a `u_int8_t`. -/
def trim (c : UInt8) (buf : Mem) (tmp : UInt8) : Peer UInt8 := do
  if tmp = 0 then
    note .fault
    return if (← uninit) 0 = c then tmp - 1 else tmp
  else
    return if buf (tmp.toNat - 1) = c then tmp - 1 else tmp

/-- The branch of the loop that takes a message from the user interface. -/
def localMessage (got : Option (List UInt8)) : Peer Unit := do
  let buf := ofBytes ((got.getD []).take 242)
  let tmp : UInt8 := match got with
    | none => 255
    | some bytes => UInt8.ofNat (bytes.take 242).length
  let tmp ← trim 0 buf tmp
  let tmp ← trim 10 buf tmp
  -- `msg_to_send` has 260 bytes; after a failed `read` the payload has 254
  if tmp.toNat + 15 > 260 then note .fault
  let (msgToSend, _) ← tlvData (← uninit) 0 260 (← get).id 0 buf tmp
  addMessageToFlood (fun i => msgToSend (2 + i)) (msgToSend 1) none
  printOnScreen buf 0 tmp.toNat

/-- The branch of the loop that sends the periodic messages. -/
def helloTimer (nexthello : Int) : Peer Int := do
  if (← getSeconds) ≥ nexthello then
    let _ ← sendHelloEveryone (← get).neighbors
    let _ ← sendSymetricalEveryone (← get).neighbors
    let nexthello := (← getSeconds) + timehello
    let _ ← sendGoawayAsymetrical
    removeOldPotential
    if (← get).nbSymetrical ≤ minSym then
      let _ ← sendShorthelloEveryone (← get).potential
    return nexthello
  else
    return nexthello

/-- The branch of the loop that receives a datagram. -/
def receive (m : MainState) (r : Recv) : Peer MainState := do
  -- after an error the old message is parsed, with a huge size
  let (m, sizeMsg) := recvfrom m r
  handleMessageH (.ofMem m.msg) (toSize sizeMsg) (sockaddr6ToNeighbor m.client)
  return m

/-- The branch of the loop for the descriptors that `select` reports. -/
def readDescriptors (wake : Wake) (m : MainState) : Peer MainState :=
  if wake.selected then do
    let m ← match wake.soc with
      | none => pure m
      | some r => receive m r
    match wake.gui with
      | none => return m
      | some got => do
        localMessage got
        return m
  else pure m

/-- One turn of the main loop. -/
def iteration (wake : Wake) (m : MainState) : Peer MainState := do
  -- the deadlines that the last `flood_messages` has met, and the next Hello
  modify fun w => { w with nexttime := min w.nexttime m.nexthello }
  let now ← getSeconds
  note (.select (max 0 ((← get).nexttime - now)))
  modify fun w => { w with nexttime := m.nexthello }
  let m ← readDescriptors wake m
  let nexthello ← helloTimer m.nexthello
  floodMessages
  let _ ← sendToEveryoneNow (← get).neighbors
  return { m with nexthello := nexthello }

/-- The first turns of the main loop, for what they get from outside. -/
def mainLoop : List Wake → MainState → Peer MainState
  | [], m => return m
  | wake :: rest, m => do mainLoop rest (← iteration wake m)

/-- The state in which `main` enters its loop: nobody known, nothing to flood. -/
structure World.Initial (w : World) : Prop where
  potential : w.potential = .null
  neighbors : w.neighbors = .null
  dataf : w.dataf = initList
  msgs : w.msgs = fun _ => none
  next : 0 < w.next
  log : w.log = []

/-- A peer that has just started, with the given readings of its clock; nothing
fails and every random value is `0`. -/
def World.boot (clock : Stream' Nat) : World where
  id := 1
  potential := .null
  neighbors := .null
  dataf := initList
  nexttime := 0
  nbSymetrical := 0
  msgs := fun _ => none
  next := 1
  clock := clock
  mallocs := fun _ => true
  rands := fun _ => 0
  sendtos := fun _ => 1
  memory := fun _ _ => 0
  log := []

theorem initial_boot (clock : Stream' Nat) : (World.boot clock).Initial :=
  ⟨rfl, rfl, rfl, rfl, Nat.one_pos, rfl⟩

end FloodPeer
