/-
FloodPeer/Flood.lean

The flood list: `list.c`, the flooding half of `util.c` and the sweeps of
`net_lib.c` that remove silent neighbours.

`DATAF` holds pointers to flood entries; the model names an entry by the cell
of `DATAF` that points to it.  The walk of `flood_message_to_neighbours` along
a list that it reorders is modelled with the address of the cell under its
cursor, one call of `floodTurn` for each turn of the loop.
-/
import FloodPeer.NetLib

namespace FloodPeer

open Octets StateLogic

/-! ### Entries -/

/-- The flood entry that the cell `cell` of `DATAF` points to. -/
def World.floodAt (w : World) (cell : Nat) : Option FloodEntry :=
  (w.dataf.cell? cell).bind (·.content)

/-- Assign to `flood->sym_neighbors`, for the entry in the cell `cell`. -/
def setSyms (cell : Nat) (l : CList NgbEntry) : Peer Unit := modify fun w =>
  { w with dataf := w.dataf.modifyCell cell fun f => f.map ({ · with symNeighbors := l }) }

/-- `init_flood`. -/
def initFlood (index : DataIndex) (data : List UInt8) (symNeighbors : CList NgbEntry) :
    Peer (Option FloodEntry) := do
  match ← malloc with
  | none => return none
  | some _ =>
    match ← malloc with
    | none => return none
    | some _ =>
      let size := (data.getD 1 0).toNat + 2
      if size > pmtu - 4 then return none
      else return some { index := index, data := data.take size, symNeighbors := symNeighbors }

/-- The entry `get` searches `DATAF` with: only its index is compared. -/
def floodProbe (index : DataIndex) : Option FloodEntry :=
  some { index := index, data := [], symNeighbors := initList }

/-- `get(&DATAF,&fl)`.  The comparator reads the index of every entry it meets;
a null entry on the way is a `fault`. -/
def getFlood (index : DataIndex) : Peer (Option (ListEntry (Option FloodEntry))) := do
  let w ← get
  if none ∈ walked (fun c => compareFlood c (floodProbe index) = 0) w.dataf.contents then
    note .fault
  return w.dataf.get compareFlood (floodProbe index)

/-- The entry a neighbour's list is searched with: never sent, deadline `0`. -/
def ngbProbe (peer : NeighborPtr) : NgbEntry := { sym := peer, timesSent := 0, waitTime := 0 }

/-! ### `list.c` -/

/-- `add_message_to_flood`.  `msgSend` is the value of the Data TLV,
`sizeMsgSend` its declared length. -/
def addMessageToFlood (msgSend : Mem) (sizeMsgSend : UInt8) (toDelete : Option NeighborPtr) :
    Peer Unit := do
  note (.valueRead 0 8)
  note (.valueRead 8 4)
  let index : DataIndex :=
    { id := UInt64.ofNat (ofLE (Octets.read msgSend 0 8))
      nonce := UInt32.ofNat (ofLE (Octets.read msgSend 8 4)) }
  match ← getSymmetrical (← get).neighbors with
  | none => pure ()
  | some symmetric =>
    let symmetric := match toDelete with
      | none => symmetric
      | some peer => (removeElem compareNS symmetric (ngbProbe peer)).1
    note (.valueRead 0 sizeMsgSend.toNat)
    let msg := 4 :: sizeMsgSend :: Octets.read msgSend 0 sizeMsgSend.toNat
    let flood ← initFlood index msg symmetric
    -- `flood` is stored even when it is a null pointer
    let (dataf, _) ← addLimited malloc (← get).dataf flood nbdata
    modify fun w => { w with dataf := dataf }

/-- `remove_neighbor_from_flood`. -/
def removeNeighborFromFlood (data : DataIndex) (peer : NeighborPtr) : Peer Int := do
  match ← getFlood data with
  | some { addr := cell, content := some flood } =>
    let l := ngbProbe peer
    touchSyms (walked (fun ent => compareNS ent l = 0) flood.symNeighbors.contents)
    setSyms cell (removeElem compareNS flood.symNeighbors l).1
    return 1
  | _ => return 0

/-- The loop of `remove_neighbor_everywhere`, over the entries of `DATAF`. -/
def removeFromFloods (peer : NeighborPtr) : List (Option FloodEntry) → Peer Unit
  | [] => pure ()
  | none :: rest => do note .fault; removeFromFloods peer rest
  | some f :: rest => do
    let _ ← removeNeighborFromFlood f.index peer
    removeFromFloods peer rest

/-- `remove_neighbor_everywhere`. -/
def removeNeighborEverywhere (peer : NeighborPtr) : Peer Int := do
  removeFromFloods peer (← get).dataf.contents
  removeNeighbor peer.toNeighbor
  return 1

/-! ### Flooding -/

/-- The bytes waiting in the message gathered for `key`. -/
def World.pending (w : World) (key : Neighbor) : List UInt8 :=
  match key.msg.bind w.msgs with
  | none => []
  | some msg => Octets.read msg.body 0 (swap16 msg.bodyLength).toNat

/-- The text of `handle_inactive`. -/
def inactiveText : List UInt8 :=
  [87, 101, 115, 104, 44, 32, 116, 39, 101, 115, 32, 111, 195, 185, 32, 63, 32, 66, 114, 101,
   102, 44, 98, 121, 101]

/-- `handle_inactive`. -/
def handleInactive (sym : NeighborPtr) : Peer Unit := do
  let (body, tmp) := tlvGoaway (← uninit) 0 (pmtu - 4) 2 (ofBytes inactiveText) 24
  match ← deref sym with
  | none => pure ()
  | some key =>
    note (.dropping sym ((← get).pending key))
    let _ ← sendMessage (messageOf body tmp) (toSize (tmp + 4)) key
    let _ ← removeNeighborEverywhere sym

/-- `send_data`.  `tlv` is a plain `char *`, so the length byte is read as a
signed number; a negative size reaches `memcpy` as a huge one, a `fault` after
which the model gives up the pass. -/
def sendData (tlv : List UInt8) (key : Neighbor) : Peer Int := do
  let bodyLength := toChar (tlv.getD 1 0) + 2
  if bodyLength < 0 then
    note .fault
    return 0
  else
    let msgLength := toU16 (bodyLength + 4)
    let body := write (← uninit) 0 (tlv.take bodyLength.toNat)
    sendMessage (messageOf body bodyLength) msgLength.toNat key

/-- How a turn of the loop of `flood_message_to_neighbours` ends. -/
inductive Turn where
  | goto (tmp : Option Nat)
  | stop
  deriving DecidableEq, Repr

/-- The end of a turn that has sent the datum to `nw`, the entry under the
cursor `tmp` of the list `l`: the entry is taken out and put back with a new
deadline. -/
def requeue (flood : Nat) (currentTime : Int) (l : CList NgbEntry) (tmp : Nat) (nw : NgbEntry) :
    Peer Turn := do
  let tmp2 := l.next? tmp
  touchSyms (walked (fun ent => compareNS ent nw = 0) l.contents)
  let (l, temp) := removeElem compareNS l nw
  setSyms flood l
  match temp with
  -- the cursor stays where it is: the loop does not end
  | none => return .goto (some tmp)
  | some n =>
    let wait ← waitTime (n.timesSent + 1)
    let n : NgbEntry := { n with timesSent := n.timesSent + 1, waitTime := wait + currentTime }
    touchSyms (walked (fun ent => compareNS ent n ≥ 0) l.contents)
    let (l, i) ← addElem compareNS malloc l n
    setSyms flood l
    -- only a failed allocation ends the pass, not the `2` of an entry found equal
    if i = 0 then return .stop
    else return .goto tmp2

/-- One turn of that loop, for the entry in the cell `flood` of `DATAF` and
with the cursor on the cell `tmp` of its list. -/
def floodTurn (flood : Nat) (currentTime : Int) (tmp : Nat) : Peer Turn := do
  match (← get).floodAt flood with
  | none => note .fault; return .stop
  | some f =>
    match f.symNeighbors.cell? tmp with
    | none => note .fault; return .stop
    | some { addr := _, content := nw } =>
      if nw.timesSent = 5 then
        -- read before `handle_inactive` frees the cell
        let tmp2 := f.symNeighbors.next? tmp
        handleInactive nw.sym
        return .goto tmp2
      else if currentTime ≥ nw.waitTime then
        match ← deref nw.sym with
        | none => return .stop
        | some key =>
          let i ← sendData f.data key
          if i = 0 then return .stop
          else requeue flood currentTime f.symNeighbors tmp nw
      else
        -- the list is taken to be sorted: those behind are not looked at
        modify fun w => { w with nexttime := min w.nexttime nw.waitTime }
        return .stop

/-- The loop of `flood_message_to_neighbours`. -/
def floodLoop (flood : Nat) (currentTime : Int) : Nat → Option Nat → Peer Unit
  | _, none => pure ()
  | 0, some _ => note .stuck
  | fuel + 1, some tmp => do
    match ← floodTurn flood currentTime tmp with
    | .stop => pure ()
    | .goto tmp => floodLoop flood currentTime fuel tmp

/-- `flood_message_to_neighbours`.  An entry is met at most twice in a pass:
when it is sent, and once more when that was the fifth time. -/
def floodMessageToNeighbours (flood : Nat) : Peer Unit := do
  let currentTime ← getSeconds
  match (← get).floodAt flood with
  | none => note .fault
  | some f =>
    floodLoop flood currentTime (2 * f.symNeighbors.entries.length + 1) f.symNeighbors.first

/-- The loop of `flood_messages`, over the cells of `DATAF`. -/
def floodCells : List Nat → Peer Unit
  | [] => pure ()
  | cell :: rest => do
    floodMessageToNeighbours cell
    floodCells rest

/-- `flood_messages(soc,&DATAF)`. -/
def floodMessages : Peer Unit := do
  floodCells ((← get).dataf.entries.map (·.addr))

/-! ### Sweeps -/

/-- One turn of the loop of `send_goaway_asymetrical`: the GoAway is queued
and the neighbour is removed. -/
def expire (msg : MessageH) (taille : Nat) (sym : NeighborPtr) : Peer Int := do
  match ← deref sym with
  | none => return 0
  | some key =>
    note (.dropping sym ((← get).pending key))
    let rc ← sendMessage msg taille key
    let _ ← removeNeighborEverywhere sym
    return if rc > 0 then 1 else 0

/-- The loop of `send_goaway_asymetrical`, over what `remove_first` takes off
the list. -/
def goawayLoop (msg : MessageH) (taille : Nat) : List NgbEntry → Int → Peer Int
  | [], count => return count
  | ent :: rest, count => do
    let n ← expire msg taille ent.sym
    goawayLoop msg taille rest (count + n)

/-- `send_goaway_asymetrical`. -/
def sendGoawayAsymetrical : Peer Int := do
  if (← get).neighbors = .null then
    return 0
  else
    let sym ← findBy (← get).neighbors isOld
    -- a GoAway without a text
    let (body, tmp) := tlvGoaway (← uninit) 0 (pmtu - 4) 2 (fun _ => 0) 0
    match sym with
    | none => note .fault; return 0
    | some sym => goawayLoop (messageOf body tmp) (toSize (tmp + 4)) sym.contents 0

/-- The loop of `remove_old_potential`. -/
def potentialLoop : List NgbEntry → Peer Unit
  | [] => pure ()
  | ent :: rest => do
    removePotential ent.sym.toNeighbor
    potentialLoop rest

/-- `remove_old_potential`. -/
def removeOldPotential : Peer Unit := do
  if (← get).potential = .null then
    pure ()
  else
    match ← findBy (← get).potential isOld with
    | none => note .fault
    | some sym => potentialLoop sym.contents

end FloodPeer
