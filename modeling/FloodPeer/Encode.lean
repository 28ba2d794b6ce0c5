/-
FloodPeer/Encode.lean

The functions of `tlv.c` that build TLVs.

Each takes the buffer, the offset of the pointer it is given and the room left
behind it, and returns the buffer and the `int` of the source.
-/
import FloodPeer.Util

namespace FloodPeer

open Octets StateLogic

/-- `memcpy` of an eight-byte identifier. -/
def u64Bytes (x : UInt64) : List UInt8 := toLE 8 x.toNat

/-- `memcpy` of a four-byte nonce. -/
def u32Bytes (x : UInt32) : List UInt8 := toLE 4 x.toNat

/-- `memcpy` of a two-byte word. -/
def u16Bytes (x : UInt16) : List UInt8 := toLE 2 x.toNat

/-- `tlv_pad1`. -/
def tlvPad1 (body : Mem) (off bufsize : Nat) : Mem × Int :=
  if bufsize > 0 then (write body off [0], 1) else (body, -1)

/-- `tlv_padN`. -/
def tlvPadN (body : Mem) (off bufsize : Nat) (length : UInt8) : Mem × Int :=
  if bufsize > length.toNat + 1 then
    let body := write body off [1]
    let body := write body (off + 1) [length]
    let body := write body (off + 2) (List.replicate length.toNat 0)
    (body, length.toNat + 2)
  else (body, -1)

/-- `tlv_short_hello`. -/
def tlvShortHello (body : Mem) (off bufsize : Nat) (id : UInt64) : Mem × Int :=
  if bufsize > 9 then
    let body := write body off [2]
    let body := write body (off + 1) [8]
    let body := write body (off + 2) (u64Bytes id)
    (body, 10)
  else (body, -1)

/-- `tlv_long_hello`. -/
def tlvLongHello (body : Mem) (off bufsize : Nat) (sourceId destId : UInt64) : Mem × Int :=
  -- the eighteen bytes below need `bufsize > 17`
  if bufsize > 15 then
    let body := write body off [2]
    let body := write body (off + 1) [16]
    let body := write body (off + 2) (u64Bytes sourceId)
    let body := write body (off + 2 + 8) (u64Bytes destId)
    (body, 18)
  else (body, -1)

/-- `tlv_neighbour`. -/
def tlvNeighbour (body : Mem) (off bufsize : Nat) (ngb : Neighbor) : Mem × Int :=
  -- twenty bytes would be enough
  if bufsize > 21 then
    let body := write body off [3]
    let body := write body (off + 1) [18]
    let body := write body (off + 2) ngb.ip.toList
    let port := swap16 ngb.port
    let body := write body (off + 2 + 16) (u16Bytes port)
    (body, 20)
  else (body, -1)

/-- `tlv_data`: the payload is the first `msgSize` bytes at `data`; the nonce
is drawn only when the TLV fits. -/
def tlvData (body : Mem) (off bufsize : Nat) (id : UInt64) (type : UInt8) (data : Mem)
    (msgSize : UInt8) : Peer (Mem × Int) := do
  -- a `u_int8_t`: it wraps from a payload of 243 bytes on
  let length : UInt8 := UInt8.ofNat (8 + 4 + 1 + msgSize.toNat)
  if bufsize > length.toNat + 1 then
    let nonce ← randomOnOctets 4
    let body := write body off [4]
    let body := write body (off + 1) [length]
    let body := write body (off + 2) (u64Bytes id)
    let body := write body (off + 2 + 8) nonce
    let body := write body (off + 2 + 8 + 4) [type]
    let body := write body (off + 2 + 8 + 4 + 1) (Octets.read data 0 msgSize.toNat)
    return (body, msgSize.toNat + 15)
  else
    return (body, -1)

/-- `tlv_ack`. -/
def tlvAck (body : Mem) (off bufsize : Nat) (id : UInt64) (nonce : UInt32) : Mem × Int :=
  let length : UInt8 := 8 + 4
  if bufsize > length.toNat + 1 then
    let body := write body off [5]
    let body := write body (off + 1) [length]
    let body := write body (off + 2) (u64Bytes id)
    let body := write body (off + 2 + 8) (u32Bytes nonce)
    (body, 8 + 4 + 2)
  else (body, 0)

/-- `tlv_goaway`: the text is the first `msgSize` bytes at `msg`. -/
def tlvGoaway (body : Mem) (off bufsize : Nat) (code : UInt8) (msg : Mem) (msgSize : UInt8) :
    Mem × Int :=
  -- it wraps for a text of 255 bytes
  let length : UInt8 := UInt8.ofNat (1 + msgSize.toNat)
  if bufsize > length.toNat + 1 then
    let body := write body off [6]
    let body := write body (off + 1) [length]
    let body := write body (off + 2) [code]
    let body := write body (off + 2 + 1) (Octets.read msg 0 msgSize.toNat)
    (body, length.toNat + 2)
  else (body, -1)

/-- `tlv_warning`.  It returns `1`, whatever the size of the text. -/
def tlvWarning (body : Mem) (off bufsize : Nat) (msg : Mem) (msgSize : UInt8) : Mem × Int :=
  if bufsize > msgSize.toNat + 1 then
    let body := write body off [7]
    let body := write body (off + 1) [msgSize]
    let body := write body (off + 2) (Octets.read msg 0 msgSize.toNat)
    (body, 1)
  else (body, 0)

end FloodPeer
