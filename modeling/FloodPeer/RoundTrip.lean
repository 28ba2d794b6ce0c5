/-
FloodPeer/RoundTrip.lean

Parsing undoes encoding.

A `Tlv` is what a TLV says, the arguments of the function that builds it.  The
nine encoders write `Tlv.bytes` (`Built.eq_bytes`); on a body that is a
concatenation of such encodings the parser calls a handler for each TLV but the
Pad1s, in order and with its value (`dispatched_steps`).  `Tlv.meaning` is what a
handler has to do, said with the arguments of the encoder.  Each handler does
just that (`handleTlv_eq_meaning`), with one exception: the code of a GoAway is
printed as a signed `char`.
-/
import FloodPeer.Encoders
import FloodPeer.Values

namespace FloodPeer

open Octets StateLogic

/-! ### TLVs -/

/-- A TLV, by the arguments of its encoder. -/
inductive Tlv where
  | pad1
  | padN (length : UInt8)
  | shortHello (id : UInt64)
  | longHello (sourceId destId : UInt64)
  | neighbour (ip : Vector UInt8 16) (port : UInt16)
  | data (id : UInt64) (nonce : UInt32) (type : UInt8) (payload : List UInt8)
      (hpayload : payload.length ≤ 242)
  | ack (id : UInt64) (nonce : UInt32)
  | goaway (code : UInt8) (text : List UInt8) (htext : text.length ≤ 254)
  | warning (text : List UInt8) (htext : text.length ≤ 255)

namespace Tlv

/-- The type byte. -/
def type : Tlv → UInt8
  | pad1 => 0
  | padN _ => 1
  | shortHello _ => 2
  | longHello .. => 2
  | neighbour .. => 3
  | data .. => 4
  | ack .. => 5
  | goaway .. => 6
  | warning .. => 7

/-- The value. -/
def value : Tlv → List UInt8
  | pad1 => []
  | padN length => List.replicate length.toNat 0
  | shortHello id => u64Bytes id
  | longHello sourceId destId => u64Bytes sourceId ++ u64Bytes destId
  | neighbour ip port => ip.toList ++ u16Bytes (swap16 port)
  | data id nonce type payload _ => u64Bytes id ++ u32Bytes nonce ++ type :: payload
  | ack id nonce => u64Bytes id ++ u32Bytes nonce
  | goaway code text _ => code :: text
  | warning text _ => text

/-- The parser calls a handler for everything but a Pad1. -/
def handled : Tlv → Bool
  | pad1 => false
  | _ => true

/-- The encoding. -/
def bytes : Tlv → List UInt8
  | pad1 => [0]
  | t => t.type :: UInt8.ofNat t.value.length :: t.value

theorem length_value_le (t : Tlv) : t.value.length ≤ 255 := by
  cases t with
  | padN length =>
    have hlt := length.toNat_lt
    simp only [value, List.length_replicate]
    omega
  | data id nonce type payload hpayload =>
    simp only [value, u64Bytes, u32Bytes, List.length_append, length_toLE, List.length_cons]
    omega
  | goaway code text htext =>
    simp only [value, List.length_cons]
    omega
  | warning text htext => exact htext
  | _ => simp [value, u64Bytes, u32Bytes, u16Bytes]

theorem toNat_length_value (t : Tlv) : (UInt8.ofNat t.value.length).toNat = t.value.length := by
  have hle := t.length_value_le
  simp only [UInt8.toNat_ofNat']
  omega

theorem type_ne_zero {t : Tlv} (h : t.handled = true) : t.type ≠ 0 := by
  cases t <;> simp_all [handled, type]

theorem type_lt_nbTlv (t : Tlv) : t.type.toNat < nbTlv := by
  cases t <;> simp [type, nbTlv]

theorem bytes_of_handled {t : Tlv} (h : t.handled = true) :
    t.bytes = t.type :: UInt8.ofNat t.value.length :: t.value := by
  cases t <;> first | rfl | simp [handled] at h

end Tlv

theorem length_neighbourTlv (ip : Vector UInt8 16) (port : UInt16) :
    (Tlv.neighbour ip port).bytes.length = 20 := by
  rw [Tlv.bytes_of_handled rfl]
  simp [Tlv.value, u16Bytes]

/-! ### The encoders -/

/-- The nonce that `tlv_data` draws. -/
def drawnNonce (w : World) : UInt32 := UInt32.ofNat (ofLE (value (randomOnOctets 4) w))

/-- The bytes of the drawn nonce are the bytes drawn. -/
theorem u32Bytes_drawnNonce (w : World) :
    u32Bytes (drawnNonce w) = value (randomOnOctets 4) w := by
  have hlen := length_randomOnOctets 4 w
  have hlt := ofLE_lt (value (randomOnOctets 4) w)
  rw [hlen] at hlt
  have hback := toLE_ofLE (value (randomOnOctets 4) w)
  rw [hlen] at hback
  have hnat : (drawnNonce w).toNat = ofLE (value (randomOnOctets 4) w) := by
    unfold drawnNonce
    rw [UInt32.toNat_ofNat']
    exact Nat.mod_eq_of_lt (by simpa using hlt)
  unfold u32Bytes
  rw [hnat, hback]

theorem tlvPad1_spec {body : Mem} {off bufsize : Nat}
    (hroom : 0 < (tlvPad1 body off bufsize).2) :
    (tlvPad1 body off bufsize).1 = write body off Tlv.pad1.bytes :=
  @Encoder.stored .pad1 body off bufsize (World.boot fun _ => 0) hroom

theorem tlvPadN_spec {body : Mem} {off bufsize : Nat} {length : UInt8}
    (hroom : 0 < (tlvPadN body off bufsize length).2) :
    (tlvPadN body off bufsize length).1 = write body off (Tlv.padN length).bytes := by
  have hbytes : (Tlv.padN length).bytes = 1 :: length :: List.replicate length.toNat 0 := by
    rw [Tlv.bytes_of_handled rfl]
    simp [Tlv.type, Tlv.value]
  rw [hbytes]
  exact @Encoder.stored (.padN length) body off bufsize (World.boot fun _ => 0) hroom

theorem tlvShortHello_spec {body : Mem} {off bufsize : Nat} {id : UInt64}
    (hroom : 0 < (tlvShortHello body off bufsize id).2) :
    (tlvShortHello body off bufsize id).1 = write body off (Tlv.shortHello id).bytes :=
  @Encoder.stored (.shortHello id) body off bufsize (World.boot fun _ => 0) hroom

theorem tlvLongHello_spec {body : Mem} {off bufsize : Nat} {sourceId destId : UInt64}
    (hroom : 0 < (tlvLongHello body off bufsize sourceId destId).2) :
    (tlvLongHello body off bufsize sourceId destId).1 =
      write body off (Tlv.longHello sourceId destId).bytes :=
  @Encoder.stored (.longHello sourceId destId) body off bufsize (World.boot fun _ => 0) hroom

theorem tlvNeighbour_spec {body : Mem} {off bufsize : Nat} {ngb : Neighbor}
    (hroom : 0 < (tlvNeighbour body off bufsize ngb).2) :
    (tlvNeighbour body off bufsize ngb).1 =
      write body off (Tlv.neighbour ngb.ip ngb.port).bytes := by
  have hlength : (Tlv.neighbour ngb.ip ngb.port).value.length = 18 := by
    simp [Tlv.value, u16Bytes]
  rw [Tlv.bytes_of_handled rfl, hlength]
  exact @Encoder.stored (.neighbour ngb) body off bufsize (World.boot fun _ => 0) hroom

theorem tlvData_spec {body : Mem} {off bufsize : Nat} {id : UInt64} {type : UInt8} {data : Mem}
    {msgSize : UInt8} {w : World} (hsize : msgSize.toNat ≤ 242)
    (hroom : 0 < (value (tlvData body off bufsize id type data msgSize) w).2) :
    (value (tlvData body off bufsize id type data msgSize) w).1 =
      write body off (Tlv.data id (drawnNonce w) type (Octets.read data 0 msgSize.toNat)
        (by rwa [length_read])).bytes := by
  have hlength : (u64Bytes id ++ u32Bytes (drawnNonce w) ++
      type :: Octets.read data 0 msgSize.toNat).length = 8 + 4 + 1 + msgSize.toNat := by
    simp only [u64Bytes, u32Bytes, List.length_append, length_toLE, List.length_cons, length_read]
    omega
  rw [Tlv.bytes_of_handled rfl, Tlv.value, hlength, u32Bytes_drawnNonce]
  exact @Encoder.stored (.data id type data msgSize) body off bufsize w hroom

theorem tlvAck_spec {body : Mem} {off bufsize : Nat} {id : UInt64} {nonce : UInt32}
    (hroom : 0 < (tlvAck body off bufsize id nonce).2) :
    (tlvAck body off bufsize id nonce).1 = write body off (Tlv.ack id nonce).bytes :=
  @Encoder.stored (.ack id nonce) body off bufsize (World.boot fun _ => 0) hroom

theorem tlvGoaway_spec {body : Mem} {off bufsize : Nat} {code : UInt8} {msg : Mem}
    {msgSize : UInt8} (hsize : msgSize.toNat ≤ 254)
    (hroom : 0 < (tlvGoaway body off bufsize code msg msgSize).2) :
    (tlvGoaway body off bufsize code msg msgSize).1 =
      write body off (Tlv.goaway code (Octets.read msg 0 msgSize.toNat)
        (by rwa [length_read])).bytes := by
  have hlength : (code :: Octets.read msg 0 msgSize.toNat).length = 1 + msgSize.toNat := by
    rw [List.length_cons, length_read, Nat.add_comm]
  rw [Tlv.bytes_of_handled rfl, Tlv.value, hlength]
  exact @Encoder.stored (.goaway code msg msgSize) body off bufsize (World.boot fun _ => 0) hroom

theorem tlvWarning_spec {body : Mem} {off bufsize : Nat} {msg : Mem} {msgSize : UInt8}
    (hroom : 0 < (tlvWarning body off bufsize msg msgSize).2) :
    (tlvWarning body off bufsize msg msgSize).1 =
      write body off (Tlv.warning (Octets.read msg 0 msgSize.toNat)
        (by rw [length_read]; exact Nat.le_of_lt_succ msgSize.toNat_lt)).bytes := by
  have hlength : UInt8.ofNat (Octets.read msg 0 msgSize.toNat).length = msgSize := by
    rw [length_read, UInt8.ofNat_toNat]
  rw [Tlv.bytes_of_handled rfl, Tlv.value, hlength]
  exact @Encoder.stored (.warning msg msgSize) body off bufsize (World.boot fun _ => 0) hroom

/-- `bs` is what an encoder writes for `t` when it finds room enough. -/
inductive Built : Tlv → List UInt8 → Prop
  | pad1 {body : Mem} {off bufsize : Nat} (hroom : 0 < (tlvPad1 body off bufsize).2) :
      Built .pad1 (Octets.read (tlvPad1 body off bufsize).1 off 1)
  | padN {body : Mem} {off bufsize : Nat} (length : UInt8)
      (hroom : 0 < (tlvPadN body off bufsize length).2) :
      Built (.padN length)
        (Octets.read (tlvPadN body off bufsize length).1 off (length.toNat + 2))
  | shortHello {body : Mem} {off bufsize : Nat} (id : UInt64)
      (hroom : 0 < (tlvShortHello body off bufsize id).2) :
      Built (.shortHello id) (Octets.read (tlvShortHello body off bufsize id).1 off 10)
  | longHello {body : Mem} {off bufsize : Nat} (sourceId destId : UInt64)
      (hroom : 0 < (tlvLongHello body off bufsize sourceId destId).2) :
      Built (.longHello sourceId destId)
        (Octets.read (tlvLongHello body off bufsize sourceId destId).1 off 18)
  | neighbour {body : Mem} {off bufsize : Nat} (ngb : Neighbor)
      (hroom : 0 < (tlvNeighbour body off bufsize ngb).2) :
      Built (.neighbour ngb.ip ngb.port)
        (Octets.read (tlvNeighbour body off bufsize ngb).1 off 20)
  | data {body : Mem} {off bufsize : Nat} (id : UInt64) (type : UInt8) (data : Mem)
      (msgSize : UInt8) (w : World) (hsize : msgSize.toNat ≤ 242)
      (hroom : 0 < (value (tlvData body off bufsize id type data msgSize) w).2) :
      Built (.data id (drawnNonce w) type (Octets.read data 0 msgSize.toNat)
          (by rwa [length_read]))
        (Octets.read (value (tlvData body off bufsize id type data msgSize) w).1 off
          (msgSize.toNat + 15))
  | ack {body : Mem} {off bufsize : Nat} (id : UInt64) (nonce : UInt32)
      (hroom : 0 < (tlvAck body off bufsize id nonce).2) :
      Built (.ack id nonce) (Octets.read (tlvAck body off bufsize id nonce).1 off 14)
  | goaway {body : Mem} {off bufsize : Nat} (code : UInt8) (msg : Mem) (msgSize : UInt8)
      (hsize : msgSize.toNat ≤ 254)
      (hroom : 0 < (tlvGoaway body off bufsize code msg msgSize).2) :
      Built (.goaway code (Octets.read msg 0 msgSize.toNat) (by rwa [length_read]))
        (Octets.read (tlvGoaway body off bufsize code msg msgSize).1 off (msgSize.toNat + 3))
  | warning {body : Mem} {off bufsize : Nat} (msg : Mem) (msgSize : UInt8)
      (hroom : 0 < (tlvWarning body off bufsize msg msgSize).2) :
      Built (.warning (Octets.read msg 0 msgSize.toNat)
          (by rw [length_read]; exact Nat.le_of_lt_succ msgSize.toNat_lt))
        (Octets.read (tlvWarning body off bufsize msg msgSize).1 off (msgSize.toNat + 2))

/-- What was stored reads back, whatever its length is called. -/
theorem read_write_eq (m : Mem) (off : Nat) {bs : List UInt8} {n : Nat} (hn : n = bs.length) :
    Octets.read (write m off bs) off n = bs := by
  rw [hn, read_write_self]

theorem Built.eq_bytes {t : Tlv} {bs : List UInt8} (h : Built t bs) : bs = t.bytes := by
  cases h with
  | pad1 hroom =>
    rw [tlvPad1_spec hroom]
    exact read_write_eq _ _ rfl
  | padN length hroom =>
    rw [tlvPadN_spec hroom]
    exact read_write_eq _ _ (by simp [Tlv.bytes, Tlv.value])
  | shortHello id hroom =>
    rw [tlvShortHello_spec hroom]
    exact read_write_eq _ _ (by simp [Tlv.bytes, Tlv.value, u64Bytes])
  | longHello sourceId destId hroom =>
    rw [tlvLongHello_spec hroom]
    exact read_write_eq _ _ (by simp [Tlv.bytes, Tlv.value, u64Bytes])
  | neighbour ngb hroom =>
    rw [tlvNeighbour_spec hroom]
    exact read_write_eq _ _ (by simp [Tlv.bytes, Tlv.value, u16Bytes])
  | data id type data msgSize w hsize hroom =>
    rw [tlvData_spec hsize hroom]
    exact read_write_eq _ _ (by simp [Tlv.bytes, Tlv.value, u64Bytes, u32Bytes]; omega)
  | ack id nonce hroom =>
    rw [tlvAck_spec hroom]
    exact read_write_eq _ _ (by simp [Tlv.bytes, Tlv.value, u64Bytes, u32Bytes])
  | goaway code msg msgSize hsize hroom =>
    rw [tlvGoaway_spec hsize hroom]
    exact read_write_eq _ _ (by simp [Tlv.bytes, Tlv.value])
  | warning msg msgSize hroom =>
    rw [tlvWarning_spec hroom]
    exact read_write_eq _ _ (by simp [Tlv.bytes, Tlv.value])

/-! ### The parser on encodings -/

/-- The type and the value of a TLV that is given to its handler. -/
def Obs.dispatched : Obs → Option (UInt8 × List UInt8)
  | .dispatch type _ value => some (type, value)
  | _ => none

theorem steps_of_end {body : Mem} {bodyLength pos : Nat} (h : bodyLength ≤ pos) (fuel : Nat) :
    steps body bodyLength fuel pos = [] := by
  cases fuel <;> simp only [steps, if_neg (Nat.not_lt.mpr h)]

/-- The step over an encoded TLV that has a handler. -/
theorem steps_of_tlv {body : Mem} {bodyLength fuel pos : Nat} {t : Tlv}
    (ht : t.handled = true) (hfits : pos + 2 + t.value.length ≤ bodyLength)
    (hread : Octets.read body pos (2 + t.value.length) = t.bytes) :
    steps body bodyLength (fuel + 1) pos =
      .look pos 1 :: .look (pos + 1) 1 ::
        .tlv t.type (UInt8.ofNat t.value.length) pos t.value ::
          steps body bodyLength fuel (pos + (t.value.length + 2)) := by
  rw [Tlv.bytes_of_handled ht, Nat.add_comm, read_succ, read_succ] at hread
  obtain ⟨htype, hread⟩ := List.cons.inj hread
  obtain ⟨hlength, hvalue⟩ := List.cons.inj hread
  have hnat := t.toNat_length_value
  have hcheck : ¬ ((t.value.length : Nat) : Int) > (bodyLength : Int) - pos := by omega
  rw [steps, if_pos (by omega), htype, if_neg (Tlv.type_ne_zero ht), hlength, hnat,
    if_neg hcheck, if_pos t.type_lt_nbTlv]
  rw [show pos + 1 + 1 = pos + 2 from rfl] at hvalue
  rw [hvalue]

/-- On a body of encodings every TLV but the Pad1s reaches its handler.  The
induction is on the TLVs that are left from `pos` on. -/
theorem dispatched_steps (body : Mem) (bodyLength fuel pos : Nat) (ts : List Tlv)
    (hfuel : bodyLength ≤ pos + fuel)
    (hread : Octets.read body pos (bodyLength - pos) = ts.flatMap Tlv.bytes) :
    ((steps body bodyLength fuel pos).flatMap Step.obs).filterMap Obs.dispatched =
      (ts.filter Tlv.handled).map fun t => (t.type, t.value) := by
  induction ts generalizing fuel pos with
  | nil =>
    have hlen := congrArg List.length hread
    rw [length_read, List.flatMap_nil, List.length_nil] at hlen
    rw [steps_of_end (by omega)]
    rfl
  | cons t ts ih =>
    have hlen := congrArg List.length hread
    rw [length_read, List.flatMap_cons, List.length_append] at hlen
    rw [List.flatMap_cons, read_eq_append_iff hlen] at hread
    obtain ⟨hfirst, hrest⟩ := hread
    have hpositive : 0 < t.bytes.length := by
      cases t <;> simp [Tlv.bytes]
    obtain ⟨fuel, rfl⟩ : ∃ k, fuel = k + 1 := ⟨fuel - 1, by omega⟩
    have hleft : bodyLength - (pos + t.bytes.length) = (ts.flatMap Tlv.bytes).length := by omega
    -- a Pad1 is stepped over, everything else is handed to its handler
    by_cases ht : t.handled = true
    · have hbytes : t.bytes.length = 2 + t.value.length := by
        rw [Tlv.bytes_of_handled ht, List.length_cons, List.length_cons]
        omega
      have ih := ih fuel (pos + t.bytes.length) (by omega) (by rw [hleft, hrest])
      rw [hbytes, show pos + (2 + t.value.length) = pos + (t.value.length + 2) by omega] at ih
      rw [steps_of_tlv ht (by omega) (by rw [← hbytes, hfirst]), List.filter_cons_of_pos ht,
        List.map_cons, ← ih]
      rfl
    · obtain rfl : t = .pad1 := by cases t <;> simp_all [Tlv.handled]
      have hzero : body pos = 0 := by
        have hfirst' : Octets.read body pos 1 = [0] := hfirst
        rw [read_succ, read_zero] at hfirst'
        exact (List.cons.inj hfirst').1
      have ih := ih fuel (pos + 1) (by simp [Tlv.bytes] at hlen hleft; omega) ?_
      · rw [steps, if_pos (by omega), if_pos hzero, List.filter_cons_of_neg ht, ← ih]
        rfl
      · have hone : Tlv.pad1.bytes.length = 1 := rfl
        rw [hone] at hleft hrest
        rw [hleft, hrest]

/-! ### What the TLVs mean -/

/-- The length byte. -/
def Tlv.length (t : Tlv) : UInt8 := UInt8.ofNat t.value.length

/-- A datum is filed under its index, for everybody who is symmetrical but the
neighbour it comes from. -/
def fileDatum (index : DataIndex) (msg : List UInt8) (size : Nat) (source : NeighborPtr) :
    Peer Unit := do
  note (.valueRead 0 8)
  note (.valueRead 8 4)
  match ← getSymmetrical (← get).neighbors with
  | none => pure ()
  | some symmetric =>
    let symmetric := (removeElem compareNS symmetric (ngbProbe source)).1
    note (.valueRead 0 size)
    let flood ← initFlood index msg symmetric
    let (dataf, _) ← addLimited malloc (← get).dataf flood nbdata
    modify fun w => { w with dataf := dataf }

/-- A text is displayed, with a line feed if it has none at its end. -/
def displayText (text : List UInt8) : Peer Unit := do
  note (.printf text.length)
  note (.puts rouge)
  note (.valueRead 13 text.length)
  note (.write .stdout text)
  note (.write .gui [0])
  note (.write .gui text)
  note (.valueRead (12 + text.length) 1)
  if text.getLast? ≠ some 10 then note (.write .stdout [10])
  note (.puts blanc)

/-- What is to be done about a TLV from `peer`, in the words of its encoder.  Which
bytes a handler looks at is noted as the handler notes it. -/
def Tlv.meaning (t : Tlv) (peer : Neighbor) : Peer Unit :=
  match t with
  | pad1 => pure ()
  | padN _ => pure ()
  | shortHello id => do
    let current ← getSeconds
    note (.valueRead 0 8)
    acceptHello { id := id, lastHello := current, lastHelloLong := 0 } peer
  | longHello sourceId destId => do
    let current ← getSeconds
    note (.valueRead 0 8)
    note (.valueRead 8 8)
    if destId = (← get).id then
      acceptHello { id := sourceId, lastHello := current, lastHelloLong := current } peer
  | neighbour ip port => do
    note (.valueRead 0 16)
    note (.valueRead 16 2)
    let key : Neighbor := { ip := ip, port := port, msg := none }
    match getIdent key (← get).neighbors with
    | some _ => pure ()
    | none =>
      let val : Ident := { id := 0, lastHello := ← getSeconds, lastHelloLong := 0 }
      let _ ← addPotential key val
  | data id nonce type payload hpayload => do
    note (.valueRead 0 8)
    note (.valueRead 8 4)
    sendAck ⟨id, nonce⟩ peer
    match ← getFlood ⟨id, nonce⟩ with
    | some _ =>
      let _ ← removeNeighborFromFlood ⟨id, nonce⟩ peer.ptr
    | none =>
      note (.count (payload.length + 13))
      fileDatum ⟨id, nonce⟩ (data id nonce type payload hpayload).bytes (payload.length + 13)
        peer.ptr
      note (.valueRead 12 1)
      if type = 0 then
        note (.count payload.length)
        displayText payload
  | ack id nonce => do
    note (.valueRead 0 8)
    note (.valueRead 8 4)
    let _ ← removeNeighborFromFlood ⟨id, nonce⟩ peer.ptr
  | goaway code text _ => do
    note (.valueRead 0 1)
    note (.printf code.toNat)
    note (.count text.length)
    note (.valueRead 1 text.length)
    note (.write .stdout text)
    let _ ← removeNeighborEverywhere peer.ptr
  | warning text _ => do
    note (.count text.length)
    note (.valueRead 0 text.length)
    note (.puts (text.takeWhile (· ≠ 0)))

/-- The parser comes to the TLV at `pos`, and `m` is done about it. -/
def Tlv.turn (t : Tlv) (pos : Nat) (m : Peer Unit) : Peer Unit := do
  note (.bodyRead pos 1)
  if t.handled then
    note (.bodyRead (pos + 1) 1)
    note (.bodyRead (pos + 2) t.value.length)
    note (.dispatch t.type pos t.value)
    m

/-- The parser goes through the TLVs, from `pos` on, and what each of them means is
done. -/
def readAll (rcpt : Neighbor) : List Tlv → Nat → Peer Unit
  | [], _ => pure ()
  | t :: rest, pos => do
    t.turn pos (t.meaning rcpt)
    readAll rcpt rest (pos + t.bytes.length)

/-- The codes of GoAways that a signed `char` can hold. -/
def Tlv.Plain : Tlv → Prop
  | .goaway code _ _ => code.toNat < 128
  | _ => True

/-! ### What the handlers extract -/

theorem toChar_eq_iff (b : UInt8) : toChar b = b.toNat ↔ b.toNat < 128 := by
  have hlt := b.toNat_lt
  unfold toChar
  rw [Int.bmod_def]
  omega

theorem toChar_eq_zero_iff (b : UInt8) : toChar b = 0 ↔ b = 0 := by
  have hlt := b.toNat_lt
  rw [← UInt8.toNat_inj]
  unfold toChar
  rw [Int.bmod_def, UInt8.toNat_zero]
  omega

/-- A field of a value is read back from the buffer. -/
theorem read_write_field (m : Mem) (before field later : List UInt8) {off n : Nat}
    (hoff : off = before.length) (hn : n = field.length) :
    Octets.read (write m 0 (before ++ field ++ later)) off n = field := by
  have hall := read_write_self m 0 (before ++ field ++ later)
  rw [read_eq_append_iff (List.length_append ..),
    read_eq_append_iff (List.length_append ..)] at hall
  rw [hoff, hn]
  simpa using hall.1.2

theorem u64At_write (m : Mem) (before later : List UInt8) (x : UInt64) {off : Nat}
    (hoff : off = before.length) :
    u64At (write m 0 (before ++ u64Bytes x ++ later)) off = x := by
  unfold u64At
  rw [read_write_field m before (u64Bytes x) later hoff (by simp [u64Bytes]), u64Bytes, ofLE_toLE]
  apply UInt64.toNat.inj
  have hlt := x.toNat_lt
  rw [UInt64.toNat_ofNat']
  omega

theorem u32At_write (m : Mem) (before later : List UInt8) (x : UInt32) {off : Nat}
    (hoff : off = before.length) :
    u32At (write m 0 (before ++ u32Bytes x ++ later)) off = x := by
  unfold u32At
  rw [read_write_field m before (u32Bytes x) later hoff (by simp [u32Bytes]), u32Bytes, ofLE_toLE]
  apply UInt32.toNat.inj
  have hlt := x.toNat_lt
  rw [UInt32.toNat_ofNat']
  omega

theorem u16At_write (m : Mem) (before later : List UInt8) (x : UInt16) {off : Nat}
    (hoff : off = before.length) :
    u16At (write m 0 (before ++ u16Bytes x ++ later)) off = x := by
  unfold u16At
  rw [read_write_field m before (u16Bytes x) later hoff (by simp [u16Bytes]), u16Bytes, ofLE_toLE]
  apply UInt16.toNat.inj
  have hlt := x.toNat_lt
  rw [UInt16.toNat_ofNat']
  omega

theorem indexAt_write (m : Mem) (id : UInt64) (nonce : UInt32) (later : List UInt8) :
    indexAt (write m 0 (u64Bytes id ++ u32Bytes nonce ++ later)) = ⟨id, nonce⟩ := by
  have hid := @u64At_write m [] (u32Bytes nonce ++ later) id 0 rfl
  have hnonce := @u32At_write m (u64Bytes id) later nonce 8 (by simp [u64Bytes])
  rw [List.nil_append, ← List.append_assoc] at hid
  unfold indexAt
  rw [hid, hnonce]

theorem keyAt_write (m : Mem) (ip : Vector UInt8 16) (port : UInt16) :
    keyAt (write m 0 (ip.toList ++ u16Bytes (swap16 port))) =
      { ip := ip, port := port, msg := none } := by
  have hport := @u16At_write m ip.toList [] (swap16 port) 16 (by simp)
  rw [List.append_nil] at hport
  have hip : (Vector.ofFn fun i : Fin 16 =>
      write m 0 (ip.toList ++ u16Bytes (swap16 port)) i) = ip := by
    apply Vector.ext
    intro i hi
    have hlen : i < (ip.toList ++ u16Bytes (swap16 port)).length := by
      rw [List.length_append, Vector.length_toList]
      omega
    have hget := @write_apply_add m 0 i _ hlen
    rw [Nat.zero_add] at hget
    rw [Vector.getElem_ofFn, hget, List.getElem_append_left (by simpa using hi)]
    simp
  unfold keyAt
  rw [hip, hport, swap16_swap16]

/-- The byte that a one-byte field is read back from. -/
theorem write_apply_field (m : Mem) (before later : List UInt8) (b : UInt8) {off : Nat}
    (hoff : off = before.length) : write m 0 (before ++ b :: later) off = b := by
  have hlen : off < (before ++ b :: later).length := by
    rw [List.length_append, List.length_cons]
    omega
  have hget := @write_apply_add m 0 off _ hlen
  rw [Nat.zero_add] at hget
  subst hoff
  rw [hget]
  simp

/-- The identifier of a short Hello. -/
theorem shortHello_fields (m : Mem) (id : UInt64) :
    (Tlv.shortHello id).length ≠ 16 ∧ u64At (write m 0 (Tlv.shortHello id).value) 0 = id := by
  have hid := @u64At_write m [] [] id 0 rfl
  rw [List.nil_append, List.append_nil] at hid
  refine ⟨?_, hid⟩
  simp [Tlv.length, Tlv.value, u64Bytes]

/-- Both identifiers of a long Hello. -/
theorem longHello_fields (m : Mem) (sourceId destId : UInt64) :
    (Tlv.longHello sourceId destId).length = 16 ∧
      u64At (write m 0 (Tlv.longHello sourceId destId).value) 0 = sourceId ∧
      u64At (write m 0 (Tlv.longHello sourceId destId).value) 8 = destId := by
  have hsource := @u64At_write m [] (u64Bytes destId) sourceId 0 rfl
  have hdest := @u64At_write m (u64Bytes sourceId) [] destId 8 (by simp [u64Bytes])
  rw [List.nil_append] at hsource
  rw [List.append_nil] at hdest
  refine ⟨?_, hsource, hdest⟩
  simp [Tlv.length, Tlv.value, u64Bytes]

/-- What `add_message_to_flood` files is the TLV that was encoded. -/
theorem addMessageToFlood_eq {msgSend : Mem} {index : DataIndex} {msg : List UInt8}
    {size : UInt8} {source : NeighborPtr} (hindex : indexAt msgSend = index)
    (hmsg : 4 :: size :: Octets.read msgSend 0 size.toNat = msg) :
    addMessageToFlood msgSend size (some source) = fileDatum index msg size.toNat source := by
  subst hindex hmsg
  rfl

/-- What `print_on_screen` displays is the payload, behind a type that is zero. -/
theorem printOnScreen_eq {tlv : Mem} {text : List UInt8} (htype : tlv 12 = 0)
    (htext : Octets.read tlv 13 text.length = text) (hsmall : text.length ≤ 242) :
    printOnScreen tlv 13 text.length = displayText text := by
  have hfits : ¬ text.length ≥ 2 ^ 63 := by omega
  have hpos : ¬ 13 + text.length = 0 := by omega
  have hoff : 13 + text.length - 1 = 12 + text.length := by omega
  have hlast : tlv (12 + text.length) ≠ 10 ↔ text.getLast? ≠ some 10 := by
    rcases List.eq_nil_or_concat text with rfl | ⟨front, b, rfl⟩
    · simp [htype]
    · have hlen : (front.concat b).length = front.length + 1 := by simp
      have hread := htext
      rw [hlen, List.concat_eq_append, read_eq_append_iff (by simp)] at hread
      have hb := (List.cons.inj hread.2).1
      rw [hlen, show 12 + (front.length + 1) = 13 + front.length by omega, hb]
      simp
  unfold printOnScreen displayText
  simp only [if_neg hfits, if_neg hpos, hoff, htext, hlast]

/-- **A handler does what the TLV means**, unless it is a GoAway with a code that a
signed `char` cannot hold. -/
theorem handleTlv_eq_meaning {t : Tlv} (ht : t.Plain) (m : Mem) (peer : Neighbor) :
    handleTlv t.type (write m 0 t.value) t.length peer = t.meaning peer := by
  have hnat : t.length.toNat = t.value.length := t.toNat_length_value
  cases t with
  | pad1 => rfl
  | padN length => rfl
  | shortHello id =>
    obtain ⟨hshort, hid⟩ := shortHello_fields m id
    show hello _ _ peer = _
    unfold hello Tlv.meaning
    simp only [if_neg hshort, hid]
  | longHello sourceId destId =>
    obtain ⟨hlong, hsource, hdest⟩ := longHello_fields m sourceId destId
    show hello _ _ peer = _
    unfold hello Tlv.meaning
    simp only [if_pos hlong, hsource, hdest]
  | neighbour ip port =>
    have hkey : keyAt (write m 0 (Tlv.neighbour ip port).value) = _ := keyAt_write m ip port
    show neighbour _ (Tlv.neighbour ip port).length peer = _
    unfold neighbour Tlv.meaning
    generalize keyAt _ = key at hkey ⊢
    subst hkey
    rfl
  | data id nonce type payload hpayload =>
    have hvalue : (Tlv.data id nonce type payload hpayload).value =
        u64Bytes id ++ u32Bytes nonce ++ type :: payload := rfl
    have hindex := indexAt_write m id nonce (type :: payload)
    have htype := @write_apply_field m (u64Bytes id ++ u32Bytes nonce) payload type 12
      (by simp [u64Bytes, u32Bytes])
    have hlength : (Tlv.data id nonce type payload hpayload).value.length =
        payload.length + 13 := by
      simp only [Tlv.value, u64Bytes, u32Bytes, List.length_append, length_toLE,
        List.length_cons]
      omega
    have htext := @read_write_field m (u64Bytes id ++ u32Bytes nonce ++ [type]) payload [] 13
      (payload.length) (by simp [u64Bytes, u32Bytes]) rfl
    rw [List.append_nil, List.append_assoc _ [type] payload, List.singleton_append] at htext
    have hwhole := read_write_self m 0 (Tlv.data id nonce type payload hpayload).value
    rw [← hnat] at hwhole
    have hmsg := Tlv.bytes_of_handled (t := .data id nonce type payload hpayload) rfl
    rw [hlength] at hnat
    have hzero : typeAt (write m 0 (u64Bytes id ++ u32Bytes nonce ++ type :: payload)) = 0 ↔
        type = 0 := by
      rw [typeAt, htype]
      exact toChar_eq_zero_iff type
    have hsize : toSize (((payload.length + 13 : Nat) : Int) - 13) = payload.length := by
      unfold toSize
      omega
    have hnew : newData (write m 0 (Tlv.data id nonce type payload hpayload).value)
        (Tlv.data id nonce type payload hpayload).length peer = (do
          note (.count (payload.length + 13))
          fileDatum ⟨id, nonce⟩ (Tlv.data id nonce type payload hpayload).bytes
            (payload.length + 13) peer.ptr
          note (.valueRead 12 1)
          if type = 0 then
            note (.count payload.length)
            displayText payload) := by
      have hfile : addMessageToFlood (write m 0 (Tlv.data id nonce type payload hpayload).value)
          (Tlv.data id nonce type payload hpayload).length (some peer.ptr) =
            fileDatum ⟨id, nonce⟩ (Tlv.data id nonce type payload hpayload).bytes
              (payload.length + 13) peer.ptr := by
        rw [← hnat]
        exact addMessageToFlood_eq hindex (by rw [hwhole, hmsg]; rfl)
      unfold newData
      rw [hfile, hnat]
      by_cases h0 : type = 0
      · have hshow := printOnScreen_eq (htype.trans h0) htext hpayload
        simp only [hvalue, hzero, if_pos h0, hsize, hshow]
        rw [show ((payload.length + 13 : Nat) : Int) - 13 = payload.length by omega]
        rfl
      · simp only [hvalue, hzero, if_neg h0]
        rfl
    show data _ _ peer = _
    unfold data Tlv.meaning
    rw [← hvalue] at hindex
    simp only [hnew]
    generalize indexAt _ = index at hindex ⊢
    subst hindex
    rfl
  | ack id nonce =>
    have hindex := indexAt_write m id nonce []
    rw [List.append_nil] at hindex
    show ack _ (Tlv.ack id nonce).length peer = _
    unfold ack Tlv.meaning
    simp only [Tlv.value, hindex]
  | goaway code text htext =>
    have hcode := @write_apply_field m [] text code 0 rfl
    have hread := @read_write_field m [code] text [] 1 text.length rfl rfl
    rw [List.append_nil, List.singleton_append] at hread
    rw [List.nil_append] at hcode
    have hprinted : codeAt (write m 0 (code :: text)) = code.toNat := by
      rw [codeAt, hcode]
      exact (toChar_eq_iff code).mpr ht
    have hlength : (Tlv.goaway code text htext).length.toNat = text.length + 1 := hnat
    have hne : (Tlv.goaway code text htext).length ≠ 0 := by
      intro h0
      rw [h0] at hlength
      exact absurd hlength (by simp)
    show goaway _ _ peer = _
    unfold goaway writeText Tlv.meaning
    simp only [Tlv.value, hprinted, hlength, if_neg hne, Nat.add_sub_cancel, hread, bind_assoc]
    rw [show ((text.length + 1 : Nat) : Int) - 1 = text.length by omega]
  | warning text htext =>
    have hread := read_write_self m 0 text
    show warning _ (Tlv.warning text htext).length peer = _
    unfold warning Tlv.meaning
    have hlen : (Tlv.warning text htext).length.toNat = text.length := hnat
    simp only [hlen, Tlv.value, hread]

/-! ### Messages -/

/-- A message with the given encodings as its body. -/
structure MessageH.Carries (msg : MessageH) (bss : List (List UInt8)) : Prop where
  magic : msg.magic = 93
  version : msg.version = 2
  bodyLength : msg.bodyLength = swap16 (UInt16.ofNat bss.flatten.length)
  body : Octets.read msg.body 0 bss.flatten.length = bss.flatten

/-- From `w` to `w'` a message with these TLVs from `rcpt` has been read.  Every TLV
but the Pad1s has been given to its handler, in order, once and with its value, and
what has been stored, sent, printed and displayed is what the TLVs mean, one after
another: what the arguments of the encoders say. -/
structure RoundTrip (ts : List Tlv) (rcpt : Neighbor) (w w' : World) : Prop where
  dispatched : (w.since w').filterMap Obs.dispatched =
    (ts.filter Tlv.handled).map fun t => (t.type, t.value)
  meant : w' = after (readAll rcpt ts 0) (after uninit w)

theorem flatten_of_built {ts : List Tlv} {bss : List (List UInt8)}
    (h : List.Forall₂ Built ts bss) : bss.flatten = ts.flatMap Tlv.bytes := by
  induction h with
  | nil => rfl
  | cons hbuilt _ ih => rw [List.flatten_cons, List.flatMap_cons, ih, hbuilt.eq_bytes]

theorem filterMap_dispatched_parsed (obs : List Obs) :
    (obs.filter Obs.ofParser).filterMap Obs.dispatched = obs.filterMap Obs.dispatched := by
  rw [List.filterMap_filter]
  congr 1
  funext o
  cases o <;> rfl

/-- The bytes of a body of TLVs: those of the first one, and those of the rest. -/
theorem read_cons {body : Mem} {bodyLength pos : Nat} {t : Tlv} {ts : List Tlv}
    (hread : Octets.read body pos (bodyLength - pos) = (t :: ts).flatMap Tlv.bytes) :
    pos + t.bytes.length ≤ bodyLength ∧
      Octets.read body pos t.bytes.length = t.bytes ∧
      Octets.read body (pos + t.bytes.length) (bodyLength - (pos + t.bytes.length)) =
        ts.flatMap Tlv.bytes := by
  have hlen := congrArg List.length hread
  rw [length_read, List.flatMap_cons, List.length_append] at hlen
  rw [List.flatMap_cons, read_eq_append_iff hlen] at hread
  have hpositive : 0 < t.bytes.length := by
    cases t <;> simp [Tlv.bytes]
  have hleft : bodyLength - (pos + t.bytes.length) = (ts.flatMap Tlv.bytes).length := by omega
  rw [hleft]
  exact ⟨by omega, hread⟩

/-- The walk over one TLV and what is behind it: its handler is called with a buffer
that starts with its value. -/
theorem perform_cons {body : Mem} {bodyLength fuel pos : Nat} {t : Tlv} {ts : List Tlv}
    (hread : Octets.read body pos (bodyLength - pos) = (t :: ts).flatMap Tlv.bytes)
    (rcpt : Neighbor) (tlv : Mem) : ∃ tlv',
    perform rcpt (steps body bodyLength (fuel + 1) pos) tlv = (do
      t.turn pos (handleTlv t.type (write tlv 0 t.value) t.length rcpt)
      perform rcpt (steps body bodyLength fuel (pos + t.bytes.length)) tlv') := by
  obtain ⟨hfits, hfirst, -⟩ := read_cons hread
  by_cases ht : t.handled = true
  · have hbytes : t.bytes.length = 2 + t.value.length := by
      rw [Tlv.bytes_of_handled ht, List.length_cons, List.length_cons]
      omega
    have hpos : pos + t.bytes.length = pos + (t.value.length + 2) := by omega
    refine ⟨write tlv 0 t.value, ?_⟩
    rw [steps_of_tlv ht (by omega) (by rw [← hbytes, hfirst]), hpos]
    unfold Tlv.turn
    simp only [perform, ht, if_true, t.toNat_length_value]
    rfl
  · obtain rfl : t = .pad1 := by cases t <;> simp_all [Tlv.handled]
    have hzero : body pos = 0 := by
      have hfirst' : Octets.read body pos 1 = [0] := hfirst
      rw [read_succ, read_zero] at hfirst'
      exact (List.cons.inj hfirst').1
    have hlt : pos < bodyLength := Nat.lt_of_succ_le hfits
    refine ⟨tlv, ?_⟩
    rw [steps, if_pos hlt, if_pos hzero]
    rfl

/-- Plain TLVs are read for what they mean. -/
theorem perform_eq_readAll {body : Mem} {bodyLength fuel pos : Nat} {ts : List Tlv}
    (hfuel : bodyLength ≤ pos + fuel)
    (hread : Octets.read body pos (bodyLength - pos) = ts.flatMap Tlv.bytes)
    (hplain : ∀ t ∈ ts, t.Plain) (rcpt : Neighbor) (tlv : Mem) :
    perform rcpt (steps body bodyLength fuel pos) tlv = readAll rcpt ts pos := by
  induction ts generalizing fuel pos tlv with
  | nil =>
    have hlen := congrArg List.length hread
    rw [length_read, List.flatMap_nil, List.length_nil] at hlen
    rw [steps_of_end (by omega)]
    rfl
  | cons t ts ih =>
    obtain ⟨hfits, -, hrest⟩ := read_cons hread
    have hpositive : 0 < t.bytes.length := by
      cases t <;> simp [Tlv.bytes]
    obtain ⟨fuel, rfl⟩ : ∃ k, fuel = k + 1 := ⟨fuel - 1, by omega⟩
    obtain ⟨tlv', hperform⟩ := @perform_cons body bodyLength fuel pos t ts hread rcpt tlv
    have hnext := @ih fuel (pos + t.bytes.length) (by omega) hrest
      (fun t' ht' => hplain t' (List.mem_cons_of_mem _ ht')) tlv'
    rw [hperform, readAll, hnext, handleTlv_eq_meaning (hplain t List.mem_cons_self)]

theorem handled_of_plain {t : Tlv} (ht : t.Plain) (peer : Neighbor) :
    Keeps Handled (t.meaning peer) := by
  rw [← handleTlv_eq_meaning ht fun _ => 0]
  exact handled_handleTlv _ _ _ _

/-- What a TLV means is done as a handler would do it. -/
theorem handled_meaning (t : Tlv) (peer : Neighbor) : Keeps Handled (t.meaning peer) := by
  cases t with
  | goaway code text htext =>
    refine Handled.bind (handled_note rfl) fun _ => ?_
    refine Handled.bind (handled_note rfl) fun _ => ?_
    refine Handled.bind (handled_note rfl) fun _ => ?_
    refine Handled.bind (handled_note rfl) fun _ => ?_
    refine Handled.bind (handled_note rfl) fun _ => ?_
    exact Handled.bind (Later.toHandled (later_removeNeighborEverywhere _))
      fun _ => Handled.pure _
  | pad1 => exact Handled.pure _
  | padN length => exact Handled.pure _
  | shortHello id => exact @handled_of_plain (.shortHello id) trivial peer
  | longHello sourceId destId => exact @handled_of_plain (.longHello sourceId destId) trivial peer
  | neighbour ip port => exact @handled_of_plain (.neighbour ip port) trivial peer
  | data id nonce type payload hpayload =>
    exact @handled_of_plain (.data id nonce type payload hpayload) trivial peer
  | ack id nonce => exact @handled_of_plain (.ack id nonce) trivial peer
  | warning text htext => exact @handled_of_plain (.warning text htext) trivial peer

/-- The notes of the parser, and then what is done. -/
theorem after_turn {t : Tlv} (ht : t.handled = true) (pos : Nat) (m : Peer Unit) (w : World) :
    after (t.turn pos m) w = after m (after (note (.dispatch t.type pos t.value))
      (after (note (.bodyRead (pos + 2) t.value.length))
        (after (note (.bodyRead (pos + 1) 1)) (after (note (.bodyRead pos 1)) w)))) := by
  unfold Tlv.turn
  rw [after_bind, if_pos ht]
  rfl

theorem elapsed_readAll (rcpt : Neighbor) (ts : List Tlv) (pos : Nat) :
    Keeps Elapsed (readAll rcpt ts pos) := by
  induction ts generalizing pos with
  | nil => exact Elapsed.refl
  | cons t ts ih =>
    intro w
    rw [readAll, after_bind]
    refine Elapsed.trans ?_ (ih _ _)
    by_cases ht : t.handled = true
    · rw [after_turn ht]
      exact ((((elapsed_note _ w).trans (elapsed_note _ _)).trans (elapsed_note _ _)).trans
        (elapsed_note _ _)).trans (handled_meaning t rcpt _).elapsed
    · unfold Tlv.turn
      rw [if_neg ht]
      exact elapsed_note _ w

/-- `goaway` begins with printing the code, as a `char`. -/
theorem log_goaway (tlv : Mem) (length : UInt8) (peer : Neighbor) (w : World) :
    w.log ++ [.valueRead 0 1, .printf (codeAt tlv)] <+: (after (goaway tlv length peer) w).log := by
  have hrest : Keeps Handled (writeText tlv length >>= fun _ =>
      removeNeighborEverywhere peer.ptr >>= fun _ => pure ()) :=
    Handled.bind ((prints_writeText _ _).mono fun _ _ h => h.toHandled) fun _ =>
      Handled.bind (Later.toHandled (later_removeNeighborEverywhere _))
        fun _ => Handled.pure _
  have hlog := (hrest
    (after (note (.printf (codeAt tlv))) (after (note (.valueRead 0 1)) w))).elapsed.log
  rw [show w.log ++ [.valueRead 0 1, .printf (codeAt tlv)] =
    w.log ++ [.valueRead 0 1] ++ [.printf (codeAt tlv)] by simp]
  exact hlog

/-- What the GoAway means begins with the code itself. -/
theorem log_meaning_goaway (code : UInt8) (text : List UInt8) (htext : text.length ≤ 254)
    (peer : Neighbor) (w : World) : w.log ++ [.valueRead 0 1, .printf code.toNat] <+:
      (after ((Tlv.goaway code text htext).meaning peer) w).log := by
  have hrest : Keeps Handled (note (.count text.length) >>= fun _ =>
      note (.valueRead 1 text.length) >>= fun _ => note (.write .stdout text) >>= fun _ =>
        removeNeighborEverywhere peer.ptr >>= fun _ => pure ()) :=
    Handled.bind (handled_note rfl) fun _ => Handled.bind (handled_note rfl) fun _ =>
      Handled.bind (handled_note rfl) fun _ =>
        Handled.bind (Later.toHandled (later_removeNeighborEverywhere _))
          fun _ => Handled.pure _
  have hlog := (hrest
    (after (note (.printf code.toNat)) (after (note (.valueRead 0 1)) w))).elapsed.log
  rw [show w.log ++ [.valueRead 0 1, .printf code.toNat] =
    w.log ++ [.valueRead 0 1] ++ [.printf code.toNat] by simp]
  exact hlog

/-- TLVs that are read for what they mean are plain.  The first that is not prints
another number. -/
theorem plain_of_perform {body : Mem} {bodyLength fuel pos : Nat} {ts : List Tlv}
    (hfuel : bodyLength ≤ pos + fuel)
    (hread : Octets.read body pos (bodyLength - pos) = ts.flatMap Tlv.bytes)
    (rcpt : Neighbor) (tlv : Mem) (w : World)
    (h : after (perform rcpt (steps body bodyLength fuel pos) tlv) w =
      after (readAll rcpt ts pos) w) : ∀ t ∈ ts, t.Plain := by
  induction ts generalizing fuel pos tlv w with
  | nil => exact nofun
  | cons t ts ih =>
    obtain ⟨hfits, -, hrest⟩ := read_cons hread
    have hpositive : 0 < t.bytes.length := by
      cases t <;> simp [Tlv.bytes]
    obtain ⟨fuel, rfl⟩ : ∃ k, fuel = k + 1 := ⟨fuel - 1, by omega⟩
    obtain ⟨tlv', hperform⟩ := @perform_cons body bodyLength fuel pos t ts hread rcpt tlv
    rw [hperform, readAll, after_bind, after_bind] at h
    have hplain : t.Plain := by
      cases t with
      | goaway code text htext =>
        rw [after_turn rfl, after_turn rfl] at h
        generalize after (note (.dispatch _ _ _)) _ = u at h
        -- both logs grow, from different numbers
        have hhandler := (log_goaway (write tlv 0 (code :: text))
          (Tlv.goaway code text htext).length rcpt u).trans (elapsed_perform rcpt
            (steps body bodyLength fuel (pos + (Tlv.goaway code text htext).bytes.length))
            tlv' _).log
        have hmeaning := (log_meaning_goaway code text htext rcpt u).trans
          (elapsed_readAll rcpt ts (pos + (Tlv.goaway code text htext).bytes.length) _).log
        have hsame : (after (perform rcpt _ tlv') (after (goaway (write tlv 0 (code :: text))
            (Tlv.goaway code text htext).length rcpt) u)).log = _ := congrArg World.log h
        rw [← hsame] at hmeaning
        have hlogs := (List.prefix_of_prefix_length_le hhandler hmeaning (by simp)).eq_of_length
          (by simp)
        have hprinted : codeAt (write tlv 0 (code :: text)) = code.toNat := by
          simpa using hlogs
        have hcode := @write_apply_field tlv [] text code 0 rfl
        rw [List.nil_append] at hcode
        rw [codeAt, hcode] at hprinted
        exact (toChar_eq_iff code).mp hprinted
      | _ => trivial
    rw [handleTlv_eq_meaning hplain] at h
    intro t' ht'
    rcases List.mem_cons.mp ht' with rfl | ht'
    · exact hplain
    · exact ih (by omega) hrest _ _ h t' ht'

/-- A message of encodings is read for what they mean exactly when the codes of its
GoAways fit a signed `char`. -/
theorem handleMessageH_roundTrip_iff {ts : List Tlv} {bss : List (List UInt8)}
    (hbuilt : List.Forall₂ Built ts bss) (hsize : bss.flatten.length ≤ maxSize)
    {msg : MessageH} (hmsg : msg.Carries bss) {n : Nat} (hn : bss.flatten.length + 4 ≤ n)
    (rcpt : Neighbor) (w : World) :
    RoundTrip ts rcpt w (after (handleMessageH msg n rcpt) w) ↔ ∀ t ∈ ts, t.Plain := by
  have hmax : maxSize = 4096 := rfl
  have hdeclared : msg.declared = bss.flatten.length := by
    unfold MessageH.declared
    rw [hmsg.bodyLength, swap16_swap16, UInt16.toNat_ofNat']
    omega
  have hacc : msg.Accepted n := ⟨by omega, hmsg.magic, hmsg.version, by omega⟩
  have hread : Octets.read msg.body 0 (msg.declared - 0) = ts.flatMap Tlv.bytes := by
    rw [Nat.sub_zero, hdeclared, hmsg.body, flatten_of_built hbuilt]
  have hdispatched : (w.since (after (handleMessageH msg n rcpt) w)).filterMap Obs.dispatched =
      (ts.filter Tlv.handled).map fun t => (t.type, t.value) := by
    rw [← filterMap_dispatched_parsed, parsed_handleMessageH, if_pos hacc]
    exact dispatched_steps msg.body msg.declared msg.declared 0 ts (by omega) hread
  have hwalk : after (handleMessageH msg n rcpt) w =
      after (perform rcpt msg.way w.memory.head) (after uninit w) := by
    rw [handleMessageH_eq, if_pos hacc, after_bind]
    rfl
  constructor
  · intro h
    have hmeant := h.meant
    rw [hwalk] at hmeant
    exact plain_of_perform (by omega) hread rcpt _ _ hmeant
  · intro h
    refine ⟨hdispatched, ?_⟩
    rw [hwalk]
    exact congrArg (after · (after uninit w))
      (perform_eq_readAll (by omega) hread h rcpt w.memory.head)

/-- A Pad1 and the GoAway of an inactive neighbour, without its text. -/
theorem handleMessageH_roundTrip_goaway :
    RoundTrip [.pad1, .goaway 2 [] (by decide)] (sockaddr6ToNeighbor ⟨.replicate 16 0, 0⟩)
      (World.boot fun _ => 0)
      (after (handleMessageH (.ofMem (ofBytes [93, 2, 0, 4, 0, 6, 1, 2])) 8
        (sockaddr6ToNeighbor ⟨.replicate 16 0, 0⟩)) (World.boot fun _ => 0)) := by
  have hpad : Built .pad1 [0] := @Built.pad1 (fun _ => 0) 0 1 (by decide)
  have hgoaway : Built (.goaway 2 [] (by decide)) [6, 1, 2] :=
    @Built.goaway (fun _ => 0) 0 10 2 (fun _ => 0) 0 (by decide) (by decide)
  refine (handleMessageH_roundTrip_iff (.cons hpad (.cons hgoaway .nil)) (by decide)
    ⟨by decide, by decide, by decide, by decide⟩ (by decide) _ _).mpr ?_
  intro t ht
  simp only [List.mem_cons, List.not_mem_nil, or_false] at ht
  rcases ht with rfl | rfl
  · trivial
  · show (2 : UInt8).toNat < 128
    decide

/-- A GoAway with the code 200: `goaway` prints -56. -/
theorem handleMessageH_goaway_200 :
    Built (.goaway 200 [] (by decide)) [6, 1, 200] ∧
    (MessageH.ofMem (ofBytes [93, 2, 0, 3, 6, 1, 200])).Carries [[6, 1, 200]] ∧
    ¬ RoundTrip [.goaway 200 [] (by decide)] (sockaddr6ToNeighbor ⟨.replicate 16 0, 0⟩)
      (World.boot fun _ => 0)
      (after (handleMessageH (.ofMem (ofBytes [93, 2, 0, 3, 6, 1, 200])) 7
        (sockaddr6ToNeighbor ⟨.replicate 16 0, 0⟩)) (World.boot fun _ => 0)) := by
  refine ⟨?_, ⟨by decide, by decide, by decide, by decide⟩, fun h => ?_⟩
  · exact @Built.goaway (fun _ => 0) 0 10 200 (fun _ => 0) 0 (by decide) (by decide)
  · have hprinted := congrArg (fun w => Obs.printf (-56) ∈ w.log) h.meant
    exact absurd hprinted (by decide +kernel)

end FloodPeer
