/-
FloodPeer/Delivery.lean

What `send_message` does to the message gathered for a neighbour.

A gathered message is a `Box`: its header is that of the protocol and its body
leaves room for the header in a datagram.  `MessageH.put` is the store at the
end of `send_message`; `sendMessage_append` and `sendMessage_flush` are its two
branches for a neighbour with a message, and `flushNeighbor_some` is the flush
at the end of a turn of the main loop.
-/
import FloodPeer.RoundTrip
import FloodPeer.Order

namespace FloodPeer

open Octets StateLogic

/-! ### Messages -/

/-- The datagram with a given body. -/
def datagram (body : List UInt8) : List UInt8 :=
  93 :: 2 :: toLE 2 (swap16 (UInt16.ofNat body.length)).toNat ++ body

/-- A message that is being gathered. -/
structure MessageH.Box (m : MessageH) : Prop where
  magic : m.magic = 93
  version : m.version = 2
  room : m.declared ≤ pmtu - 4

/-- `bytes` behind the first `actSize` bytes of the body, and nothing else. -/
def MessageH.put (m : MessageH) (actSize : Nat) (bytes : List UInt8) : MessageH :=
  { m with
    body := write m.body actSize bytes
    bodyLength := swap16 (UInt16.ofNat (actSize + bytes.length)) }

theorem pmtu_eq : pmtu = 1232 := rfl

theorem maxSize_eq : maxSize = 4096 := rfl

@[simp] theorem length_content (m : MessageH) : m.content.length = m.declared :=
  length_read _ _ _

theorem declared_put (m : MessageH) {actSize : Nat} {bytes : List UInt8}
    (h : actSize + bytes.length < 65536) :
    (m.put actSize bytes).declared = actSize + bytes.length := by
  unfold MessageH.declared MessageH.put
  rw [swap16_swap16, UInt16.toNat_ofNat']
  omega

theorem declared_eq_zero_iff (m : MessageH) : m.declared = 0 ↔ m.bodyLength = 0 := by
  rw [← swap16_eq_zero_iff]
  exact ⟨fun h => UInt16.toNat.inj h, fun h => congrArg UInt16.toNat h⟩

theorem content_put (m : MessageH) {actSize : Nat} {bytes : List UInt8}
    (h : actSize + bytes.length < 65536) :
    (m.put actSize bytes).content = Octets.read m.body 0 actSize ++ bytes := by
  unfold MessageH.content
  rw [declared_put m h]
  exact read_write_append _ _ _

/-- Behind the whole body, `put` appends. -/
theorem content_put_append (m : MessageH) {bytes : List UInt8}
    (h : m.declared + bytes.length < 65536) :
    (m.put m.declared bytes).content = m.content ++ bytes := content_put m h

/-- At the beginning, `put` replaces the body. -/
theorem content_put_zero (m : MessageH) {bytes : List UInt8} (h : bytes.length < 65536) :
    (m.put 0 bytes).content = bytes := by
  rw [content_put m (by omega), read_zero, List.nil_append]

theorem MessageH.Box.put {m : MessageH} (hm : m.Box) {actSize : Nat} {bytes : List UInt8}
    (h : actSize + bytes.length ≤ pmtu - 4) : (m.put actSize bytes).Box := by
  have hp := pmtu_eq
  exact ⟨hm.magic, hm.version, by rw [declared_put m (by omega)]; exact h⟩

/-- The bytes of a whole message with the header of the protocol. -/
theorem bytes_eq_datagram {m : MessageH} (hmagic : m.magic = 93) (hversion : m.version = 2) :
    m.bytes (m.declared + 4) = datagram m.content := by
  have hlength : swap16 (UInt16.ofNat m.content.length) = m.bodyLength := by
    rw [length_content, MessageH.declared, UInt16.ofNat_toNat, swap16_swap16]
  unfold MessageH.bytes datagram
  rw [hlength, hmagic, hversion, Nat.add_sub_cancel]
  refine List.take_of_length_le ?_
  simp only [List.length_append, List.length_cons, length_toLE, length_read]
  omega

theorem length_datagram (body : List UInt8) : (datagram body).length = body.length + 4 := by
  simp only [datagram, List.length_append, List.length_cons, length_toLE]
  omega

@[simp] theorem drop_datagram (body : List UInt8) : (datagram body).drop 4 = body := rfl

theorem declared_messageOf (body : Mem) {size : Nat} (h : size < 65536) :
    (messageOf body size).declared = size := by
  unfold MessageH.declared messageOf toU16
  rw [swap16_swap16, UInt16.toNat_ofNat']
  omega

theorem content_messageOf (body : Mem) {size : Nat} (h : size < 65536) :
    (messageOf body size).content = Octets.read body 0 size := by
  unfold MessageH.content
  rw [declared_messageOf body h]
  rfl

/-- A message on the stack, sent as a whole. -/
theorem bytes_messageOf (body : Mem) {size : Nat} (h : size < 65536) :
    (messageOf body size).bytes (size + 4) = datagram (Octets.read body 0 size) := by
  have hdatagram := @bytes_eq_datagram (messageOf body size) rfl rfl
  rwa [declared_messageOf body h, content_messageOf body h] at hdatagram

/-! ### Addresses -/

/-- Different neighbours have different addresses on the wire. -/
theorem neighborToSockaddr6_eq_iff {key1 key2 : Neighbor} :
    neighborToSockaddr6 key1 = neighborToSockaddr6 key2 ↔ key1.place = key2.place := by
  unfold neighborToSockaddr6
  rw [place_eq_iff, Sockaddr.mk.injEq]
  refine and_congr_right fun _ => ⟨fun h => ?_, fun h => by rw [h]⟩
  rw [← swap16_swap16 key1.port, h, swap16_swap16]

theorem sockaddr6ToNeighbor_msg (client : Sockaddr) : (sockaddr6ToNeighbor client).msg = none := rfl

/-! ### One neighbour -/

section SendMessage

variable {buf : MessageH} {taille : Nat} {rcpt : Neighbor} {w : World}

theorem sendMessage_direct (hmsg : rcpt.msg = none) :
    after (sendMessage buf taille rcpt) w = after (sendMessageNow buf taille rcpt) w := by
  unfold sendMessage
  rw [hmsg]
  rfl

variable {a : Nat} {m : MessageH}

theorem after_gather_of_room {actSize : Nat} {bytes : List UInt8}
    (h : actSize + bytes.length ≤ maxSize) :
    after (gather a m actSize bytes) w = after (putMsg a (m.put actSize bytes)) w := by
  unfold gather
  simp only [if_neg (Nat.not_lt.mpr h)]
  rfl

/-- There is room: the body is appended. -/
theorem sendMessage_append (hmsg : rcpt.msg = some a) (hbox : w.msgs a = some m)
    (hroom : m.declared + buf.declared ≤ pmtu - 4) :
    after (sendMessage buf taille rcpt) w =
      { w with
        msgs := fun b => if b = a then some (m.put m.declared buf.content) else w.msgs b
        log := w.log ++ [.queued a buf.content] } := by
  have hp := pmtu_eq
  have hx := maxSize_eq
  have hdecl : (swap16 m.bodyLength).toNat = m.declared := rfl
  have hdecl' : (swap16 buf.bodyLength).toNat = buf.declared := rfl
  have hcont : Octets.read buf.body 0 buf.declared = buf.content := rfl
  have hnot : ¬ m.declared + buf.declared + 4 > pmtu := by omega
  unfold sendMessage makeRoom
  rw [hmsg]
  simp only [after_bind, value_get, after_get, hbox, after_pure, hdecl, hdecl', hcont,
    if_neg hnot, value_pure]
  rw [after_gather_of_room (by rw [length_content]; omega)]
  rfl

/-- There is none: what is pending is sent, and the body starts a new one. -/
theorem sendMessage_flush (hmsg : rcpt.msg = some a) (hbox : w.msgs a = some m)
    (hfull : m.declared + buf.declared > pmtu - 4) (hbuf : buf.declared ≤ pmtu - 4) :
    after (sendMessage buf taille rcpt) w =
      { w with
        msgs := fun b => if b = a then some (m.put 0 buf.content) else w.msgs b
        sendtos := w.sendtos.tail
        log := w.log ++ [.queued a buf.content,
          .sendto (neighborToSockaddr6 rcpt) (m.bytes (m.declared + 4))] } := by
  have hp := pmtu_eq
  have hx := maxSize_eq
  have hdecl : (swap16 m.bodyLength).toNat = m.declared := rfl
  have hdecl' : (swap16 buf.bodyLength).toNat = buf.declared := rfl
  have hcont : Octets.read buf.body 0 buf.declared = buf.content := rfl
  have hgt : m.declared + buf.declared + 4 > pmtu := by omega
  unfold sendMessage makeRoom
  rw [hmsg]
  simp only [after_bind, value_bind, value_get, after_get, hbox, after_pure, hdecl, hdecl', hcont,
    if_pos hgt, value_pure]
  rw [after_gather_of_room (by rw [length_content]; omega)]
  simp [sendMessageNow]

end SendMessage

/-- The flush of a record with an empty body does nothing. -/
theorem flushNeighbor_empty {key : Neighbor} {a : Nat} {m : MessageH} {w : World}
    (hmsg : key.msg = some a) (hbox : w.msgs a = some m) (hempty : m.declared = 0) :
    after (flushNeighbor key) w = w := by
  have hzero : m.bodyLength = 0 := (declared_eq_zero_iff m).mp hempty
  unfold flushNeighbor
  rw [hmsg]
  simp only [after_bind, value_get, after_get, hbox, hzero]
  rfl

/-- The flush of a record with a body sends it and leaves it empty. -/
theorem flushNeighbor_some {key : Neighbor} {a : Nat} {m : MessageH} {w : World}
    (hmsg : key.msg = some a) (hbox : w.msgs a = some m) (hsome : m.declared ≠ 0) :
    after (flushNeighbor key) w =
      { w with
        msgs := fun b => if b = a then some { m with bodyLength := 0 } else w.msgs b
        sendtos := w.sendtos.tail
        log := w.log ++ [.sendto (neighborToSockaddr6 key) (m.bytes (m.declared + 4))] } := by
  have hne : m.bodyLength ≠ 0 := fun hzero => hsome ((declared_eq_zero_iff m).mpr hzero)
  unfold flushNeighbor
  rw [hmsg]
  simp only [after_bind, value_get, after_get, hbox, if_pos hne, after_pure]
  rfl

end FloodPeer
