/-
FloodPeer/Disconnect.lean

The end of the process: `disconnect` in `util.c`, the handler of `SIGINT`.

A GoAway goes to every neighbour behind all that is waiting for it, and nothing
is left in the process (`Departs`).  A receiver that can follow what was waiting
comes to the GoAway and forgets the sender (`forgets_of_framed`).  The signal is
taken between two moves, as when `select` is interrupted.
-/
import FloodPeer.Farewell
import FloodPeer.Batching
import FloodPeer.Network
import FloodPeer.Recipients

namespace FloodPeer

open Octets StateLogic Runs

/-! ### `disconnect` -/

/-- The text of `disconnect`. -/
def disconnectText : List UInt8 :=
  [66, 111, 110, 32, 106, 39, 109, 101, 32, 99, 97, 115, 115, 101, 32, 99, 105, 97, 111, 33]

/-- `disconnect`.  The result is the argument of `exit`. -/
def disconnect (sig : Int) : Peer Int := do
  let (body, size) := tlvGoaway (← uninit) 0 (pmtu - 4) 1 (ofBytes disconnectText) 20
  let _ ← sendToEveryone (messageOf body size) (toSize (size + 4)) (← get).neighbors
  let _ ← sendToEveryoneNow (← get).neighbors
  return sig

/-- The GoAway of `disconnect`. -/
def leaving : Tlv := .goaway 1 disconnectText (by decide)

/-- Its message. -/
def disconnectMessage (mem : Mem) : MessageH :=
  messageOf (tlvGoaway mem 0 (pmtu - 4) 1 (ofBytes disconnectText) 20).1 23

theorem length_leaving : leaving.bytes.length = 23 := rfl

theorem declared_disconnectMessage (mem : Mem) : (disconnectMessage mem).declared = 23 :=
  declared_messageOf _ (by decide)

theorem content_disconnectMessage (mem : Mem) :
    (disconnectMessage mem).content = leaving.bytes := by
  have hread := (@Built.goaway mem 0 (pmtu - 4) 1 (ofBytes disconnectText) 20 (by decide)
    (show (0 : Int) < 23 by decide)).eq_bytes
  exact (content_messageOf _ (by decide)).trans hread

theorem after_disconnect (sig : Int) (w : World) : after (disconnect sig) w =
    after (sendToEveryoneNow w.neighbors)
      (after (sendToEveryone (disconnectMessage w.memory.head) 27 w.neighbors)
        (after uninit w)) := by
  have hneighbors : (after (sendToEveryone (disconnectMessage w.memory.head) 27 w.neighbors)
      (after uninit w)).neighbors = w.neighbors :=
    (sends_sendToEveryone _ _ _ _).neighbors
  show after (sendToEveryoneNow (after (sendToEveryone (disconnectMessage w.memory.head) 27
    w.neighbors) (after uninit w)).neighbors) _ = _
  rw [hneighbors]
  rfl

/-! ### What the neighbours are sent -/

/-- The datagrams for a neighbour with these bytes waiting: one, when there is
room for the GoAway. -/
def farewells (pend : List UInt8) : List (List UInt8) :=
  if pend.length + leaving.bytes.length ≤ pmtu - 4 then [datagram (pend ++ leaving.bytes)]
  else [datagram pend, datagram leaving.bytes]

/-- What `disconnect` leaves of the neighbour `k`. -/
structure Departs (k : NeighborPtr) (w w' : World) : Prop where
  sent : sentTo (neighborToSockaddr6 k.toNeighbor) (w.since w') =
    farewells (w.pending k.toNeighbor)
  pending : w'.pending k.toNeighbor = []

/-- The batches of a record that has `pend` waiting. -/
theorem batches_leaving (pend : List UInt8) :
    ((Batcher.flush List.length (Batcher.push List.length (pmtu - 4)
      { closed := [], pending := [pend] } leaving.bytes)).closed.map fun l =>
        datagram l.flatten) = farewells pend ∧
    (Batcher.flush List.length (Batcher.push List.length (pmtu - 4)
      { closed := [], pending := [pend] } leaving.bytes)).pending = [] := by
  have hleaving := length_leaving
  unfold Batcher.push farewells
  rw [Batcher.total_singleton]
  by_cases hroom : pend.length + leaving.bytes.length ≤ pmtu - 4
  · have hsome : Batcher.total List.length ([pend] ++ [leaving.bytes]) ≠ 0 := by
      rw [Batcher.total_append, Batcher.total_singleton, Batcher.total_singleton]
      omega
    rw [if_neg (Nat.not_lt.mpr hroom), if_pos hroom]
    unfold Batcher.flush
    rw [if_neg hsome]
    simp
  · have hsome : Batcher.total List.length [leaving.bytes] ≠ 0 := by
      rw [Batcher.total_singleton]
      omega
    rw [if_pos (Nat.lt_of_not_le hroom), if_neg hroom]
    unfold Batcher.flush
    rw [if_neg hsome]
    simp

theorem departs_disconnect {w : World} (hw : w.Sound) {k : NeighborPtr}
    (hown : w.neighbors.owns k) {a : Nat} (hk : k.msg = some a) (sig : Int) :
    Departs k w (after (disconnect sig) w) := by
  have hdeclared : (disconnectMessage w.memory.head).declared ≤ pmtu - 4 := by
    rw [declared_disconnectMessage]
    decide
  -- the record is a batcher that holds what is waiting
  have hstart : Holds k a w (after uninit w)
      { closed := [], pending := [w.pending k.toNeighbor] } :=
    (serves_nil hw hown hk).holds.aside (hw.of_boxes (quiet_uninit w).idle.boxes) hown rfl rfl
      ⟨[], (List.append_nil _).symm, rfl⟩
  have hall := (hstart.sendToEveryone hk hdeclared 27).sendToEveryoneNow hk
  have hneighbors : (after (sendToEveryone (disconnectMessage w.memory.head) 27 w.neighbors)
      (after uninit w)).neighbors = w.neighbors :=
    (sends_sendToEveryone _ _ _ _).neighbors
  rw [content_disconnectMessage] at hall
  rw [show (after uninit w).neighbors = w.neighbors from rfl, hneighbors,
    ← after_disconnect sig w] at hall
  obtain ⟨hclosed, hnone⟩ := batches_leaving (w.pending k.toNeighbor)
  obtain ⟨ext, hlog, hsent⟩ := hall.sent
  obtain ⟨m, hm, hcontent⟩ := hall.pending
  constructor
  · rw [since_eq hlog, hsent, hclosed]
  · rw [pending_of_content hk hm, hcontent, hnone]
    rfl

/-- Only neighbours are sent anything. -/
theorem hands_disconnect (sig : Int) (w : World) :
    Hands w.neighbors.addresses w (after (disconnect sig) w) := by
  rw [after_disconnect]
  exact (primitive_hands _).trans ((primitive_hands _).onUninit w) ((primitive_hands _).trans
    (hands_sendToEveryone _ _ _ _) (hands_sendToEveryoneNow _ _))

/-! ### What a receiver makes of it -/

/-- Whole TLVs that are no Pad1, with or without a handler. -/
inductive Framed : List UInt8 → Prop
  | nil : Framed []
  | cons {type : UInt8} {value rest : List UInt8} (htype : type ≠ 0)
      (hvalue : value.length ≤ 255) (hrest : Framed rest) :
      Framed (type :: UInt8.ofNat value.length :: (value ++ rest))

/-- The parser comes to the end of whole TLVs, whatever is behind them. -/
theorem steps_of_framed {p : List UInt8} (hp : Framed p) {body : Mem} {bodyLength pos fuel : Nat}
    (hfuel : bodyLength ≤ pos + fuel) (hlength : pos + p.length ≤ bodyLength)
    (hread : Octets.read body pos p.length = p) :
    ∃ before fuel', steps body bodyLength fuel pos =
        before ++ steps body bodyLength fuel' (pos + p.length) ∧
      bodyLength ≤ pos + p.length + fuel' := by
  induction hp generalizing pos fuel with
  | nil => exact ⟨[], fuel, rfl, hfuel⟩
  | @cons type value rest htype hvalue hrest ih =>
    simp only [List.length_cons, List.length_append] at hlength hread ⊢
    cases fuel with
    | zero => omega
    | succ fuel =>
      rw [read_succ, read_succ] at hread
      obtain ⟨hbody, hread⟩ := List.cons.inj hread
      obtain ⟨hsize, hread⟩ := List.cons.inj hread
      have hnat : (UInt8.ofNat value.length).toNat = value.length := by
        rw [UInt8.toNat_ofNat']
        omega
      obtain ⟨-, hread⟩ := (read_eq_append_iff rfl).mp hread
      obtain ⟨before, fuel', hsteps, hfuel'⟩ :=
        @ih (pos + (value.length + 2)) fuel (by omega) (by omega) (by
          refine Eq.trans ?_ hread
          congr 1
          omega)
      have hend : pos + (value.length + 2) + rest.length =
          pos + (value.length + rest.length + 1 + 1) := by omega
      have hfits : ¬ ((value.length : Nat) : Int) > (bodyLength : Int) - pos := by omega
      rw [steps, if_pos (by omega), hbody, if_neg htype, hsize, hnat, if_neg hfits, hsteps, hend]
      rw [hend] at hfuel'
      by_cases hknown : type.toNat < nbTlv
      · rw [if_pos hknown]
        exact ⟨_ :: _ :: _ :: before, fuel', rfl, hfuel'⟩
      · rw [if_neg hknown]
        exact ⟨_ :: _ :: before, fuel', rfl, hfuel'⟩

/-- A datagram in the receive buffer is accepted. -/
theorem accepted_datagram (mem : Mem) {body : List UInt8} (hsize : body.length ≤ maxSize) :
    (MessageH.ofMem (write mem 0 (datagram body))).Accepted (body.length + 4) ∧
      (MessageH.ofMem (write mem 0 (datagram body))).content = body := by
  have hmax : maxSize = 4096 := rfl
  have hcontent : (MessageH.ofMem (write mem 0 (datagram body))).content = body :=
    content_of_datagram (read_write_self _ _ _) (by omega)
  have hdeclared := congrArg List.length hcontent
  rw [length_content] at hdeclared
  exact ⟨⟨Nat.le_add_left _ _, rfl, rfl, by omega⟩, hcontent⟩

/-- What is received is walked through. -/
theorem after_receive_datagram {body : List UInt8} (hsize : body.length ≤ maxSize) (m : MainState)
    (client : Sockaddr) (w : World) :
    ∃ msg : MessageH, msg.declared = body.length ∧ Octets.read msg.body 0 body.length = body ∧
      after (receive m (.datagram (datagram body) client)) w =
        after (perform (sockaddr6ToNeighbor client) msg.way w.memory.head) (after uninit w) := by
  have hmax : maxSize = 4096 := rfl
  have hlength := length_datagram body
  have hall : (datagram body).take sizeofMessage = datagram body := List.take_of_length_le (by
    show _ ≤ 4 + maxSize
    omega)
  obtain ⟨hacc, hcontent⟩ := accepted_datagram m.msg hsize
  have hreceive : after (receive m (.datagram (datagram body) client)) w =
      after (handleMessageH (.ofMem (write m.msg 0 (datagram body))) (body.length + 4)
        (sockaddr6ToNeighbor client)) w := by
    show after (handleMessageH (.ofMem (write m.msg 0 ((datagram body).take sizeofMessage)))
      (toSize (((datagram body).take sizeofMessage).length : Nat)) _) w = _
    rw [hall, toSize_of_nonneg (Int.natCast_nonneg _) (by omega), Int.toNat_natCast, hlength]
  have hdeclared := congrArg List.length hcontent
  rw [length_content] at hdeclared
  refine ⟨_, hdeclared, ?_, ?_⟩
  · rw [← hdeclared]
    exact hcontent
  · rw [hreceive, handleMessageH_eq, if_pos hacc]
    rfl

/-- Behind whole TLVs the last one comes to its handler. -/
theorem after_receive_framed {p : List UInt8} (hp : Framed p) {t : Tlv} (ht : t.handled = true)
    (hsize : (p ++ t.bytes).length ≤ maxSize) (m : MainState) (client : Sockaddr) (w : World) :
    ∃ u mem, Plays anyTlv w u ∧
      after (receive m (.datagram (datagram (p ++ t.bytes)) client)) w =
        after (handleTlv t.type (write mem 0 t.value) (UInt8.ofNat t.value.length)
          (sockaddr6ToNeighbor client)) u := by
  obtain ⟨msg, hdeclared, hread, hreceive⟩ := after_receive_datagram hsize m client w
  rw [List.length_append] at hdeclared hread
  obtain ⟨hfront, hback⟩ := (read_eq_append_iff rfl).mp hread
  have hbytes : t.bytes.length = 2 + t.value.length := by
    rw [Tlv.bytes_of_handled ht, List.length_cons, List.length_cons]
    omega
  obtain ⟨before, fuel, hsteps, hfuel⟩ := @steps_of_framed p hp msg.body msg.declared 0
    msg.declared (by omega) (by omega) hfront
  rw [Nat.zero_add] at hsteps hfuel hback
  have hway : msg.way = before ++ [.look p.length 1, .look (p.length + 1) 1,
      .tlv t.type (UInt8.ofNat t.value.length) p.length t.value] := by
    unfold MessageH.way
    cases fuel with
    | zero => omega
    | succ fuel =>
      rw [hbytes] at hback
      rw [hsteps, steps_of_tlv ht (by omega) hback, steps_of_end (by omega)]
  rw [hreceive, hway, after_perform_append]
  have hplays : Plays anyTlv w (after (perform (sockaddr6ToNeighbor client) before
      w.memory.head) (after uninit w)) :=
    (plays_uninit w).trans (plays_perform (fun _ _ _ _ _ _ => trivial) _ _)
  generalize after (perform (sockaddr6ToNeighbor client) before w.memory.head)
    (after uninit w) = v at hplays ⊢
  refine ⟨_, _, hplays.trans ?_, rfl⟩
  exact ((@plays_note _ (.bodyRead p.length 1) trivial v).trans
    (@plays_note _ (.bodyRead (p.length + 1) 1) trivial _)).trans
      ((@plays_note _ (.bodyRead (p.length + 2) (UInt8.ofNat t.value.length).toNat) trivial _).trans
        (@plays_note _ (.dispatch t.type p.length t.value) trivial _))

/-- A receiver forgets the sender of the GoAway. -/
theorem forgets_of_framed {p : List UInt8} (hp : Framed p)
    (hsize : (p ++ leaving.bytes).length ≤ maxSize) (m : MainState) (client : Sockaddr)
    {r : World} (hr : r.Sound) :
    ∀ e ∈ (after (receive m (.datagram (datagram (p ++ leaving.bytes)) client))
      r).neighbors.inorder, entryPlace e ≠ (sockaddr6ToNeighbor client).place := by
  obtain ⟨u, mem, hplays, hafter⟩ := after_receive_framed hp (t := leaving) rfl hsize m client r
  obtain ⟨tr, hrun⟩ := hplays.run
  have hu := sound_of_run hrun hr
  obtain ⟨v, hprints, hgoaway⟩ := after_goaway (write mem 0 leaving.value)
    (UInt8.ofNat leaving.value.length) (sockaddr6ToNeighbor client) u
  rw [hafter, show after (handleTlv leaving.type (write mem 0 leaving.value)
    (UInt8.ofNat leaving.value.length) (sockaddr6ToNeighbor client)) u = _ from hgoaway]
  exact (removed_removeNeighborEverywhere (hu.of_boxes hprints.idle.boxes) _).2

/-! ### The whole of it -/

/-- The process ends, in the state `w`. -/
structure Leaves (w w' : World) : Prop where
  departs : ∀ k, w.neighbors.owns k → Departs k w w'
  /-- Nobody else is sent anything. -/
  only : ∀ server bytes, .sendto server bytes ∈ w.since w' → w.neighbors.addresses server
  /-- Whoever gets the last datagram forgets its sender, when only whole TLVs
  were waiting. -/
  forgotten : ∀ k, w.neighbors.owns k → Framed (w.pending k.toNeighbor) → ∃ last,
    (sentTo (neighborToSockaddr6 k.toNeighbor) (w.since w')).getLast? = some last ∧
    ∀ (r : World) (m : MainState) (client : Sockaddr), r.Sound →
      ∀ e ∈ (after (receive m (.datagram last client)) r).neighbors.inorder,
        entryPlace e ≠ (sockaddr6ToNeighbor client).place

end FloodPeer
