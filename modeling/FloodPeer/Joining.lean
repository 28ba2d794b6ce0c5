/-
FloodPeer/Joining.lean

How a peer comes in.

A peer that starts writes a short Hello to every address it is given
(`after_sendFirstMessage`).  Whoever gets it makes a record and answers with a long
Hello, and when the answer arrives its sender is a symmetric neighbour
(`joined_of_run`).
-/
import FloodPeer.Disconnect
import FloodPeer.Outbox

namespace FloodPeer

open Octets StateLogic Runs

/-! ### The first message -/

/-- What `send_first_message` sends. -/
def firstMessage (id : UInt64) : List UInt8 := datagram (Tlv.shortHello id).bytes

theorem after_firstMessageLoop (msg : MessageH) (r : List Sockaddr) (nb : Int) (w : World) :
    ∃ s, after (firstMessageLoop msg r nb) w =
      { w with sendtos := s, log := w.log ++ r.map fun p => .sendto p (msg.bytes 14) } := by
  induction r generalizing nb w with
  | nil => exact ⟨w.sendtos, by simp [firstMessageLoop]⟩
  | cons p rest ih =>
    obtain ⟨s, hs⟩ := ih (if value (sendto p (msg.bytes 14)) w > 0 then nb + 1 else nb)
      (after (sendto p (msg.bytes 14)) w)
    refine ⟨s, hs.trans ?_⟩
    simp

theorem length_shortHello (id : UInt64) : (Tlv.shortHello id).bytes.length = 10 := by
  rw [Tlv.bytes_of_handled rfl]
  simp [Tlv.value, u64Bytes]

/-- The fourteen bytes that are written. -/
theorem bytes_shortHello (mem : Mem) (id : UInt64) :
    (messageOf (tlvShortHello mem 0 maxSize id).1 (tlvShortHello mem 0 maxSize id).2).bytes 14 =
      firstMessage id := by
  have hsize : (tlvShortHello mem 0 maxSize id).2 = (10 : Nat) := rfl
  have hlen := length_shortHello id
  rw [hsize, bytes_messageOf _ (by omega), tlvShortHello_spec (by rw [hsize]; decide), ← hlen,
    read_write_self]
  rfl

/-- `send_first_message` writes to every address, and does nothing else. -/
theorem after_sendFirstMessage (r : List Sockaddr) (w : World) :
    ∃ s, after (sendFirstMessage (some r)) w =
      { w with sendtos := s, log := w.log ++ r.map fun p => .sendto p (firstMessage w.id) } := by
  obtain ⟨s, hs⟩ := after_firstMessageLoop (messageOf (tlvShortHello (fun _ => 0) 0 maxSize w.id).1
    (tlvShortHello (fun _ => 0) 0 maxSize w.id).2) r 0 w
  rw [bytes_shortHello] at hs
  exact ⟨s, hs⟩

theorem idle_sendFirstMessage (r : List Sockaddr) (w : World) :
    Idle w (after (sendFirstMessage (some r)) w) := by
  obtain ⟨s, hs⟩ := after_sendFirstMessage r w
  rw [hs]
  exact { Elapsed.refl w with
    log := List.prefix_append _ _
    potential := rfl
    neighbors := rfl
    dataf := rfl
    msgs := rfl }

/-! ### The first TLV of a datagram -/

/-- The first TLV of a datagram comes to its handler before anything else happens. -/
theorem after_receive_first {t : Tlv} (ht : t.handled = true) {more : List UInt8}
    (hsize : (t.bytes ++ more).length ≤ maxSize) (m : MainState) (client : Sockaddr) (w : World) :
    ∃ u mem rest, Idle w u ∧ u.clock = w.clock ∧ (more = [] → rest = []) ∧
      after (receive m (.datagram (datagram (t.bytes ++ more)) client)) w =
        after (perform (sockaddr6ToNeighbor client) rest (write mem 0 t.value))
          ((Move.tlv t.type (write mem 0 t.value) (UInt8.ofNat t.value.length) client).act u) := by
  obtain ⟨msg, hdeclared, hread, hreceive⟩ := after_receive_datagram hsize m client w
  rw [List.length_append] at hdeclared hread
  have hbytes : t.bytes.length = 2 + t.value.length := by
    rw [Tlv.bytes_of_handled ht, List.length_cons, List.length_cons]
    omega
  obtain ⟨hfront, -⟩ := (read_eq_append_iff rfl).mp hread
  rw [hbytes] at hfront
  -- the way through the body begins with it
  obtain ⟨rest, hway, hend⟩ : ∃ rest, msg.way = .look 0 1 :: .look 1 1 ::
      .tlv t.type (UInt8.ofNat t.value.length) 0 t.value :: rest ∧ (more = [] → rest = []) := by
    unfold MessageH.way
    obtain ⟨fuel, hfuel⟩ : ∃ fuel, msg.declared = fuel + 1 := ⟨msg.declared - 1, by omega⟩
    have hsteps := @steps_of_tlv msg.body msg.declared fuel 0 t ht (by omega) hfront
    rw [← hfuel] at hsteps
    refine ⟨_, hsteps, fun hmore => steps_of_end ?_ _⟩
    rw [hmore, List.length_nil] at hdeclared
    omega
  rw [hway] at hreceive
  let look : Peer Unit := do
    let _ ← uninit
    note (.bodyRead 0 1)
    note (.bodyRead 1 1)
    note (.bodyRead 2 (UInt8.ofNat t.value.length).toNat)
    note (.dispatch t.type 0 t.value)
  have hlook : Keeps Still look :=
    primitive_still.bind primitive_still.onUninit fun _ =>
    primitive_still.bind (still_note trivial) fun _ =>
    primitive_still.bind (still_note trivial) fun _ =>
    primitive_still.bind (still_note trivial) fun _ => still_note trivial
  exact ⟨after look w, w.memory.head, rest, (hlook w).toIdle, rfl, hend, hreceive⟩

/-- When a long Hello for the peer is handled, its sender is a symmetric neighbour. -/
theorem symmetric_of_longHello {w : World} (hw : w.Sound) (halloc : w.Allocates) (id : UInt64)
    (mem : Mem) (client : Sockaddr) :
    let t := Tlv.longHello id w.id
    ∃ e ∈ ((Move.tlv t.type (write mem 0 t.value) (UInt8.ofNat t.value.length) client).act
        w).neighbors.inorder,
      neighborToSockaddr6 e.1.toNeighbor = client ∧ e.2.lastHelloLong = w.clock.head := by
  intro t
  have hfields : UInt8.ofNat t.value.length = 16 ∧ _ ∧ u64At (write mem 0 t.value) 8 = w.id :=
    longHello_fields mem id w.id
  obtain ⟨h16, -, hdest⟩ := hfields
  have hread := prints_readHello (UInt8.ofNat t.value.length) w
  have hafter := after_hello (write mem 0 t.value) (UInt8.ofNat t.value.length)
    (sockaddr6ToNeighbor client) w
  unfold helloIdent at hafter
  rw [if_pos h16, if_pos hdest] at hafter
  have hv := hw.of_boxes hread.idle.boxes
  have hdirectory := (directory_acceptHello hv (hread.toHandled.elapsed.allocates halloc)
    { id := u64At (write mem 0 t.value) 0, lastHello := w.clock.head,
      lastHelloLong := w.clock.head } (sockaddr6ToNeighbor client)).1
  have hsound := (sound_acceptHello hv
    { id := u64At (write mem 0 t.value) 0, lastHello := w.clock.head,
      lastHelloLong := w.clock.head } (sockaddr6ToNeighbor client)).1
  dsimp only at hafter
  rw [← hafter] at hdirectory hsound
  obtain ⟨e, he, hplace, hrecord⟩ := (directory_eq_some_iff hsound.neighbors).mp
    ((congrFun hdirectory (sockaddr6ToNeighbor client).place).trans (Function.update_self ..))
  refine ⟨e, he, ?_, ?_⟩
  · rw [← neighborToSockaddr6_sockaddr6ToNeighbor client]
    exact neighborToSockaddr6_eq_iff.mpr hplace
  · rw [hrecord]
    cases (after (readHello (UInt8.ofNat t.value.length)) w).neighbors.directory
      (sockaddr6ToNeighbor client).place <;> rfl

/-! ### Joining -/

/-- Whenever a peer that has come from `A` gets the datagram from `server`, the first TLV
that it handles is a Hello, and when that has been handled `server` is its symmetric
neighbour. -/
def Introduces (A : World) (server : Sockaddr) (m : MainState) (answer : List UInt8) : Prop :=
  ∀ tr r, Run Move.Does A tr r → ∃ u buf length, Idle r u ∧
    let met := (Move.tlv 2 buf length server).act u
    Plays anyTlv met (after (receive m (.datagram answer server)) r) ∧
    ∃ e ∈ met.neighbors.inorder, neighborToSockaddr6 e.1.toNeighbor = server ∧
      e.2.lastHelloLong = r.clock.head

/-- **Joining.**  The first message of `A` goes to every address that it is given.
When `B` gets it and `A` is not among its neighbours, it makes a record for `A`; as long
as the record is there, the flush has sent an answer to it; and the answer introduces
`B` to `A`, whenever it comes.  Both have memory to spare. -/
theorem joined_of_run {A₀ : World} (hA : A₀.Initial) (hallocA : A₀.Allocates)
    {found : List Sockaddr} {server : Sockaddr} (hserver : server ∈ found)
    {B₀ u : World} (hB : B₀.Initial) (hallocB : B₀.Allocates) {past : List (World × Move)}
    (hpast : Run Move.Does B₀ past u) {client : Sockaddr}
    (hnew : getIdent (sockaddr6ToNeighbor client) u.neighbors = none) (m m' : MainState) :
    let A₁ := after (sendFirstMessage (some found)) A₀
    ∃ first, .sendto server first ∈ A₁.log ∧
      let v := after (receive m (.datagram first client)) u
      ∃ k, v.neighbors.owns k ∧ neighborToSockaddr6 k.toNeighbor = client ∧
        ∀ later w, Run Move.Does v later w → w.neighbors.owns k →
          ∃ answer, .sendto client answer ∈ u.since (after (sendToEveryoneNow w.neighbors) w) ∧
            Introduces A₁ server m' answer := by
  intro A₁
  have hmax := maxSize_eq
  have hpmtu := pmtu_eq
  obtain ⟨s, hA₁⟩ := after_sendFirstMessage found A₀
  refine ⟨firstMessage A₀.id, ?_, ?_⟩
  · show _ ∈ (after (sendFirstMessage (some found)) A₀).log
    rw [hA₁]
    exact List.mem_append_right _ (List.mem_map_of_mem hserver)
  intro v
  -- `B` handles the short Hello
  have hu := sound_of_run hpast (sound_of_initial hB)
  obtain ⟨u', mem, rest, hidle, -, hrest, hreceive⟩ :=
    @after_receive_first (.shortHello A₀.id) rfl []
      (by rw [List.append_nil, length_shortHello]; decide) m client u
  obtain rfl := hrest rfl
  rw [List.append_nil] at hreceive
  have hv : v = (Move.tlv 2 (write mem 0 (u64Bytes A₀.id)) 8 client).act u' := hreceive
  obtain ⟨h16, hid⟩ := shortHello_fields mem A₀.id
  have hheard := (heardBy_tlv u' 2 (write mem 0 (u64Bytes A₀.id)) 8 client).trans
    (if_pos ⟨rfl, fun h => absurd h (by decide)⟩)
  rw [← hidle.neighbors] at hnew
  obtain ⟨k, a, hk, haddr, hown, hstart⟩ := promised_hello (hu.of_boxes hidle.boxes)
    (hidle.toElapsed.allocates ((elapsed_of_run hpast).allocates hallocB)) hheard hnew
  rw [← hv] at hown hstart
  refine ⟨k, hown, haddr, fun later w hrun hstill => ?_⟩
  obtain ⟨more, hsize, hsent⟩ :=
    (hstart.of_run hk hrun).sent_of_flush hk (by simp [Tlv.bytes]) hstill
  rw [haddr] at hsent
  have hidA : u64At (write mem 0 (u64Bytes A₀.id)) 0 = A₀.id := hid
  dsimp only at hsize hsent
  rw [hidA] at hsize hsent
  refine ⟨_, List.drop_subset_drop_left _ hidle.log.length_le hsent, fun tr r hplayed => ?_⟩
  -- `A` handles the long Hello
  have hfirst := idle_sendFirstMessage found A₀
  have hthen := elapsed_of_run hplayed
  have hr := sound_of_run hplayed ((sound_of_initial hA).of_boxes hfirst.boxes)
  have hallocR := hthen.allocates (hfirst.toElapsed.allocates hallocA)
  obtain ⟨r', mem', rest', hidle', hclock, -, hreceive'⟩ :=
    @after_receive_first (.longHello u'.id A₀.id) rfl more (by omega) m' server r
  have hidR : r'.id = A₀.id := hidle'.id.trans (hthen.id.trans hfirst.id)
  rw [hreceive', ← hclock]
  refine ⟨r', _, _, hidle', plays_perform (fun _ _ _ _ _ _ => trivial) _ _, ?_⟩
  rw [← hidR]
  exact symmetric_of_longHello (hr.of_boxes hidle'.boxes) (hidle'.toElapsed.allocates hallocR)
    u'.id mem' server

/-- A peer that starts, and the address that it is given. -/
def newcomer : World := { bootAt 0 with id := 7 }

def givenAddr : Sockaddr where
  addr := Vector.replicate 16 2
  port := 5

/-- The newcomer has the address `remote`. -/
theorem joined_newcomer :
    let A₁ := after (sendFirstMessage (some [givenAddr])) newcomer
    ∃ first, .sendto givenAddr first ∈ A₁.log ∧
      let v := after (receive dueState (.datagram first remote)) (bootAt 0)
      ∃ k, v.neighbors.owns k ∧ neighborToSockaddr6 k.toNeighbor = remote ∧
        ∀ later w, Run Move.Does v later w → w.neighbors.owns k →
          ∃ answer, .sendto remote answer ∈
              (bootAt 0).since (after (sendToEveryoneNow w.neighbors) w) ∧
            Introduces A₁ givenAddr dueState answer := by
  have hinit : newcomer.Initial := ⟨rfl, rfl, rfl, rfl, Nat.one_pos, rfl⟩
  exact joined_of_run hinit (fun _ => rfl) (List.mem_singleton_self givenAddr) (initial_boot _)
    (fun _ => rfl) .nil rfl dueState dueState

end FloodPeer
