/-
FloodPeer/Batching.lean

The messages gathered for a neighbour, as a batcher.

`Holds k a w₀ w b` relates the peer to the state `b` of a `Batcher` whose items
are the bodies queued for the record `k`: the message of the record is what
waits, and the datagrams that went to its address since `w₀` are the closed
batches.  To the record itself `send_message` is `Batcher.push` and the flush is
`Batcher.flush`; to any other record both leave the batcher alone.  That
nothing is lost, doubled, moved or split is then a fact about batchers.
-/
import FloodPeer.Hellos
import FloodPeer.Lib.Batcher

namespace FloodPeer

open Octets StateLogic SortedAssoc Runs

/-! ### What goes to an address -/

/-- The datagrams that were sent to an address. -/
def sentTo (server : Sockaddr) (l : List Obs) : List (List UInt8) :=
  l.filterMap fun o =>
    match o with
    | .sendto s bytes => if s = server then some bytes else none
    | _ => none

theorem sentTo_append (server : Sockaddr) (l l' : List Obs) :
    sentTo server (l ++ l') = sentTo server l ++ sentTo server l' :=
  List.filterMap_append

/-- The length field. -/
theorem declared_of_read {mem : Mem} {n : Nat} (hn : n < 65536)
    (hread : Octets.read mem 2 2 = toLE 2 (swap16 (UInt16.ofNat n)).toNat) :
    (MessageH.ofMem mem).declared = n := by
  have hlt : (swap16 (UInt16.ofNat n)).toNat < 256 ^ 2 := UInt16.toNat_lt _
  show (swap16 (UInt16.ofNat (ofLE (Octets.read mem 2 2)))).toNat = _
  rw [hread, ofLE_toLE, Nat.mod_eq_of_lt hlt, UInt16.ofNat_toNat, swap16_swap16,
    UInt16.toNat_ofNat', Nat.mod_eq_of_lt hn]

/-- A datagram declares the length of its body. -/
theorem declared_datagram {body : List UInt8} (h : body.length < 65536) :
    (MessageH.ofMem (ofBytes (datagram body))).declared = body.length :=
  declared_of_read h rfl

/-! ### The relation to the batcher -/

/-- The record `k`, with the message at `a`, has been served since `w₀` as the
batcher `b` says. -/
structure Holds (k : NeighborPtr) (a : Nat) (w₀ w : World) (b : Batcher.State (List UInt8)) :
    Prop where
  sound : w.Sound
  owns : w.neighbors.owns k
  id : w.id = w₀.id
  pending : ∃ m, w.msgs a = some m ∧ m.content = b.pending.flatten
  sent : ∃ ext, w.log = w₀.log ++ ext ∧
    sentTo (neighborToSockaddr6 k.toNeighbor) ext = b.closed.map fun l => datagram l.flatten

variable {k : NeighborPtr} {a : Nat} {w₀ w w' : World} {b : Batcher.State (List UInt8)}

/-- Something happens that has nothing to do with the record. -/
theorem Holds.aside (h : Holds k a w₀ w b) (hsound : w'.Sound) (howns : w'.neighbors.owns k)
    (hid : w'.id = w.id) (hmsgs : w'.msgs a = w.msgs a)
    (hlog : ∃ ext, w'.log = w.log ++ ext ∧
      sentTo (neighborToSockaddr6 k.toNeighbor) ext = []) : Holds k a w₀ w' b := by
  obtain ⟨ext, hext, hsent⟩ := h.sent
  obtain ⟨ext', hext', hnone⟩ := hlog
  refine ⟨hsound, howns, hid.trans h.id, ?_, ext ++ ext', ?_, ?_⟩
  · rw [hmsgs]
    exact h.pending
  · rw [hext', hext, List.append_assoc]
  · rw [sentTo_append, hsent, hnone, List.append_nil]

/-- Something is sent, or gathered, for the record. -/
theorem Holds.next (h : Holds k a w₀ w b) {b' : Batcher.State (List UInt8)} (hboxes : Boxes w w')
    (hpending : ∃ m, w'.msgs a = some m ∧ m.content = b'.pending.flatten)
    (hlog : ∃ ext, w'.log = w.log ++ ext ∧ (b'.closed.map fun l => datagram l.flatten) =
      (b.closed.map fun l => datagram l.flatten) ++
        sentTo (neighborToSockaddr6 k.toNeighbor) ext) : Holds k a w₀ w' b' := by
  obtain ⟨ext, hext, hsent⟩ := h.sent
  obtain ⟨ext', hext', hclosed⟩ := hlog
  refine ⟨h.sound.of_boxes hboxes, hboxes.neighbors ▸ h.owns, hboxes.id.trans h.id, hpending,
    ext ++ ext', ?_, ?_⟩
  · rw [hext', hext, List.append_assoc]
  · rw [sentTo_append, hsent, hclosed]

/-- The message of the record, and what the batcher knows about it. -/
theorem Holds.message (h : Holds k a w₀ w b) (hk : k.msg = some a) :
    ∃ m, w.msgs a = some m ∧ m.Box ∧ m.content = b.pending.flatten ∧
      Batcher.total List.length b.pending = m.declared := by
  obtain ⟨m, hm, hcontent⟩ := h.pending
  obtain ⟨e, he, rfl⟩ := List.mem_map.mp h.owns
  obtain ⟨-, m', hm', hbox⟩ := h.sound.box e he a hk
  obtain rfl : m = m' := Option.some.inj (hm.symm.trans hm')
  refine ⟨m, hm, hbox, hcontent, ?_⟩
  rw [Batcher.total_length, ← hcontent, length_content]

/-- Two records have different addresses and different messages. -/
theorem World.Sound.apart_of_ne (h : w.Sound) {key key' : NeighborPtr} (hk : w.neighbors.owns key)
    (hk' : w.neighbors.owns key') (hne : key ≠ key') :
    neighborToSockaddr6 key.toNeighbor ≠ neighborToSockaddr6 key'.toNeighbor ∧
    ∀ a, key.msg = some a → key'.msg ≠ some a := by
  obtain ⟨e, he, rfl⟩ := List.mem_map.mp hk
  obtain ⟨e', he', rfl⟩ := List.mem_map.mp hk'
  refine ⟨fun heq => hne ?_, fun a ha ha' => hne ?_⟩
  · rw [neighborToSockaddr6_eq_iff] at heq
    rw [h.neighbors.eq_of_key_eq he he' heq]
  · rw [h.own e he e' he' a ha ha']

/-! ### One record -/

section OneRecord

variable {buf : MessageH} {taille : Nat}

/-- `send_message` to the record is a push. -/
theorem Holds.sendMessage (h : Holds k a w₀ w b) (hk : k.msg = some a)
    (hbuf : buf.declared ≤ pmtu - 4) :
    Holds k a w₀ (after (FloodPeer.sendMessage buf taille k.toNeighbor) w)
      (Batcher.push List.length (pmtu - 4) b buf.content) := by
  have hp := pmtu_eq
  obtain ⟨m, hm, hbox, hcontent, htotal⟩ := h.message hk
  have hroom := hbox.room
  refine h.next (boxes_sendMessage hbuf taille k.toNeighbor w) ?_ ?_ <;>
    unfold Batcher.push <;> rw [htotal, length_content] <;>
    by_cases hfull : m.declared + buf.declared > pmtu - 4
  · rw [if_pos hfull, sendMessage_flush hk hm hfull hbuf]
    refine ⟨m.put 0 buf.content, if_pos rfl, ?_⟩
    rw [content_put_zero m (by rw [length_content]; omega)]
    simp
  · rw [if_neg hfull, sendMessage_append hk hm (Nat.not_lt.mp hfull)]
    refine ⟨m.put m.declared buf.content, if_pos rfl, ?_⟩
    rw [content_put_append m (by rw [length_content]; omega), hcontent]
    simp
  · rw [if_pos hfull, sendMessage_flush hk hm hfull hbuf]
    refine ⟨_, rfl, ?_⟩
    rw [List.map_append, bytes_eq_datagram hbox.magic hbox.version, hcontent]
    simp [sentTo]
  · rw [if_neg hfull, sendMessage_append hk hm (Nat.not_lt.mp hfull)]
    exact ⟨_, rfl, by simp [sentTo]⟩

/-- `send_message` to another record. -/
theorem Holds.sendMessage_other (h : Holds k a w₀ w b) (hk : k.msg = some a) {key : NeighborPtr}
    (hkey : w.neighbors.owns key) (hne : key ≠ k) (hbuf : buf.declared ≤ pmtu - 4) :
    Holds k a w₀ (after (FloodPeer.sendMessage buf taille key.toNeighbor) w) b := by
  have hp := pmtu_eq
  have hboxes := boxes_sendMessage hbuf taille key.toNeighbor w
  obtain ⟨haddr, hmsg⟩ := h.sound.apart_of_ne hkey h.owns hne
  refine h.aside (h.sound.of_boxes hboxes) (hboxes.neighbors ▸ h.owns) hboxes.id ?_ ?_ <;>
    cases hkmsg : key.msg with
  | none =>
    rw [sendMessage_direct hkmsg]
    first
    | rfl
    | exact ⟨[.sendto _ _], rfl, by simp [sentTo, haddr]⟩
  | some a' =>
    have ha : a ≠ a' := fun heq => hmsg a' hkmsg (heq ▸ hk)
    obtain ⟨e, he, rfl⟩ := List.mem_map.mp hkey
    obtain ⟨-, m, hm, hbox⟩ := h.sound.box e he a' hkmsg
    by_cases hfull : m.declared + buf.declared > pmtu - 4
    · rw [sendMessage_flush hkmsg hm hfull hbuf]
      first
      | exact if_neg ha
      | exact ⟨_, rfl, by simp [sentTo, haddr]⟩
    · rw [sendMessage_append hkmsg hm (Nat.not_lt.mp hfull)]
      first
      | exact if_neg ha
      | exact ⟨_, rfl, by simp [sentTo]⟩

/-- The flush of the record. -/
theorem Holds.flushNeighbor (h : Holds k a w₀ w b) (hk : k.msg = some a) :
    Holds k a w₀ (after (FloodPeer.flushNeighbor k.toNeighbor) w)
      (Batcher.flush List.length b) := by
  obtain ⟨m, hm, hbox, hcontent, htotal⟩ := h.message hk
  have hboxes := boxes_flushNeighbor k.toNeighbor w
  unfold Batcher.flush
  rw [htotal]
  by_cases hempty : m.declared = 0
  · rw [if_pos hempty, flushNeighbor_empty hk hm hempty]
    exact h
  · rw [if_neg hempty]
    refine h.next hboxes ?_ ?_ <;> rw [flushNeighbor_some hk hm hempty]
    · refine ⟨{ m with bodyLength := 0 }, if_pos rfl, ?_⟩
      unfold MessageH.content
      rw [(declared_eq_zero_iff _).mpr rfl]
      rfl
    · refine ⟨_, rfl, ?_⟩
      rw [List.map_append, bytes_eq_datagram hbox.magic hbox.version, hcontent]
      simp [sentTo]

/-- The flush of another record. -/
theorem Holds.flushNeighbor_other (h : Holds k a w₀ w b) (hk : k.msg = some a) {key : NeighborPtr}
    (hkey : w.neighbors.owns key) (hne : key ≠ k) :
    Holds k a w₀ (after (FloodPeer.flushNeighbor key.toNeighbor) w) b := by
  have hboxes := boxes_flushNeighbor key.toNeighbor w
  obtain ⟨haddr, hmsg⟩ := h.sound.apart_of_ne hkey h.owns hne
  cases hkmsg : key.msg with
  | none =>
    have hnothing : after (FloodPeer.flushNeighbor key.toNeighbor) w = w := by
      unfold FloodPeer.flushNeighbor
      rw [hkmsg]
      rfl
    rw [hnothing]
    exact h
  | some a' =>
    have ha : a ≠ a' := fun heq => hmsg a' hkmsg (heq ▸ hk)
    obtain ⟨e, he, rfl⟩ := List.mem_map.mp hkey
    obtain ⟨-, m, hm, -⟩ := h.sound.box e he a' hkmsg
    by_cases hempty : m.declared = 0
    · rw [flushNeighbor_empty hkmsg hm hempty]
      exact h
    · refine h.aside (h.sound.of_boxes hboxes) (hboxes.neighbors ▸ h.owns) hboxes.id ?_ ?_
      · rw [flushNeighbor_some hkmsg hm hempty]
        exact if_neg ha
      · rw [flushNeighbor_some hkmsg hm hempty]
        exact ⟨_, rfl, by simp [sentTo, haddr]⟩

end OneRecord

/-! ### All records -/

section Walk

variable {visit : Tree → Peer Int} {one : NeighborPtr → Ident → Peer Int}
  {g : Ident → Batcher.State (List UInt8) → Batcher.State (List UInt8)}

/-- A walk over a tree of records serves the record `k` once, when it gets
there, and no other visit has to do with it. -/
theorem holds_walk (hnull : ∀ w, after (visit .null) w = w)
    (hnode : ∀ key val left right w, after (visit (.node key val left right)) w =
      after (visit right) (after (visit left) (after (one key val) w)))
    (hone : ∀ key val, Keeps Boxes (one key val)) (hvisit : ∀ t, Keeps Boxes (visit t))
    (hself : ∀ val w b, Holds k a w₀ w b → Holds k a w₀ (after (one k val) w) (g val b))
    (hother : ∀ key val w b, key ≠ k → w.neighbors.owns key → Holds k a w₀ w b →
      Holds k a w₀ (after (one key val) w) b)
    (t : Tree) (hsorted : t.Sorted) {w : World} {b : Batcher.State (List UInt8)}
    (howns : ∀ e ∈ t.inorder, w.neighbors.owns e.1) (h : Holds k a w₀ w b) :
    (∀ val, (k, val) ∈ t.inorder → Holds k a w₀ (after (visit t) w) (g val b)) ∧
    ((∀ val, (k, val) ∉ t.inorder) → Holds k a w₀ (after (visit t) w) b) := by
  -- over the tree: `k` is visited once if it is there, and nobody else's visit matters
  induction t generalizing w b with
  | null =>
    rw [hnull]
    exact ⟨fun _ hval => absurd hval List.not_mem_nil, fun _ => h⟩
  | node key val left right ihl ihr =>
    obtain ⟨hl, hr, hlk, hkr⟩ := sorted_node_iff.mp hsorted
    have hn₁ := (hone key val w).neighbors
    have hn₂ := (hvisit left (after (one key val) w)).neighbors.trans hn₁
    have howns₁ : ∀ e ∈ left.inorder, (after (one key val) w).neighbors.owns e.1 :=
      fun e he => hn₁ ▸ howns e (List.mem_append_left _ he)
    have howns₂ : ∀ e ∈ right.inorder,
        (after (visit left) (after (one key val) w)).neighbors.owns e.1 :=
      fun e he => hn₂ ▸ howns e (List.mem_append_right _ (List.mem_cons_of_mem _ he))
    rw [hnode]
    by_cases hkey : key = k
    · -- here it is, and in neither subtree
      subst hkey
      have hleft : ∀ v, (key, v) ∉ left.inorder := fun v hv => lt_irrefl _ (hlk _ hv)
      have hright : ∀ v, (key, v) ∉ right.inorder := fun v hv => lt_irrefl _ (hkr _ hv)
      have h₂ := (ihl hl howns₁ (hself val w b h)).2 hleft
      have h₃ := (ihr hr howns₂ h₂).2 hright
      refine ⟨fun v hv => ?_, fun hnone => absurd (by simp) (hnone val)⟩
      have hval : v = val := by
        rcases List.mem_append.mp hv with hv | hv
        · exact absurd hv (hleft v)
        rcases List.mem_cons.mp hv with heq | hv
        · exact (Prod.mk.inj heq).2
        · exact absurd hv (hright v)
      rw [hval]
      exact h₃
    · -- it is in one of the subtrees, or in none
      have h₁ := hother key val w b hkey (howns (key, val) (by simp)) h
      obtain ⟨hin, hout⟩ := ihl hl howns₁ h₁
      refine ⟨fun v hv => ?_, fun hnone => ?_⟩
      · rcases List.mem_append.mp hv with hv | hv
        · have hright : ∀ v', (k, v') ∉ right.inorder :=
            fun v' hv' => lt_asymm (show k.toNeighbor.place < _ from hlk _ hv) (hkr (k, v') hv')
          exact (ihr hr howns₂ (hin v hv)).2 hright
        · rcases List.mem_cons.mp hv with heq | hv
          · exact absurd (Prod.mk.inj heq).1.symm hkey
          · have hleft : ∀ v', (k, v') ∉ left.inorder :=
              fun v' hv' => lt_asymm (show k.toNeighbor.place < _ from hlk _ hv') (hkr (k, v) hv)
            exact (ihr hr howns₂ (hout hleft)).1 v hv
      · have hleft : ∀ v, (k, v) ∉ left.inorder := fun v hv => hnone v (by simp [hv])
        have hright : ∀ v, (k, v) ∉ right.inorder := fun v hv => hnone v (by simp [hv])
        exact (ihr hr howns₂ (hout hleft)).2 hright

end Walk

/-- `send_to_everyone` pushes its body once. -/
theorem Holds.sendToEveryone (h : Holds k a w₀ w b) (hk : k.msg = some a) {buf : MessageH}
    (hbuf : buf.declared ≤ pmtu - 4) (length : Nat) :
    Holds k a w₀ (after (FloodPeer.sendToEveryone buf length w.neighbors) w)
      (Batcher.push List.length (pmtu - 4) b buf.content) := by
  obtain ⟨e, he, hkey⟩ := List.mem_map.mp h.owns
  have hwalk := @holds_walk k a w₀ (FloodPeer.sendToEveryone buf length)
    (fun key _ => FloodPeer.sendMessage buf length key.toNeighbor)
    (fun _ b => Batcher.push List.length (pmtu - 4) b buf.content)
    (fun _ => rfl) (fun _ _ _ _ _ => rfl) (fun _ _ => boxes_sendMessage hbuf _ _)
    (fun t => boxes_sendToEveryone hbuf _ t) (fun _ _ _ h => h.sendMessage hk hbuf)
    (fun _ _ _ _ hne hown h => h.sendMessage_other hk hown hne hbuf)
    w.neighbors h.sound.neighbors w b (fun e he => List.mem_map_of_mem he) h
  exact hwalk.1 e.2 (by rw [← hkey]; exact he)

/-- `send_to_everyone_now` flushes once. -/
theorem Holds.sendToEveryoneNow (h : Holds k a w₀ w b) (hk : k.msg = some a) :
    Holds k a w₀ (after (FloodPeer.sendToEveryoneNow w.neighbors) w)
      (Batcher.flush List.length b) := by
  obtain ⟨e, he, hkey⟩ := List.mem_map.mp h.owns
  have hwalk := @holds_walk k a w₀ FloodPeer.sendToEveryoneNow
    (fun key _ => FloodPeer.flushNeighbor key.toNeighbor)
    (fun _ b => Batcher.flush List.length b)
    (fun _ => rfl) (fun _ _ _ _ _ => rfl) (fun _ _ => boxes_flushNeighbor _)
    boxes_sendToEveryoneNow (fun _ _ _ h => h.flushNeighbor hk)
    (fun _ _ _ _ hne hown h => h.flushNeighbor_other hk hown hne)
    w.neighbors h.sound.neighbors w b (fun e he => List.mem_map_of_mem he) h
  exact hwalk.1 e.2 (by rw [← hkey]; exact he)

/-- What `send_hello_everyone` does for one record. -/
def sendHello (key : NeighborPtr) (val : Ident) : Peer Int := do
  let mem ← uninit
  let id := (← get).id
  sendMessage (messageOf (tlvLongHello mem 0 (pmtu - 4) id val.id).1
      (tlvLongHello mem 0 (pmtu - 4) id val.id).2)
    (toSize ((tlvLongHello mem 0 (pmtu - 4) id val.id).2 + 4)) key.toNeighbor

/-- The body of the message that it builds is a long Hello. -/
theorem content_longHello (mem : Mem) (id id' : UInt64) :
    (messageOf (tlvLongHello mem 0 (pmtu - 4) id id').1
      (tlvLongHello mem 0 (pmtu - 4) id id').2).content = (Tlv.longHello id id').bytes := by
  have hsize : (tlvLongHello mem 0 (pmtu - 4) id id').2 = (18 : Nat) := rfl
  have hlen : (Tlv.longHello id id').bytes.length = 18 := by
    rw [Tlv.bytes_of_handled rfl]
    simp [Tlv.value, u64Bytes]
  rw [hsize, content_messageOf _ (by omega), tlvLongHello_spec (by rw [hsize]; decide),
    ← hlen, read_write_self]

/-- `send_hello_everyone` pushes a long Hello once. -/
theorem Holds.sendHelloEveryone (h : Holds k a w₀ w b) (hk : k.msg = some a) {val : Ident}
    (hval : (k, val) ∈ w.neighbors.inorder) :
    Holds k a w₀ (after (FloodPeer.sendHelloEveryone w.neighbors) w)
      (Batcher.push List.length (pmtu - 4) b (Tlv.longHello w.id val.id).bytes) := by
  have hquiet : ∀ {v : World} {b}, Holds k a w₀ v b → Holds k a w₀ (after uninit v) b :=
    fun {v b} h => h.aside (h.sound.of_boxes (Quiet.boxes quiet_uninit v)) h.owns rfl rfl
      ⟨[], (List.append_nil _).symm, rfl⟩
  have hbuf : ∀ (mem : Mem) (val : Ident) (id : UInt64),
      (messageOf (tlvLongHello mem 0 (pmtu - 4) id val.id).1
        (tlvLongHello mem 0 (pmtu - 4) id val.id).2).declared ≤ pmtu - 4 :=
    fun mem val id => le_trans (le_of_eq (declared_longHello mem id val.id)) (by decide)
  have hwalk := @holds_walk k a w₀ FloodPeer.sendHelloEveryone sendHello
    (fun val b => Batcher.push List.length (pmtu - 4) b (Tlv.longHello w₀.id val.id).bytes)
    (fun _ => rfl) (fun _ _ _ _ _ => rfl)
    (fun _ val => Boxes.bind (Quiet.boxes quiet_uninit) fun mem =>
      Boxes.bind (Quiet.boxes Quiet.get) fun w => boxes_sendMessage (hbuf mem val w.id) _ _)
    boxes_sendHelloEveryone
    (fun val v b h => by
      have hsend := @Holds.sendMessage k a w₀ _ b _ (toSize (18 + 4)) (hquiet h) hk
        (hbuf v.memory.head val v.id)
      rw [content_longHello] at hsend
      rw [← h.id]
      exact hsend)
    (fun key val v b hne hown h =>
      (hquiet h).sendMessage_other hk hown hne (hbuf v.memory.head val v.id))
    w.neighbors h.sound.neighbors w b (fun e he => List.mem_map_of_mem he) h
  rw [h.id]
  exact hwalk.1 val hval

/-! ### Any order of operations -/

/-- The operations that send to the records of `NEIGHBORS`, and everything else. -/
inductive Op where
  | send (buf : MessageH) (taille : Nat) (key : NeighborPtr)
  | everyone (buf : MessageH) (length : Nat)
  | hellos
  | flush
  | other

/-- Something happens that leaves the record `k` and its message alone and sends
nothing to its address. -/
structure Aside (k : NeighborPtr) (w w' : World) : Prop where
  sound : w'.Sound
  owns : w'.neighbors.owns k
  id : w'.id = w.id
  msgs : ∀ a, k.msg = some a → w'.msgs a = w.msgs a
  log : ∃ ext, w'.log = w.log ++ ext ∧ sentTo (neighborToSockaddr6 k.toNeighbor) ext = []

/-- What an operation does, while `k` stays in `NEIGHBORS`. -/
def Op.Does (k : NeighborPtr) : Op → World → World → Prop
  | .send buf taille key, w, w' => w.neighbors.owns key ∧ buf.declared ≤ pmtu - 4 ∧
    w' = after (sendMessage buf taille key.toNeighbor) w
  | .everyone buf length, w, w' => buf.declared ≤ pmtu - 4 ∧
    w' = after (sendToEveryone buf length w.neighbors) w
  | .hellos, w, w' => w' = after (sendHelloEveryone w.neighbors) w
  | .flush, w, w' => w' = after (sendToEveryoneNow w.neighbors) w
  | .other, w, w' => Aside k w w'

/-- The bodies that an operation queues for `k`. -/
def Op.bodies (k : NeighborPtr) (w : World) : Op → List (List UInt8)
  | .send buf _ key => if key = k then [buf.content] else []
  | .everyone buf _ => [buf.content]
  | .hellos => (w.neighbors.inorder.filter fun e => e.1 = k).map fun e =>
    (Tlv.longHello w.id e.2.id).bytes
  | .flush | .other => []

/-- All bodies queued for `k`, in order. -/
def queued (k : NeighborPtr) (tr : List (World × Op)) : List (List UInt8) :=
  (tr.map fun x => x.2.bodies k x.1).flatten

theorem queued_snoc (k : NeighborPtr) (tr : List (World × Op)) (w : World) (op : Op) :
    queued k (tr ++ [(w, op)]) = queued k tr ++ op.bodies k w := by
  simp [queued]

/-- There is one record for each key. -/
theorem filter_eq_singleton (h : w.Sound) {val : Ident} (hk : (k, val) ∈ w.neighbors.inorder) :
    (w.neighbors.inorder.filter fun e => e.1 = k) = [(k, val)] := by
  obtain ⟨pre, post, hsplit⟩ := List.mem_iff_append.mp hk
  have hsorted : Ascending entryPlace (pre ++ (k, val) :: post) := hsplit ▸ h.neighbors
  obtain ⟨-, -, hpre, hpost⟩ := (ascending_node_iff entryPlace).mp hsorted
  rw [hsplit, List.filter_append, List.filter_cons]
  have hnone₁ : pre.filter (fun e => e.1 = k) = [] := by
    refine List.filter_eq_nil_iff.mpr fun e he heq => ?_
    obtain rfl : e.1 = k := of_decide_eq_true heq
    exact lt_irrefl _ (hpre e he)
  have hnone₂ : post.filter (fun e => e.1 = k) = [] := by
    refine List.filter_eq_nil_iff.mpr fun e he heq => ?_
    obtain rfl : e.1 = k := of_decide_eq_true heq
    exact lt_irrefl _ (hpost e he)
  rw [hnone₁, hnone₂]
  simp

/-- What is true of a batcher that serves `k`. -/
structure Serves (k : NeighborPtr) (a : Nat) (w₀ : World) (tr : List (World × Op)) (w : World)
    (b : Batcher.State (List UInt8)) : Prop where
  holds : Holds k a w₀ w b
  fits : Batcher.Fits List.length (pmtu - 4) b
  items : b.items = w₀.pending k.toNeighbor :: queued k tr
  flushed : tr.getLast?.map Prod.snd = some .flush → b.pending.flatten = []

/-- One more operation. -/
theorem Serves.step {tr : List (World × Op)} (h : Serves k a w₀ tr w b) (hk : k.msg = some a)
    {op : Op} (hop : op.Does k w w') : ∃ b', Serves k a w₀ (tr ++ [(w, op)]) w' b' := by
  have hlast : ∀ op' : Op, op' ≠ .flush →
      (tr ++ [(w, op')]).getLast?.map Prod.snd ≠ some .flush := by
    intro op' hne heq
    simp only [List.getLast?_concat, Option.map_some, Option.some.injEq] at heq
    exact hne heq
  -- an operation pushes one body, or it does not concern `k`
  have hpush : ∀ {body : List UInt8} {v : World}, body.length ≤ pmtu - 4 → op ≠ .flush →
      op.bodies k w = [body] →
      Holds k a w₀ v (Batcher.push List.length (pmtu - 4) b body) →
      ∃ b', Serves k a w₀ (tr ++ [(w, op)]) v b' := by
    intro body v hlen hne hbody hholds
    refine ⟨_, hholds, h.fits.push hlen, ?_, fun hl => absurd hl (hlast op hne)⟩
    rw [Batcher.items_push, h.items, queued_snoc, hbody]
    rfl
  have hskip : ∀ {v : World}, op ≠ .flush → op.bodies k w = [] → Holds k a w₀ v b →
      ∃ b', Serves k a w₀ (tr ++ [(w, op)]) v b' := by
    intro v hne hbody hholds
    refine ⟨b, hholds, h.fits, ?_, fun hl => absurd hl (hlast op hne)⟩
    rw [h.items, queued_snoc, hbody, List.append_nil]
  cases op with
  | send buf taille key =>
    obtain ⟨hown, hbuf, rfl⟩ := hop
    by_cases hkey : key = k
    · subst hkey
      exact hpush (by rw [length_content]; exact hbuf) (by simp) (if_pos rfl)
        (h.holds.sendMessage hk hbuf)
    · exact hskip (by simp) (if_neg hkey) (h.holds.sendMessage_other hk hown hkey hbuf)
  | everyone buf length =>
    obtain ⟨hbuf, rfl⟩ := hop
    exact hpush (by rw [length_content]; exact hbuf) (by simp) rfl
      (h.holds.sendToEveryone hk hbuf length)
  | hellos =>
    obtain ⟨⟨key, val⟩, hval, rfl⟩ := List.mem_map.mp h.holds.owns
    rw [show w' = _ from hop]
    refine hpush ?_ (by simp) ?_ (h.holds.sendHelloEveryone hk hval)
    · rw [Tlv.bytes_of_handled rfl]
      simp [Tlv.value, u64Bytes, pmtu_eq]
    · show (w.neighbors.inorder.filter fun e => e.1 = key).map _ = _
      rw [filter_eq_singleton h.holds.sound hval]
      rfl
  | flush =>
    rw [show w' = _ from hop]
    refine ⟨_, h.holds.sendToEveryoneNow hk, h.fits.flush, ?_, fun _ => ?_⟩
    · rw [Batcher.items_flush, h.items, queued_snoc]
      exact (List.append_nil _).symm
    · rw [← List.length_eq_zero_iff, ← Batcher.total_length]
      exact Batcher.total_pending_flush List.length b
  | other =>
    have hop : Aside k w w' := hop
    exact hskip (by simp) rfl
      (h.holds.aside hop.sound hop.owns hop.id (hop.msgs a hk) hop.log)

/-- What waits for a record with a message. -/
theorem pending_of_content {m : MessageH} {key : Neighbor} (hk : key.msg = some a)
    (hm : w.msgs a = some m) : w.pending key = m.content := by
  unfold World.pending
  rw [hk, Option.bind_some, hm]
  rfl

/-- Before the first operation everything waits in one piece. -/
theorem serves_nil (hw : w.Sound) (hown : w.neighbors.owns k) (hk : k.msg = some a) :
    Serves k a w [] w { closed := [], pending := [w.pending k.toNeighbor] } := by
  obtain ⟨e, he, rfl⟩ := List.mem_map.mp hown
  obtain ⟨-, m, hm, hbox⟩ := hw.box e he a hk
  have hpending := pending_of_content hk hm
  refine ⟨⟨hw, hown, rfl, ⟨m, hm, ?_⟩, [], (List.append_nil _).symm, rfl⟩, ⟨?_, ?_⟩, rfl,
    fun hl => nomatch hl⟩
  · rw [hpending]
    simp
  · exact fun _ hl => absurd hl List.not_mem_nil
  · rw [Batcher.total_length, hpending]
    simp [hbox.room]

theorem serves_of_run {tr : List (World × Op)} (hw : w.Sound) (hown : w.neighbors.owns k)
    (hk : k.msg = some a) (hrun : Run (Op.Does k) w tr w') : ∃ b, Serves k a w tr w' b := by
  induction hrun with
  | nil => exact ⟨_, serves_nil hw hown hk⟩
  | snoc _ hop ih =>
    obtain ⟨b, hb⟩ := ih
    exact hb.step hk hop

/-- **Batching.**  Whatever order the operations come in, the datagrams sent to a
record are batches of whole bodies, none empty and none too large; what they
contain, followed by what still waits, is what was waiting at the beginning and
what has been queued since.  After a flush nothing waits. -/
theorem batching {w₀ w w' : World} {tr₀ : List (World × Move)} {tr : List (World × Op)}
    {k : NeighborPtr} {a : Nat} (hinit : w₀.Initial) (hreach : Run Move.Does w₀ tr₀ w)
    (hown : w.neighbors.owns k) (hk : k.msg = some a) (hrun : Run (Op.Does k) w tr w') :
    ∃ (batches : List (List (List UInt8))) (waiting : List (List UInt8)),
      sentTo (neighborToSockaddr6 k.toNeighbor) (w'.log.drop w.log.length) =
        batches.map (fun l => datagram l.flatten) ∧
      w'.pending k.toNeighbor = waiting.flatten ∧
      batches.flatten ++ waiting = w.pending k.toNeighbor :: queued k tr ∧
      (batches.map List.flatten).flatten ++ w'.pending k.toNeighbor =
        w.pending k.toNeighbor ++ (queued k tr).flatten ∧
      (∀ l ∈ batches, 0 < l.flatten.length ∧ (datagram l.flatten).length ≤ pmtu ∧
        (MessageH.ofMem (ofBytes (datagram l.flatten))).declared = l.flatten.length) ∧
      (tr.getLast?.map Prod.snd = some .flush → w'.pending k.toNeighbor = []) := by
  have hp := pmtu_eq
  have hw := sound_of_run hreach (sound_of_initial hinit)
  obtain ⟨b, hholds, hfits, hitems, hflushed⟩ := serves_of_run hw hown hk hrun
  obtain ⟨m, hm, hcontent⟩ := hholds.pending
  obtain ⟨ext, hext, hsent⟩ := hholds.sent
  have hpending : w'.pending k.toNeighbor = b.pending.flatten :=
    (pending_of_content hk hm).trans hcontent
  refine ⟨b.closed, b.pending, ?_, hpending, hitems, ?_, fun l hl => ?_, fun hl => ?_⟩
  · rw [hext, List.drop_left]
    exact hsent
  · -- the same, byte for byte
    have hflat := congrArg List.flatten hitems
    unfold Batcher.State.items at hflat
    rw [hpending, ← List.flatten_flatten, ← List.flatten_append]
    exact hflat
  · obtain ⟨hpos, hle⟩ := hfits.closed l hl
    rw [Batcher.total_length] at hpos hle
    exact ⟨hpos, by rw [length_datagram]; omega, declared_datagram (by omega)⟩
  · rw [hpending, hflushed hl]

/-- The state after the other peer's first Hello, which has been answered. -/
def metRemote : World := actAll [shortHello 7] (bootAt 0)

/-- The other peer's record. -/
def remoteKey : NeighborPtr := { sockaddr6ToNeighbor remote with msg := some 1, addr := 4 }

/-- The answer, another Hello and a flush: both Hellos are sent, whole. -/
theorem batching_after_hellos :
    ∃ (batches : List (List (List UInt8))) (waiting : List (List UInt8)),
      batches.flatten ++ waiting = [(Tlv.longHello 1 7).bytes, (Tlv.longHello 1 7).bytes] ∧
      waiting.flatten = [] := by
  have hreach : Run Move.Does (bootAt 0) (actHistory [shortHello 7] (bootAt 0)) metRemote :=
    run_actAll _ _
  have hown : metRemote.neighbors.owns remoteKey := by decide +kernel
  have hpending : metRemote.pending remoteKey.toNeighbor = (Tlv.longHello 1 7).bytes := by
    decide +kernel
  have hbodies : Op.hellos.bodies remoteKey metRemote = [(Tlv.longHello 1 7).bytes] := by
    decide +kernel
  generalize metRemote = w at *
  have hrun : Run (Op.Does remoteKey) w
      ([(w, .hellos)] ++ [(after (sendHelloEveryone w.neighbors) w, .flush)]) _ :=
    (Run.single (m := Op.hellos) rfl).trans (Run.single (m := Op.flush) rfl)
  obtain ⟨batches, waiting, -, hwaiting, hwhole, -, -, hflushed⟩ :=
    batching (initial_boot _) hreach hown rfl hrun
  refine ⟨batches, waiting, ?_, hwaiting.symm.trans (hflushed (by simp))⟩
  rw [hwhole, queued_snoc, hpending]
  show _ :: ((Op.hellos.bodies remoteKey w ++ []) ++ []) = _
  rw [hbodies]
  rfl

end FloodPeer
