/-
FloodPeer/Speech.lean

What a peer says in its datagrams.

A body is made of TLVs, and of the single byte that `send_data` takes of a datum
whose length byte is 255 (`Piece`).  The Hellos in it give the peer's own
identifier, and the long ones the identifier that the record of the addressee
had when they were sent.
-/
import FloodPeer.Transmissions
import FloodPeer.Relay

namespace FloodPeer

open Octets StateLogic Runs

/-! ### Bodies -/

/-- A piece of a body.  A Hello in it comes from `source`, and a long one is
addressed to `dest`. -/
inductive Piece (source dest : UInt64) : List UInt8 → Prop
  | tlv (type : UInt8) (value : List UInt8) (htype : type ≠ 0 ∧ type.toNat < nbTlv)
      (hvalue : value.length ≤ 255)
      (hhello : type = 2 → value = u64Bytes source ∨ value = u64Bytes source ++ u64Bytes dest) :
      Piece source dest (type :: UInt8.ofNat value.length :: value)
  /-- What `send_data` takes of a datum whose length byte is 255. -/
  | cut : Piece source dest [4]

/-- A body made of such pieces. -/
inductive Speech (source dest : UInt64) : List UInt8 → Prop
  | nil : Speech source dest []
  | cons {p rest : List UInt8} (hp : Piece source dest p) (hrest : Speech source dest rest) :
      Speech source dest (p ++ rest)

variable {source dest : UInt64}

theorem Speech.append {body body' : List UInt8} (h : Speech source dest body)
    (h' : Speech source dest body') : Speech source dest (body ++ body') := by
  induction h with
  | nil => exact h'
  | cons hp _ ih =>
    rw [List.append_assoc]
    exact .cons hp ih

theorem Piece.speech {p : List UInt8} (h : Piece source dest p) : Speech source dest p := by
  rw [← List.append_nil p]
  exact .cons h .nil

/-- A body starts with a type byte. -/
theorem Speech.head {b : UInt8} {body : List UInt8} (h : Speech source dest (b :: body)) :
    b.toNat < nbTlv := by
  generalize hall : b :: body = all at h
  cases h with
  | nil => cases hall
  | cons hp _ =>
    cases hp with
    | tlv type value htype =>
      obtain ⟨rfl, -⟩ := List.cons.inj hall
      exact htype.2
    | cut =>
      obtain ⟨rfl, -⟩ := List.cons.inj hall
      decide

theorem u64Bytes_inj {x y : UInt64} (h : u64Bytes x = u64Bytes y) : x = y := by
  have hx := @u64At_write (fun _ => 0) [] [] x 0 rfl
  have hy := @u64At_write (fun _ => 0) [] [] y 0 rfl
  rw [← hx, h, hy]

theorem length_u64Bytes (x : UInt64) : (u64Bytes x).length = 8 := length_toLE _ _

/-- A Hello with such a value. -/
theorem hello_of_value {t : Tlv} (htype : t.type = 2)
    (hvalue : t.value = u64Bytes source ∨ t.value = u64Bytes source ++ u64Bytes dest) :
    t = .shortHello source ∨ t = .longHello source dest := by
  cases t with
  | shortHello id =>
    rcases hvalue with h | h
    · exact .inl (by rw [u64Bytes_inj h])
    · have hlength := congrArg List.length h
      simp [Tlv.value, length_u64Bytes] at hlength
  | longHello id id' =>
    rcases hvalue with h | h
    · have hlength := congrArg List.length h
      simp [Tlv.value, length_u64Bytes] at hlength
    · obtain ⟨h₁, h₂⟩ := List.append_inj h (by rw [length_u64Bytes, length_u64Bytes])
      exact .inr (by rw [u64Bytes_inj h₁, u64Bytes_inj h₂])
  | _ => simp [Tlv.type] at htype

/-- A datum is never as short as a type byte. -/
theorem thirteen_le_of_data {t : Tlv} (htype : t.type = 4) : 13 ≤ t.value.length := by
  cases t with
  | data id nonce type payload hpayload =>
    simp only [Tlv.value, u64Bytes, u32Bytes, List.length_append, length_toLE, List.length_cons]
    omega
  | _ => simp [Tlv.type] at htype

/-- **Unique reading.**  Where a body is read as encodings, its Hellos are those
that were said.  The induction is on the pieces. -/
theorem hello_of_speech {body : List UInt8} (h : Speech source dest body) {ts : List Tlv}
    (hbody : body = ts.flatMap Tlv.bytes) {t : Tlv} (ht : t ∈ ts) (htype : t.type = 2) :
    t = .shortHello source ∨ t = .longHello source dest := by
  induction h generalizing ts with
  | nil =>
    have hnil := List.flatMap_eq_nil_iff.mp hbody.symm t ht
    cases t <;> cases hnil
  | @cons p rest hp hrest ih =>
    cases ts with
    | nil => cases ht
    | cons t₀ ts =>
      rw [List.flatMap_cons] at hbody
      have hhandled : t₀.handled = true := by
        by_contra hnot
        obtain rfl : t₀ = .pad1 := by cases t₀ <;> simp_all [Tlv.handled]
        cases hp with
        | tlv type value htype' => exact htype'.1 (List.cons.inj hbody).1
        | cut => cases (List.cons.inj hbody).1
      have hnat := t₀.toNat_length_value
      rw [Tlv.bytes_of_handled hhandled] at hbody
      cases hp with
      | tlv type value htype' hvalue hhello =>
        obtain ⟨hfirst, hbody⟩ := List.cons.inj hbody
        obtain ⟨hlength, hbody⟩ := List.cons.inj hbody
        have hsame : value.length = t₀.value.length := by
          have hof : (UInt8.ofNat value.length).toNat = value.length := by
            rw [UInt8.toNat_ofNat']
            omega
          rw [← hof, hlength, hnat]
        obtain ⟨rfl, htail⟩ := List.append_inj hbody hsame
        rcases List.mem_cons.mp ht with rfl | ht
        · exact hello_of_value htype (hhello (hfirst.trans htype))
        · exact ih htail ht
      | cut =>
        -- the length of a datum would be the type of the next piece
        obtain ⟨hfirst, hbody⟩ := List.cons.inj hbody
        have hdata := thirteen_le_of_data (t := t₀) hfirst.symm
        have hsecond : rest = UInt8.ofNat t₀.value.length :: (t₀.value ++ ts.flatMap Tlv.bytes) :=
          hbody
        rw [hsecond] at hrest
        have hlt := hrest.head
        rw [hnat] at hlt
        exact absurd hlt (by simp only [nbTlv]; omega)

/-! ### Messages -/

/-- The message of a record: what waits for the addressee. -/
def World.Voiced (w : World) : Prop :=
  ∀ e ∈ w.neighbors.inorder, Speech w.id e.2.id (w.pending e.1.toNeighbor)

/-- The datagram is for a neighbour, and its long Hellos give the identifier in
its record, or there is none in it. -/
def World.Says (w : World) (server : Sockaddr) (bytes : List UInt8) : Prop :=
  ∃ body, bytes = datagram body ∧ ((∀ dest, Speech w.id dest body) ∨
    ∃ e ∈ w.neighbors.inorder, server = neighborToSockaddr6 e.1.toNeighbor ∧
      Speech w.id e.2.id body)

theorem World.Says.speech {w : World} {server : Sockaddr} {bytes : List UInt8}
    (h : w.Says server bytes) : ∃ body dest, bytes = datagram body ∧ Speech w.id dest body := by
  obtain ⟨body, hbytes, hmute | ⟨e, -, -, hspeech⟩⟩ := h
  · exact ⟨body, 0, hbytes, hmute 0⟩
  · exact ⟨body, e.2.id, hbytes, hspeech⟩

/-- A datagram in the log is one of those. -/
def Obs.Tells (w : World) : Obs → Prop
  | .sendto server bytes => w.Says server bytes
  | _ => True

/-- What a program has done that makes no record. -/
structure Spoken (w w' : World) : Prop where
  sound : w'.Sound
  id : w'.id = w.id
  sublist : w'.neighbors.inorder.Sublist w.neighbors.inorder
  voiced : w'.Voiced
  log : ∃ ext, w'.log = w.log ++ ext ∧ ∀ o ∈ ext, o.Tells w

def Speaks (w w' : World) : Prop := w.Sound → w.Voiced → Spoken w w'

theorem World.Says.mono {w w' : World} {server : Sockaddr} {bytes : List UInt8}
    (h : w'.Says server bytes) (hid : w'.id = w.id)
    (hsub : w'.neighbors.inorder.Sublist w.neighbors.inorder) : w.Says server bytes := by
  obtain ⟨body, hbytes, hmute | ⟨e, he, hserver, hspeech⟩⟩ := h
  · exact ⟨body, hbytes, .inl (hid ▸ hmute)⟩
  · exact ⟨body, hbytes, .inr ⟨e, hsub.subset he, hserver, hid ▸ hspeech⟩⟩

theorem Obs.Tells.mono {w w' : World} {o : Obs} (h : o.Tells w') (hid : w'.id = w.id)
    (hsub : w'.neighbors.inorder.Sublist w.neighbors.inorder) : o.Tells w := by
  cases o with
  | sendto server bytes => exact World.Says.mono h hid hsub
  | _ => trivial

theorem Speaks.refl (w : World) : Speaks w w := fun hw hvoiced =>
  ⟨hw, rfl, List.Sublist.refl _, hvoiced, [], (List.append_nil _).symm,
    fun _ ho => absurd ho List.not_mem_nil⟩

theorem Speaks.trans {u v w : World} (h₁ : Speaks u v) (h₂ : Speaks v w) : Speaks u w := by
  intro hu hvoiced
  have hv := h₁ hu hvoiced
  have hw := h₂ hv.sound hv.voiced
  obtain ⟨e₁, hlog₁, hall₁⟩ := hv.log
  obtain ⟨e₂, hlog₂, hall₂⟩ := hw.log
  refine ⟨hw.sound, hw.id.trans hv.id, hw.sublist.trans hv.sublist, hw.voiced, e₁ ++ e₂, ?_, ?_⟩
  · rw [hlog₂, hlog₁, List.append_assoc]
  · intro o ho
    rcases List.mem_append.mp ho with ho | ho
    · exact hall₁ o ho
    · exact (hall₂ o ho).mono hv.id hv.sublist

/-- No address. -/
def nobody (_ : Sockaddr) : Prop := False

theorem tells_of_hands {w w' : World} (h : Hands nobody w w') :
    ∃ ext, w'.log = w.log ++ ext ∧ ∀ o ∈ ext, o.Tells w := by
  obtain ⟨ext, hlog, hall⟩ := h
  refine ⟨ext, hlog, fun o ho => ?_⟩
  have hto := hall o ho
  cases o with
  | sendto server bytes => exact hto.elim
  | _ => trivial

/-- The messages are as they were. -/
theorem speaks_of_boxes {w w' : World} (h : Boxes w w') (hmsgs : w'.msgs = w.msgs)
    (hlog : ∃ ext, w'.log = w.log ++ ext ∧ ∀ o ∈ ext, o.Tells w) : Speaks w w' := by
  intro hw hvoiced
  refine ⟨hw.of_boxes h, h.id, by rw [h.neighbors], fun e he => ?_, hlog⟩
  rw [h.neighbors] at he
  unfold World.pending
  rw [h.id, hmsgs]
  exact hvoiced e he

/-- Nothing is sent, and only the counters and the streams change. -/
theorem speaks_of_idle {w w' : World} (h : Idle w w') (hhands : Hands nobody w w') :
    Speaks w w' := speaks_of_boxes h.boxes h.msgs (tells_of_hands hhands)

section Rules

variable {α β : Type}

theorem Speaks.bind {m : Peer α} {f : α → Peer β} (hm : Keeps Speaks m)
    (hf : ∀ a, Keeps Speaks (f a)) : Keeps Speaks (m >>= f) :=
  @Keeps.bind _ _ _ Speaks (fun _ _ _ => Speaks.trans) _ _ hm hf

theorem Speaks.pure (a : α) : Keeps Speaks (Pure.pure a : Peer α) := Speaks.refl

theorem Speaks.get : Keeps Speaks (MonadState.get : Peer World) := Speaks.refl

/-- An observation that is no datagram. -/
theorem speaks_note {o : Obs} (ho : ∀ w, o.Tells w) : Keeps Speaks (note o) := fun w =>
  speaks_of_boxes (idle_note o w).boxes rfl
    ⟨[o], rfl, fun _ ho' => List.mem_singleton.mp ho' ▸ ho w⟩

end Rules

theorem filer_speaks : Filer Speaks where
  refl := Speaks.refl
  trans := Speaks.trans
  onMalloc := fun w => speaks_of_idle (quiet_malloc w).idle ((primitive_hands nobody).onMalloc w)
  onGetSeconds := fun w =>
    speaks_of_idle (quiet_getSeconds w).idle ((primitive_hands nobody).onGetSeconds w)
  onRand := fun w => speaks_of_idle (quiet_rand w).idle ((primitive_hands nobody).onRand w)
  onUninit := fun w => speaks_of_idle (quiet_uninit w).idle ((primitive_hands nobody).onUninit w)
  onFault := speaks_note fun _ => trivial
  onSetSyms := fun cell l w => speaks_of_boxes (filer_boxes.onSetSyms cell l w) rfl
    (tells_of_hands ((filer_hands nobody).onSetSyms cell l w))

/-! ### Sending -/

section Sending

variable {w w' : World} {e : NeighborPtr × Ident} {a : Nat}

/-- The message of one record has changed. -/
theorem voiced_of_message (hw : w.Sound) (hvoiced : w.Voiced) (he : e ∈ w.neighbors.inorder)
    (hmsg : e.1.msg = some a) (hid : w'.id = w.id) (hneighbors : w'.neighbors = w.neighbors)
    {m : MessageH} (hmsgs : w'.msgs = fun b => if b = a then some m else w.msgs b)
    (hm : Speech w.id e.2.id m.content) : w'.Voiced := by
  intro e' he'
  rw [hneighbors] at he'
  rw [hid]
  by_cases hsame : e'.1.msg = some a
  · obtain rfl := hw.own e' he' e he a hsame hmsg
    rw [pending_of_content hmsg (by rw [hmsgs]; exact if_pos rfl)]
    exact hm
  · have hpending : w'.pending e'.1.toNeighbor = w.pending e'.1.toNeighbor := by
      unfold World.pending
      cases hbox : e'.1.msg with
      | none => rfl
      | some b =>
        have hb : b ≠ a := fun heq => hsame (heq ▸ hbox)
        rw [Option.bind_some, Option.bind_some, hmsgs]
        dsimp only
        rw [if_neg hb]
    rw [hpending]
    exact hvoiced e' he'

/-- What waits for a record. -/
theorem speech_of_voiced (hvoiced : w.Voiced) (he : e ∈ w.neighbors.inorder)
    (hmsg : e.1.msg = some a) {m : MessageH} (hm : w.msgs a = some m) :
    Speech w.id e.2.id m.content := by
  rw [← pending_of_content hmsg hm]
  exact hvoiced e he

/-- A body for somebody who is no neighbour, without a long Hello, or one for a
neighbour. -/
def Fitting (w : World) (rcpt : Neighbor) (body : List UInt8) : Prop :=
  (rcpt.msg = none ∧ ∀ dest, Speech w.id dest body) ∨
    ∃ e ∈ w.neighbors.inorder, rcpt = e.1.toNeighbor ∧ Speech w.id e.2.id body

theorem Fitting.says {rcpt : Neighbor} {body : List UInt8} (h : Fitting w rcpt body) :
    w.Says (neighborToSockaddr6 rcpt) (datagram body) := by
  rcases h with ⟨-, hmute⟩ | ⟨e, he, rfl, hspeech⟩
  · exact ⟨body, rfl, .inl hmute⟩
  · exact ⟨body, rfl, .inr ⟨e, he, rfl, hspeech⟩⟩

/-- `send_message` says what is waiting, or what it is given. -/
theorem speaks_sendMessage {body : Mem} {size : Nat} (hsize : size ≤ pmtu - 4) {rcpt : Neighbor}
    (hto : Fitting w rcpt (Octets.read body 0 size)) :
    Speaks w (after (sendMessage (messageOf body size) (size + 4) rcpt) w) := by
  have hp := pmtu_eq
  have hdeclared := @declared_messageOf body size (by omega)
  have hcontent := @content_messageOf body size (by omega)
  have hboxes := @boxes_sendMessage (messageOf body size) (by rw [hdeclared]; exact hsize)
    (size + 4) rcpt w
  intro hw hvoiced
  cases hmsg : rcpt.msg with
  | none =>
    rw [sendMessage_direct hmsg] at hboxes ⊢
    refine speaks_of_boxes hboxes rfl ⟨_, rfl, fun o ho => ?_⟩ hw hvoiced
    rw [List.mem_singleton.mp ho, @bytes_messageOf body size (by omega)]
    exact hto.says
  | some a =>
    rcases hto with ⟨hnone, -⟩ | ⟨e, he, rfl, hspeech⟩
    · rw [hnone] at hmsg
      cases hmsg
    obtain ⟨-, m, hm, hbox⟩ := hw.box e he a hmsg
    have hroom := hbox.room
    have hwaiting := speech_of_voiced hvoiced he hmsg hm
    by_cases hfull : m.declared + size > pmtu - 4
    · -- what was waiting is sent, and the body waits instead
      rw [sendMessage_flush hmsg hm (by rw [hdeclared]; exact hfull)
        (by rw [hdeclared]; exact hsize)] at hboxes ⊢
      refine ⟨hw.of_boxes hboxes, rfl, List.Sublist.refl _, ?_, _, rfl, fun o ho => ?_⟩
      · refine voiced_of_message hw hvoiced he hmsg rfl rfl rfl ?_
        rw [content_put_zero _ (by rw [length_content, hdeclared]; omega), hcontent]
        exact hspeech
      · rcases List.mem_cons.mp ho with rfl | ho
        · trivial
        · rw [List.mem_singleton.mp ho, bytes_eq_datagram hbox.magic hbox.version]
          exact ⟨_, rfl, .inr ⟨e, he, rfl, hwaiting⟩⟩
    · rw [sendMessage_append hmsg hm (by rw [hdeclared]; exact Nat.not_lt.mp hfull)] at hboxes ⊢
      refine ⟨hw.of_boxes hboxes, rfl, List.Sublist.refl _, ?_, _, rfl, fun o ho => ?_⟩
      · refine voiced_of_message hw hvoiced he hmsg rfl rfl rfl ?_
        rw [content_put_append _ (by rw [length_content, hdeclared]; omega), hcontent]
        exact hwaiting.append hspeech
      · rw [List.mem_singleton.mp ho]
        trivial

/-- The flush of a record says what was waiting. -/
theorem speaks_flushNeighbor (he : e ∈ w.neighbors.inorder) :
    Speaks w (after (flushNeighbor e.1.toNeighbor) w) := by
  intro hw hvoiced
  have hboxes := boxes_flushNeighbor e.1.toNeighbor w
  cases hmsg : e.1.msg with
  | none =>
    have hnothing : after (flushNeighbor e.1.toNeighbor) w = w := by
      unfold flushNeighbor
      rw [hmsg]
      rfl
    rw [hnothing]
    exact Speaks.refl w hw hvoiced
  | some a =>
    obtain ⟨-, m, hm, hbox⟩ := hw.box e he a hmsg
    by_cases hempty : m.declared = 0
    · rw [flushNeighbor_empty hmsg hm hempty]
      exact Speaks.refl w hw hvoiced
    · rw [flushNeighbor_some hmsg hm hempty] at hboxes ⊢
      refine ⟨hw.of_boxes hboxes, rfl, List.Sublist.refl _, ?_, _, rfl, fun o ho => ?_⟩
      · refine voiced_of_message hw hvoiced he hmsg rfl rfl rfl ?_
        unfold MessageH.content
        rw [(declared_eq_zero_iff _).mpr rfl]
        exact .nil
      · rw [List.mem_singleton.mp ho, bytes_eq_datagram hbox.magic hbox.version]
        exact ⟨_, rfl, .inr ⟨e, he, rfl, speech_of_voiced hvoiced he hmsg hm⟩⟩

end Sending

/-- A walk over a tree whose nodes stay where they are. -/
theorem speaks_walk {visit : Tree → Peer Int} {one : NeighborPtr → Ident → Peer Int}
    {good : World → NeighborPtr × Ident → Prop}
    (hnull : ∀ w, after (visit .null) w = w)
    (hnode : ∀ key val left right w, after (visit (.node key val left right)) w =
      after (visit right) (after (visit left) (after (one key val) w)))
    (hboxes : ∀ key val, Keeps Boxes (one key val)) (hvisit : ∀ t, Keeps Boxes (visit t))
    (hgood : ∀ w w' e, Boxes w w' → good w e → good w' e)
    (hone : ∀ key val w, good w (key, val) → Speaks w (after (one key val) w))
    (t : Tree) {w : World} (hall : ∀ e ∈ t.inorder, good w e) :
    Speaks w (after (visit t) w) := by
  induction t generalizing w with
  | null =>
    rw [hnull]
    exact Speaks.refl w
  | node key val left right ihl ihr =>
    have hkey : good w (key, val) := hall _ (by simp)
    have hfirst := hboxes key val w
    have hleft := hvisit left (after (one key val) w)
    rw [hnode]
    refine (hone key val w hkey).trans ((ihl fun e he => ?_).trans (ihr fun e he => ?_))
    · exact hgood _ _ e hfirst (hall e (by simp [he]))
    · exact hgood _ _ e (hfirst.trans hleft) (hall e (by simp [he]))

/-! ### What is sent -/

/-- A TLV is a piece of a body. -/
theorem speech_bytes {t : Tlv} (hhandled : t.handled = true)
    (hhello : t.type = 2 → t = .shortHello source ∨ t = .longHello source dest) :
    Speech source dest t.bytes := by
  rw [Tlv.bytes_of_handled hhandled]
  apply Piece.speech
  refine .tlv _ _ ⟨Tlv.type_ne_zero hhandled, t.type_lt_nbTlv⟩ t.length_value_le fun htype => ?_
  rcases hhello htype with rfl | rfl
  · exact .inl rfl
  · exact .inr rfl

/-- A body without Hellos is for anybody. -/
def Plain (body : List UInt8) : Prop := ∀ source dest, Speech source dest body

theorem plain_bytes {t : Tlv} (hhandled : t.handled = true) (htype : t.type ≠ 2) :
    Plain t.bytes := fun _ _ => speech_bytes hhandled fun h => absurd h htype

theorem Plain.fitting {body : List UInt8} (h : Plain body) {w : World} {rcpt : Neighbor}
    (hrcpt : rcpt.msg = none ∨ ∃ e ∈ w.neighbors.inorder, rcpt = e.1.toNeighbor) :
    Fitting w rcpt body := by
  rcases hrcpt with hnone | ⟨e, he, hkey⟩
  · exact .inl ⟨hnone, fun dest => h w.id dest⟩
  · exact .inr ⟨e, he, hkey, h w.id e.2.id⟩

/-- `send_to_everyone`, with a body for anybody. -/
theorem speaks_sendToEveryone {body : Mem} {size : Nat} (hsize : size ≤ pmtu - 4)
    (hplain : Plain (Octets.read body 0 size)) (t : Tree) {w : World}
    (ht : ∀ e ∈ t.inorder, e ∈ w.neighbors.inorder) :
    Speaks w (after (sendToEveryone (messageOf body size) (size + 4) t) w) := by
  have hp := pmtu_eq
  have hbuf : (messageOf body size).declared ≤ pmtu - 4 := by
    rw [declared_messageOf body (by omega)]
    exact hsize
  exact @speaks_walk (sendToEveryone (messageOf body size) (size + 4))
    (fun key _ => sendMessage (messageOf body size) (size + 4) key.toNeighbor)
    (fun w e => e ∈ w.neighbors.inorder) (fun _ => rfl) (fun _ _ _ _ _ => rfl)
    (fun _ _ => boxes_sendMessage hbuf _ _) (boxes_sendToEveryone hbuf _)
    (fun _ _ _ hboxes he => hboxes.neighbors ▸ he)
    (fun key val _ he => speaks_sendMessage hsize (hplain.fitting (.inr ⟨(key, val), he, rfl⟩)))
    t w ht

/-- `send_shorthello_everyone`: the potential neighbours have no messages. -/
theorem speaks_sendShorthelloEveryone (t : Tree) : Keeps Speaks (sendShorthelloEveryone t) := by
  intro w hw hvoiced
  have hread : Octets.read (tlvShortHello w.memory.head 0 (pmtu - 4) w.id).1 0 10 =
      (Tlv.shortHello w.id).bytes :=
    (@Built.shortHello w.memory.head 0 (pmtu - 4) w.id (show (0 : Int) < 10 by decide)).eq_bytes
  have hbuf : (messageOf (tlvShortHello w.memory.head 0 (pmtu - 4) w.id).1 (10 : Nat)).declared ≤
      pmtu - 4 := by
    rw [declared_messageOf _ (by decide)]
    decide
  have hsend := @speaks_walk
    (sendToEveryone (messageOf (tlvShortHello w.memory.head 0 (pmtu - 4) w.id).1 (10 : Nat))
      (10 + 4))
    (fun key _ =>
      sendMessage (messageOf (tlvShortHello w.memory.head 0 (pmtu - 4) w.id).1 (10 : Nat))
        (10 + 4) key.toNeighbor)
    (fun v e => e.1.msg = none ∧ v.id = w.id) (fun _ => rfl) (fun _ _ _ _ _ => rfl)
    (fun _ _ => boxes_sendMessage hbuf _ _) (boxes_sendToEveryone hbuf _)
    (fun _ _ _ hboxes he => ⟨he.1, hboxes.id.trans he.2⟩)
    (fun key val v he => speaks_sendMessage (by decide) (.inl ⟨he.1, fun dest => by
      rw [hread, he.2]
      exact speech_bytes rfl fun _ => .inl rfl⟩))
    w.potential (after uninit w) (fun e he => ⟨hw.direct e he, rfl⟩)
  exact ((filer_speaks.onUninit w).trans hsend) hw hvoiced

/-- `send_hello_everyone`: every neighbour is told its own identifier. -/
theorem speaks_sendHelloEveryone (t : Tree) {w : World}
    (ht : ∀ e ∈ t.inorder, e ∈ w.neighbors.inorder) :
    Speaks w (after (sendHelloEveryone t) w) := by
  have hbuf : ∀ (mem : Mem) (val : Ident) (id : UInt64),
      (messageOf (tlvLongHello mem 0 (pmtu - 4) id val.id).1
        (tlvLongHello mem 0 (pmtu - 4) id val.id).2).declared ≤ pmtu - 4 :=
    fun mem val id => le_trans (le_of_eq (declared_longHello mem id val.id)) (by decide)
  refine @speaks_walk sendHelloEveryone sendHello (fun w e => e ∈ w.neighbors.inorder)
    (fun _ => rfl) (fun _ _ _ _ _ => rfl)
    (fun _ val => Boxes.bind (Quiet.boxes quiet_uninit) fun mem =>
      Boxes.bind (Quiet.boxes Quiet.get) fun w => boxes_sendMessage (hbuf mem val w.id) _ _)
    boxes_sendHelloEveryone (fun _ _ _ hboxes he => hboxes.neighbors ▸ he)
    (fun key val v he => ?_) t w ht
  have hread : Octets.read (tlvLongHello v.memory.head 0 (pmtu - 4) v.id val.id).1 0 18 =
      (Tlv.longHello v.id val.id).bytes :=
    (@Built.longHello v.memory.head 0 (pmtu - 4) v.id val.id
      (show (0 : Int) < 18 by decide)).eq_bytes
  have hafter : after (sendHello key val) v =
      after (sendMessage (messageOf (tlvLongHello v.memory.head 0 (pmtu - 4) v.id val.id).1
        (18 : Nat)) (18 + 4) key.toNeighbor) (after uninit v) := rfl
  rw [hafter]
  have hto : Fitting (after uninit v) key.toNeighbor (Octets.read
      (tlvLongHello v.memory.head 0 (pmtu - 4) v.id val.id).1 0 18) := by
    rw [hread]
    exact .inr ⟨(key, val), he, rfl, speech_bytes rfl fun _ => .inr rfl⟩
  exact (filer_speaks.onUninit v).trans (speaks_sendMessage (by decide) hto)

/-- `send_to_everyone_now`. -/
theorem speaks_sendToEveryoneNow (t : Tree) {w : World}
    (ht : ∀ e ∈ t.inorder, e ∈ w.neighbors.inorder) :
    Speaks w (after (sendToEveryoneNow t) w) :=
  @speaks_walk sendToEveryoneNow (fun key _ => flushNeighbor key.toNeighbor)
    (fun w e => e ∈ w.neighbors.inorder) (fun _ => rfl) (fun _ _ _ _ _ => rfl)
    (fun _ _ => boxes_flushNeighbor _) boxes_sendToEveryoneNow
    (fun _ _ _ hboxes he => hboxes.neighbors ▸ he)
    (fun _ _ _ he => speaks_flushNeighbor he) t w ht

/-- The body of `send_symetrical_everyone` grows by whole TLVs. -/
theorem plain_tlvNeighbour {body : Mem} {size bufsize : Nat}
    (hplain : Plain (Octets.read body 0 size)) (ngb : Neighbor)
    (hroom : 0 ≤ (tlvNeighbour body size bufsize ngb).2) :
    Plain (Octets.read (tlvNeighbour body size bufsize ngb).1 0 (size + 20)) := by
  have hpos : 0 < (tlvNeighbour body size bufsize ngb).2 := by
    unfold tlvNeighbour at hroom ⊢
    split at hroom
    · rename_i hlarge
      rw [if_pos hlarge]
      exact (by decide : (0 : Int) < 20)
    · exact absurd (show (0 : Int) ≤ -1 from hroom) (by decide)
  rw [tlvNeighbour_spec hpos, ← length_neighbourTlv ngb.ip ngb.port, read_write_append]
  exact fun source dest => (hplain source dest).append
    (plain_bytes (t := .neighbour ngb.ip ngb.port) rfl (show (3 : UInt8) ≠ 2 by decide) source dest)

theorem speaks_symetricalLoop (people : Tree) (l : List NgbEntry) (body : Mem) {size : Nat}
    (hsize : size ≤ pmtu - 4) (hplain : Plain (Octets.read body 0 size)) (res count : Int)
    {w : World} (hpeople : ∀ e ∈ people.inorder, e ∈ w.neighbors.inorder) :
    Speaks w (after (symetricalLoop people l body size res count) w) ∧
      (value (symetricalLoop people l body size res count) w).2.1 ≤ pmtu - 4 ∧
      Plain (Octets.read (value (symetricalLoop people l body size res count) w).1 0
        (value (symetricalLoop people l body size res count) w).2.1) := by
  have hp := pmtu_eq
  induction l generalizing body size res count w with
  | nil => exact ⟨Speaks.refl _, hsize, hplain⟩
  | cons tmp rest ih =>
    have hroom : toSize ((pmtu : Int) - 4 - size) = pmtu - 4 - size := by
      rw [toSize_of_nonneg (by omega) (by omega)]
      omega
    have hbuf : (messageOf body size).declared ≤ pmtu - 4 := by
      rw [declared_messageOf body (by omega)]
      exact hsize
    unfold symetricalLoop
    by_cases hfull : (tlvNeighbour body size (toSize ((pmtu : Int) - 4 - size))
        tmp.sym.toNeighbor).2 < 0
    · -- the body is sent, and the TLV starts a new one
      simp only [if_pos hfull]
      have hsend := speaks_sendToEveryone hsize hplain people hpeople
      have hboxes := boxes_sendToEveryone hbuf (size + 4) people w
      have hnew : Plain (Octets.read (tlvNeighbour body 0 (pmtu - 4) tmp.sym.toNeighbor).1 0 20) :=
        @plain_tlvNeighbour body 0 (pmtu - 4) (fun _ _ => .nil) tmp.sym.toNeighbor
          (show (0 : Int) ≤ 20 by decide)
      obtain ⟨hspeaks, hsize', hplain'⟩ := @ih (tlvNeighbour body 0 (pmtu - 4) tmp.sym.toNeighbor).1
        20 (by omega) hnew (value (sendToEveryone (messageOf body size) (size + 4) people) w)
        (count + 1) (after (sendToEveryone (messageOf body size) (size + 4) people) w)
        (fun e he => hboxes.neighbors ▸ hpeople e he)
      exact ⟨hsend.trans hspeaks, hsize', hplain'⟩
    · -- the guard asks for more than the 20 bytes that are stored
      simp only [if_neg hfull]
      have hfits : size + 20 ≤ pmtu - 4 := by
        rw [hroom] at hfull
        unfold tlvNeighbour at hfull
        by_cases h21 : pmtu - 4 - size > 21
        · omega
        · simp [if_neg h21] at hfull
      exact ih _ hfits (plain_tlvNeighbour hplain _ (not_lt.mp hfull)) _ _ hpeople

theorem speaks_sendSymetricalEveryone {w : World} :
    Speaks w (after (sendSymetricalEveryone w.neighbors) w) := by
  have hlist := filer_speaks.keeps_getSymmetrical w.neighbors w
  have hboxes := Quiet.boxes (primitive_quiet.keeps_getSymmetrical w.neighbors) w
  unfold sendSymetricalEveryone
  rw [after_bind, value_get, after_get, after_bind]
  generalize value (getSymmetrical w.neighbors) w = sym
  generalize after (getSymmetrical w.neighbors) w = u at hlist hboxes ⊢
  cases sym with
  | none => exact hlist
  | some sym =>
    have hpeople : ∀ e ∈ w.neighbors.inorder, e ∈ u.neighbors.inorder :=
      fun e he => hboxes.neighbors ▸ he
    obtain ⟨hspeaks, hsize, hplain⟩ := @speaks_symetricalLoop w.neighbors sym.contents (fun _ => 0)
      0 (Nat.zero_le _) (fun _ _ => .nil) 0 0 u hpeople
    have hloop := (boxes_symetricalLoop w.neighbors sym.contents (fun _ => 0)
      (Nat.zero_le (pmtu - 4)) 0 0).1 u
    refine hlist.trans ?_
    show Speaks u (after (symetricalLoop w.neighbors sym.contents (fun _ => 0) 0 0 0 >>= _) u)
    rw [after_bind]
    refine hspeaks.trans ?_
    generalize value (symetricalLoop w.neighbors sym.contents (fun _ => 0) 0 0 0) u = r
      at hsize hplain
    generalize after (symetricalLoop w.neighbors sym.contents (fun _ => 0) 0 0 0) u = v at hloop ⊢
    obtain ⟨body, size, res, count⟩ := r
    dsimp only at hsize hplain ⊢
    rw [after_bind]
    have hcount :
        Speaks v (after (modify fun w => { w with nbSymetrical := count } : Peer PUnit) v) :=
      speaks_of_boxes (.of_same { Elapsed.refl v with id := rfl } rfl rfl rfl) rfl
        ⟨[], (List.append_nil _).symm, fun _ ho => absurd ho List.not_mem_nil⟩
    refine hcount.trans ?_
    split
    · exact speaks_sendToEveryone hsize hplain w.neighbors
        fun e he => hloop.neighbors ▸ hpeople e he
    · exact Speaks.refl _

/-- The Ack. -/
theorem speaks_sendAck (index : DataIndex) {peer : Neighbor} (hpeer : peer.msg = none) :
    Keeps Speaks (sendAck index peer) := by
  intro w
  have hread : Octets.read (tlvAck w.memory.head 0 (pmtu - 4) index.id index.nonce).1 0 14 =
      (Tlv.ack index.id index.nonce).bytes :=
    (@Built.ack w.memory.head 0 (pmtu - 4) index.id index.nonce
      (show (0 : Int) < 14 by decide)).eq_bytes
  have hplain :
      Plain (Octets.read (tlvAck w.memory.head 0 (pmtu - 4) index.id index.nonce).1 0 14) := by
    rw [hread]
    exact plain_bytes (t := .ack index.id index.nonce) rfl (show (5 : UInt8) ≠ 2 by decide)
  have hafter : after (sendAck index peer) w = after (sendMessage (messageOf
      (tlvAck w.memory.head 0 (pmtu - 4) index.id index.nonce).1 (14 : Nat)) (14 + 4) peer)
        (after uninit w) := rfl
  rw [hafter]
  exact (filer_speaks.onUninit w).trans
    (speaks_sendMessage (by decide) (hplain.fitting (.inl hpeer)))

/-- What `send_data` takes of a TLV. -/
theorem plain_take {tlv value : List UInt8} {size : UInt8} (htlv : tlv = 4 :: size :: value)
    (hlength : value.length = size.toNat) {n : Nat} (hn : toChar size + 2 = n) :
    n ≤ tlv.length ∧ Plain (tlv.take n) := by
  have hlt := size.toNat_lt
  rw [toChar_eq] at hn
  subst htlv
  rcases n with - | - | n
  · exact ⟨Nat.zero_le _, fun _ _ => .nil⟩
  · exact ⟨Nat.le_add_left _ _, fun _ _ => Piece.cut.speech⟩
  · have hsize : UInt8.ofNat value.length = size := by
      rw [hlength]
      exact UInt8.ofNat_toNat
    have hn' : n = value.length := by
      split at hn <;> omega
    have hall : (4 :: size :: value).take (n + 1 + 1) = 4 :: UInt8.ofNat value.length :: value := by
      rw [hsize, List.take_succ_cons, List.take_succ_cons, List.take_of_length_le (by omega)]
    refine ⟨by simp [hn'], fun source dest => ?_⟩
    rw [hall]
    apply Piece.speech
    exact .tlv 4 value (by decide) (by omega) fun h => absurd h (by decide)

theorem speaks_sendData {w : World} {e : NeighborPtr × Ident} (he : e ∈ w.neighbors.inorder)
    {tlv value : List UInt8} {size : UInt8} (htlv : tlv = 4 :: size :: value)
    (hlength : value.length = size.toNat) :
    Speaks w (after (sendData tlv e.1.toNeighbor) w) := by
  have hp := pmtu_eq
  have hgetD : tlv.getD 1 0 = size := by
    rw [htlv]
    rfl
  by_cases hneg : toChar (tlv.getD 1 0) + 2 < 0
  · unfold sendData
    extract_lets bodyLength
    rw [if_pos hneg]
    exact Speaks.bind filer_speaks.onFault (fun _ => Speaks.pure _) w
  · obtain ⟨n, hn⟩ := Int.eq_ofNat_of_zero_le (Int.not_lt.mp hneg)
    have hchar := toChar_lt (tlv.getD 1 0)
    obtain ⟨hle, hplain⟩ := plain_take htlv hlength (hgetD ▸ hn)
    have hbody : Octets.read (write w.memory.head 0 (tlv.take n)) 0 n = tlv.take n :=
      read_write_eq _ _ (by rw [List.length_take, Nat.min_eq_left hle])
    rw [after_sendData hn]
    refine (filer_speaks.onUninit w).trans (speaks_sendMessage (by omega) (Plain.fitting ?_ ?_))
    · rw [hbody]
      exact hplain
    · exact .inr ⟨e, he, rfl⟩

/-! ### The other functions -/

/-- The messages of the records that stay. -/
theorem speaks_removeNeighbor (key : Neighbor) : Keeps Speaks (removeNeighbor key) := by
  intro w hw hvoiced
  obtain ⟨t, -, hinorder, hafter⟩ := after_removeNeighbor hw.neighbors key
  obtain ⟨hsound, hsub⟩ := settles_removeNeighbor key w hw
  have hlater := registrar_later.keeps_removeNeighbor key w
  have hhands := (registrar_hands nobody).keeps_removeNeighbor key w
  have hmsgs := @msgs_removeNeighbor w hw key
  refine ⟨hsound, hlater.id, hsub, fun e he => ?_, tells_of_hands hhands⟩
  have hmem : e ∈ w.neighbors.inorder ∧ entryPlace e ≠ key.place := by
    rw [hafter] at he
    rw [← SortedAssoc.mem_erase_iff entryPlace, ← hinorder]
    exact he
  have hpending : (after (removeNeighbor key) w).pending e.1.toNeighbor =
      w.pending e.1.toNeighbor := by
    unfold World.pending
    cases hbox : e.1.msg with
    | none => rfl
    | some a => rw [Option.bind_some, Option.bind_some, hmsgs hmem.1 hmem.2 hbox]
  rw [hpending, hlater.id]
  exact hvoiced e hmem.1

theorem speaks_removeNeighborEverywhere (peer : NeighborPtr) :
    Keeps Speaks (removeNeighborEverywhere peer) :=
  Speaks.bind Speaks.get fun _ => Speaks.bind (filer_speaks.keeps_removeFromFloods _ _) fun _ =>
    Speaks.bind (speaks_removeNeighbor _) fun _ => Speaks.pure _

/-- A turn of `send_goaway_asymetrical`. -/
theorem speaks_expire {body : Mem} {size : Nat} (hsize : size ≤ pmtu - 4)
    (hplain : Plain (Octets.read body 0 size)) (sym : NeighborPtr) :
    Keeps Speaks (expire (messageOf body size) (size + 4) sym) := by
  intro w
  rw [after_expire]
  split
  · rename_i hown
    obtain ⟨e, he, rfl⟩ := List.mem_map.mp hown
    have hnote := speaks_note (o := .dropping e.1 (w.pending e.1.toNeighbor)) fun _ => trivial
    refine (hnote w).trans ?_
    refine Speaks.trans ?_ (speaks_removeNeighborEverywhere _ _)
    exact speaks_sendMessage hsize (hplain.fitting (.inr ⟨e, he, rfl⟩))
  · exact filer_speaks.onFault w

theorem plain_goaway (mem : Mem) :
    Plain (Octets.read (tlvGoaway mem 0 (pmtu - 4) 2 (fun _ => 0) 0).1 0 3) := by
  have hread := (@Built.goaway mem 0 (pmtu - 4) 2 (fun _ => 0) 0 (by decide)
    (show (0 : Int) < 3 by decide)).eq_bytes
  rw [show 3 = (0 : UInt8).toNat + 3 from rfl, hread]
  exact plain_bytes rfl (show (6 : UInt8) ≠ 2 by decide)

theorem plain_inactive (mem : Mem) :
    Plain (Octets.read (tlvGoaway mem 0 (pmtu - 4) 2 (ofBytes inactiveText) 24).1 0 27) := by
  have hread := (@Built.goaway mem 0 (pmtu - 4) 2 (ofBytes inactiveText) 24 (by decide)
    (show (0 : Int) < 27 by decide)).eq_bytes
  rw [show 27 = (24 : UInt8).toNat + 3 from rfl, hread]
  exact plain_bytes rfl (show (6 : UInt8) ≠ 2 by decide)

theorem speaks_handleInactive (sym : NeighborPtr) : Keeps Speaks (handleInactive sym) := by
  intro w
  rw [after_handleInactive]
  exact (filer_speaks.onUninit w).trans
    (speaks_expire (by decide) (plain_inactive w.memory.head) sym (after uninit w))

/-- A turn of the flooding loop. -/
theorem speaks_floodTurn {w : World} (hwhole : w.Whole) (flood : Nat) (currentTime : Int)
    (tmp : Nat) : Speaks w (after (floodTurn flood currentTime tmp) w) := by
  have hsend : ∀ f nw, w.under flood tmp = some (f, nw) → w.neighbors.owns nw.sym →
      Speaks w (after (sendData f.data nw.sym.toNeighbor) w) := by
    intro f nw hunder hown
    obtain ⟨e, he, hkey⟩ := List.mem_map.mp hown
    obtain ⟨size, value, hdata, hlength⟩ := hwhole flood f (under_eq_some hunder).1
    rw [← hkey]
    exact speaks_sendData he hdata hlength
  cases floodTurn_cases flood currentTime tmp w with
  | absent _ hw =>
    rw [hw]
    exact filer_speaks.onFault w
  | inactive f nw _ _ hw =>
    rw [hw]
    exact speaks_handleInactive nw.sym w
  | dangling f nw _ _ _ _ hw =>
    rw [hw]
    exact filer_speaks.onFault w
  | refused f nw hunder _ _ hown _ hw =>
    rw [hw]
    exact hsend f nw hunder hown
  | sent f nw hunder _ _ hown _ hw =>
    rw [hw]
    exact (hsend f nw hunder hown).trans (filer_speaks.keeps_requeue _ _ _ _ _ _)
  | early f nw _ _ _ hw =>
    rw [hw]
    exact speaks_of_boxes (.of_same { Elapsed.refl w with id := rfl } rfl rfl rfl) rfl
      ⟨[], (List.append_nil _).symm, fun _ ho => absurd ho List.not_mem_nil⟩

theorem speaks_printOnScreen (data : Mem) (off size : Nat) :
    Keeps Speaks (printOnScreen data off size) := fun w =>
  speaks_of_idle (prints_printOnScreen data off size w).idle (hands_printOnScreen data off size w)

theorem speaks_addMessageToFlood (msgSend : Mem) (size : UInt8) (toDelete : Option NeighborPtr) :
    Keeps Speaks (addMessageToFlood msgSend size toDelete) := by
  apply filer_speaks.keeps_addMessageToFlood
  · exact fun _ _ => speaks_note fun _ => trivial
  · intro l w
    have hlater : Later w { w with dataf := l } := later_of_same rfl rfl rfl rfl rfl
    exact speaks_of_boxes (.of_same hlater.elapsed rfl rfl rfl) rfl
      ⟨[], (List.append_nil _).symm, fun _ ho => absurd ho List.not_mem_nil⟩

theorem speaks_localMessage (got : Option (List UInt8)) : Keeps Speaks (localMessage got) := by
  rw [localMessage_eq]
  refine Speaks.bind (filer_speaks.keeps_composeText got) fun _ => ?_
  exact Speaks.bind (speaks_addMessageToFlood _ _ _) fun _ => speaks_printOnScreen _ _ _

theorem speaks_data (tlv : Mem) (length : UInt8) {peer : Neighbor} (hpeer : peer.msg = none) :
    Keeps Speaks (data tlv length peer) := by
  refine Speaks.bind (speaks_note fun _ => trivial) fun _ => ?_
  refine Speaks.bind (speaks_note fun _ => trivial) fun _ => ?_
  refine Speaks.bind (speaks_sendAck _ hpeer) fun _ => ?_
  refine Speaks.bind (filer_speaks.keeps_getFlood _) fun ent => ?_
  cases ent with
  | some ent =>
    exact Speaks.bind (filer_speaks.keeps_removeNeighborFromFlood _ _) fun _ => Speaks.pure _
  | none =>
    refine Speaks.bind (speaks_note fun _ => trivial) fun _ => ?_
    refine Speaks.bind (speaks_addMessageToFlood _ _ _) fun _ => ?_
    refine Speaks.bind (speaks_note fun _ => trivial) fun _ => Keeps.ite (fun _ => ?_) fun _ =>
      Speaks.pure _
    exact Speaks.bind (speaks_note fun _ => trivial) fun _ => speaks_printOnScreen _ _ _

theorem speaks_addPotential {w : World} {key : Neighbor}
    (hkey : getIdent key w.neighbors = none) (val : Ident) :
    Speaks w (after (addPotential key val) w) := by
  intro hw hvoiced
  obtain ⟨hsound, hsub⟩ := settles_addPotential hkey val hw
  have hadd := potentialAdded hw.potential key val
  refine ⟨hsound, hadd.id, hsub, fun e he => ?_,
    tells_of_hands ((registrar_hands nobody).keeps_addPotential key val w)⟩
  unfold World.pending
  rw [hadd.id, hadd.msgs]
  exact hvoiced e (hadd.neighbors ▸ he)

theorem speaks_neighbour (tlv : Mem) (length : UInt8) (peer : Neighbor) :
    Keeps Speaks (neighbour tlv length peer) := by
  refine Speaks.bind (speaks_note fun _ => trivial) fun _ => ?_
  refine Speaks.bind (speaks_note fun _ => trivial) fun _ => ?_
  intro w
  simp only [after_bind, value_get, after_get]
  cases hkey : getIdent (keyAt tlv) w.neighbors with
  | some _ => exact Speaks.refl _
  | none =>
    refine (filer_speaks.onGetSeconds w).trans ?_
    exact speaks_addPotential (w := after getSeconds w) hkey _

theorem speaks_goaway (tlv : Mem) (length : UInt8) (peer : Neighbor) :
    Keeps Speaks (goaway tlv length peer) := by
  refine Speaks.bind (speaks_note fun _ => trivial) fun _ => ?_
  refine Speaks.bind (speaks_note fun _ => trivial) fun _ => ?_
  refine Speaks.bind (Speaks.bind (speaks_note fun _ => trivial) fun _ => ?_) fun _ =>
    Speaks.bind (speaks_removeNeighborEverywhere _) fun _ => Speaks.pure _
  refine Keeps.ite (fun _ => filer_speaks.onFault) fun _ => ?_
  exact Speaks.bind (speaks_note fun _ => trivial) fun _ => speaks_note fun _ => trivial

/-- A potential neighbour has no message. -/
theorem speaks_removePotential (key : Neighbor) : Keeps Speaks (removePotential key) := by
  intro w hw hvoiced
  obtain ⟨hsound, hsub⟩ := settles_removePotential key w hw
  obtain ⟨t, -, -, hafter⟩ := after_removePotential hw.potential hw.direct key
  rw [hafter] at hsound ⊢
  exact ⟨hsound, rfl, List.Sublist.refl _, hvoiced, [], (List.append_nil _).symm,
    fun _ ho => absurd ho List.not_mem_nil⟩

/-! ### Hellos -/

/-- A record after `add_neighbor`: an old one, with its identifier, or a new one,
for which nothing waits. -/
theorem voiced_addNeighbor {w : World} (hw : w.Sound) (hvoiced : w.Voiced) (peer : Neighbor)
    (val : Ident) : (after (addNeighbor peer val) w).Voiced := by
  have hadd := neighborAdded hw.neighbors peer val
  obtain ⟨msg, htree, -, hfresh⟩ := hadd.tree
  generalize after (addNeighbor peer val) w = v at hadd htree hfresh ⊢
  have hold : ∀ e ∈ w.neighbors.inorder, v.pending e.1.toNeighbor = w.pending e.1.toNeighbor := by
    intro e he
    unfold World.pending
    cases hbox : e.1.msg with
    | none => rfl
    | some a => rw [Option.bind_some, Option.bind_some, hadd.msgs a (hw.box e he a hbox).1]
  intro e he
  rw [hadd.id]
  rcases htree.mem hw.neighbors he with ⟨he, -⟩ | ⟨hrc, -, a, -, -, rfl⟩ | ⟨-, e₀, he₀, -, rfl⟩
  · rw [hold e he]
    exact hvoiced e he
  · -- a new record: nothing waits in its message
    have hempty : v.pending { peer with msg := msg } = [] := by
      unfold World.pending
      cases hbox : msg with
      | none => rfl
      | some b =>
        obtain ⟨m, hm, -, hzero⟩ := (hfresh b hbox).2.2 hrc
        have hcontent : m.content = [] := by
          unfold MessageH.content
          rw [hzero]
          rfl
        rw [Option.bind_some, hm]
        exact hcontent
    show Speech w.id val.id (v.pending { peer with msg := msg })
    rw [hempty]
    exact .nil
  · have hsame := hold e₀ he₀
    show Speech w.id e₀.2.id (v.pending e₀.1.toNeighbor)
    rw [hsame]
    exact hvoiced e₀ he₀

/-- What a program has done that may make a record: its datagrams are for the
neighbours before or for those after. -/
structure Spoke (w w' : World) : Prop where
  sound : w'.Sound
  id : w'.id = w.id
  voiced : w'.Voiced
  log : ∃ ext, w'.log = w.log ++ ext ∧ ∀ o ∈ ext, o.Tells w ∨ o.Tells w'

theorem Spoken.spoke {w w' : World} (h : Spoken w w') : Spoke w w' where
  sound := h.sound
  id := h.id
  voiced := h.voiced
  log := by
    obtain ⟨ext, hlog, hall⟩ := h.log
    exact ⟨ext, hlog, fun o ho => .inl (hall o ho)⟩

theorem Spoken.trans_spoke {u v w : World} (h₁ : Spoken u v) (h₂ : Spoke v w) : Spoke u w where
  sound := h₂.sound
  id := h₂.id.trans h₁.id
  voiced := h₂.voiced
  log := by
    obtain ⟨e₁, hlog₁, hall₁⟩ := h₁.log
    obtain ⟨e₂, hlog₂, hall₂⟩ := h₂.log
    refine ⟨e₁ ++ e₂, ?_, fun o ho => ?_⟩
    · rw [hlog₂, hlog₁, List.append_assoc]
    · rcases List.mem_append.mp ho with ho | ho
      · exact .inl (hall₁ o ho)
      · exact (hall₂ o ho).imp_left fun htells => htells.mono h₁.id h₁.sublist

/-- The greetings go out when the new record is there. -/
theorem spoke_acceptHello {w : World} (hw : w.Sound) (hvoiced : w.Voiced) (val : Ident)
    (peer : Neighbor) : Spoke w (after (acceptHello val peer) w) := by
  obtain ⟨t, hsound, hafter⟩ := acceptHello_cases hw val peer
  have hvoiced' := voiced_addNeighbor hw hvoiced peer val
  have hadd := neighborAdded hw.neighbors peer val
  obtain ⟨ext, hlog, hall⟩ := tells_of_hands ((registrar_hands nobody).keeps_addNeighbor peer val w)
  generalize after (addNeighbor peer val) w = v at hadd hsound hafter hvoiced' hlog
  have hstored : Spoke w { v with potential := t } :=
    ⟨hsound, hadd.id, hvoiced', ext, hlog, fun o ho => .inl (hall o ho)⟩
  rcases hafter with hafter | hafter
  · rw [hafter]
    exact hstored
  · have hsend := speaks_sendHelloEveryone (w := { v with potential := t }) v.neighbors
      (fun _ he => he) hsound hvoiced'
    have hsame : (after (sendHelloEveryone v.neighbors) { v with potential := t }).neighbors =
        v.neighbors := (boxes_sendHelloEveryone v.neighbors _).neighbors
    rw [hafter]
    obtain ⟨ext', hlog', hall'⟩ := hsend.log
    refine ⟨hsend.sound, hsend.id.trans hadd.id, hsend.voiced, ext ++ ext', ?_, fun o ho => ?_⟩
    · rw [hlog', show ({ v with potential := t } : World).log = v.log from rfl, hlog,
        List.append_assoc]
    · rcases List.mem_append.mp ho with ho | ho
      · exact .inl (hall o ho)
      · -- the greeting changes no record
        refine .inr ((hall' o ho).mono hsend.id.symm ?_)
        rw [hsame]

theorem speaks_readHello (length : UInt8) : Keeps Speaks (readHello length) :=
  Speaks.bind filer_speaks.onGetSeconds fun _ => Speaks.bind (speaks_note fun _ => trivial) fun _ =>
    Keeps.ite (fun _ => speaks_note fun _ => trivial) fun _ => Speaks.pure _

theorem spoke_hello {w : World} (hw : w.Sound) (hvoiced : w.Voiced) (tlv : Mem)
    (length : UInt8) (peer : Neighbor) : Spoke w (after (hello tlv length peer) w) := by
  have hread := speaks_readHello length w hw hvoiced
  rw [after_hello]
  cases helloIdent w.id tlv length w.clock.head with
  | none => exact hread.spoke
  | some val => exact hread.trans_spoke (spoke_acceptHello hread.sound hread.voiced val peer)

/-! ### Moves -/

/-- **What a move says.** -/
theorem Move.Does.spoke {m : Move} {w w' : World} (h : m.Does w w') (hidle : m ≠ .idle)
    (hw : w.Sound) (hvoiced : w.Voiced) (hwhole : w.Whole) : Spoke w w' := by
  have hall : ∀ e ∈ w.neighbors.inorder, e ∈ w.neighbors.inorder := fun _ he => he
  cases m with
  | idle => exact absurd rfl hidle
  | tlv type buf length client =>
    rw [show w' = _ from h]
    unfold handleTlv
    split
    · exact (Speaks.refl w hw hvoiced).spoke
    · exact (Speaks.refl w hw hvoiced).spoke
    · exact spoke_hello hw hvoiced buf length _
    · exact (speaks_neighbour buf length _ w hw hvoiced).spoke
    · exact (speaks_data buf length (sockaddr6ToNeighbor_msg client) w hw hvoiced).spoke
    · have hack : Keeps Speaks (ack buf length (sockaddr6ToNeighbor client)) :=
        Speaks.bind (speaks_note fun _ => trivial) fun _ =>
          Speaks.bind (speaks_note fun _ => trivial) fun _ =>
            Speaks.bind (filer_speaks.keeps_removeNeighborFromFlood _ _) fun _ => Speaks.pure _
      exact (hack w hw hvoiced).spoke
    · exact (speaks_goaway buf length _ w hw hvoiced).spoke
    · have hwarning : Keeps Speaks (warning buf length (sockaddr6ToNeighbor client)) :=
        Speaks.bind (speaks_note fun _ => trivial) fun _ =>
          Speaks.bind (speaks_note fun _ => trivial) fun _ => speaks_note fun _ => trivial
      exact (hwarning w hw hvoiced).spoke
  | say got =>
    rw [show w' = _ from h]
    exact (speaks_localMessage got w hw hvoiced).spoke
  | hellos =>
    rw [show w' = _ from h]
    exact (speaks_sendHelloEveryone _ hall hw hvoiced).spoke
  | advertise =>
    rw [show w' = _ from h]
    exact (speaks_sendSymetricalEveryone hw hvoiced).spoke
  | shortHellos =>
    rw [show w' = _ from h]
    exact (speaks_sendShorthelloEveryone _ w hw hvoiced).spoke
  | forget key =>
    rw [show w' = _ from h]
    exact (speaks_removePotential key w hw hvoiced).spoke
  | expire mem sym =>
    rw [show w' = _ from h]
    exact (speaks_expire (by decide) (plain_goaway mem) sym w hw hvoiced).spoke
  | turn flood currentTime tmp =>
    rw [show w' = _ from h]
    exact (speaks_floodTurn hwhole flood currentTime tmp hw hvoiced).spoke
  | flush =>
    rw [show w' = _ from h]
    exact (speaks_sendToEveryoneNow _ hall hw hvoiced).spoke

/-! ### Runs -/

/-- The invariant of what is said. -/
structure World.Honest (w : World) : Prop where
  sound : w.Sound
  register : w.Register
  voiced : w.Voiced
  whole : w.Whole

theorem honest_of_initial {w : World} (h : w.Initial) : w.Honest where
  sound := sound_of_initial h
  register := register_of_initial h
  voiced := by
    intro e he
    rw [h.neighbors] at he
    exact absurd he List.not_mem_nil
  whole := whole_of_initial h

/-- **Every move keeps it.** -/
theorem Lawful.honest {P : UInt8 → Mem → UInt8 → Sockaddr → Prop} {m : Move} {w w' : World}
    (h : Lawful P m w w') (hw : w.Honest) : w'.Honest where
  sound := h.does.sound hw.sound
  register := (h.does.files hw.sound hw.register).1
  voiced := by
    by_cases hidle : m = .idle
    · have hstill := h.still hidle
      intro e he
      unfold World.pending
      rw [hstill.neighbors] at he
      rw [hstill.id, hstill.msgs]
      exact hw.voiced e he
    · exact (h.does.spoke hidle hw.sound hw.voiced hw.whole).voiced
  whole := h.does.whole hw.sound hw.register hw.whole

/-- What is sent in a move is said to a record before or after it. -/
theorem Lawful.tells {P : UInt8 → Mem → UInt8 → Sockaddr → Prop} {m : Move} {w w' : World}
    (h : Lawful P m w w') (hw : w.Honest) :
    ∃ ext, w'.log = w.log ++ ext ∧ ∀ o ∈ ext, o.Tells w ∨ o.Tells w' := by
  by_cases hidle : m = .idle
  · obtain ⟨ext, hlog, hall⟩ := (h.still hidle).kept
    refine ⟨ext, hlog, fun o ho => .inl ?_⟩
    have hkept := hall o ho
    cases o with
    | sendto server bytes => exact hkept.elim
    | _ => trivial
  · exact (h.does.spoke hidle hw.sound hw.voiced hw.whole).log

/-- In every run the invariant holds, and whatever has been sent comes from this
peer. -/
theorem honest_of_run {P : UInt8 → Mem → UInt8 → Sockaddr → Prop} {w₀ w : World}
    {tr : List (World × Move)} (hinit : w₀.Initial) (hrun : Run (Lawful P) w₀ tr w) :
    w.Honest ∧ ∀ server bytes, .sendto server bytes ∈ w.log →
      ∃ body dest, bytes = datagram body ∧ Speech w.id dest body := by
  induction hrun with
  | nil =>
    refine ⟨honest_of_initial hinit, fun server bytes hsent => ?_⟩
    rw [hinit.log] at hsent
    exact absurd hsent List.not_mem_nil
  | @snoc tr u w m hrun hmove ih =>
    obtain ⟨hu, hold⟩ := ih
    have hid : w.id = u.id := hmove.does.elapsed.id
    refine ⟨hmove.honest hu, fun server bytes hsent => ?_⟩
    obtain ⟨ext, hlog, hall⟩ := hmove.tells hu
    rw [hlog] at hsent
    rcases List.mem_append.mp hsent with hsent | hsent
    · rw [hid]
      exact hold server bytes hsent
    · rcases hall _ hsent with hsays | hsays
      · obtain ⟨body, dest, hbytes, hspeech⟩ := World.Says.speech hsays
        exact ⟨body, dest, hbytes, hid ▸ hspeech⟩
      · exact World.Says.speech hsays

end FloodPeer
