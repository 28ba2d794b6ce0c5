/-
FloodPeer/Wording.lean

What a peer may say, and to whom.

`P server type value` is a rule: a TLV of this type and value may be said to the
address `server`.  A body is `Worded` by a rule when it is made of TLVs that the
rule allows, and of the single byte that `send_data` takes of a datum whose
length byte is 255.  `Utters P`: what waits for the neighbours and what is sent
stays within the rule.  Each function that sends keeps to any rule that allows
the TLVs it makes.
-/
import FloodPeer.Speech

namespace FloodPeer

open Octets StateLogic

/-! ### Bodies -/

/-- A body made of TLVs that `P` allows. -/
inductive Worded (P : UInt8 → List UInt8 → Prop) : List UInt8 → Prop
  | nil : Worded P []
  | tlv {type : UInt8} {value rest : List UInt8} (htype : type ≠ 0 ∧ type.toNat < nbTlv)
      (hvalue : value.length ≤ 255) (hallowed : P type value) (hrest : Worded P rest) :
      Worded P (type :: UInt8.ofNat value.length :: (value ++ rest))
  /-- What `send_data` takes of a datum whose length byte is 255. -/
  | cut {value rest : List UInt8} (hvalue : value.length = 255) (hallowed : P 4 value)
      (hrest : Worded P rest) : Worded P (4 :: rest)

variable {P Q : UInt8 → List UInt8 → Prop} {body body' : List UInt8}

theorem Worded.append (h : Worded P body) (h' : Worded P body') : Worded P (body ++ body') := by
  induction h with
  | nil => exact h'
  | tlv htype hvalue hallowed _ ih =>
    rw [List.cons_append, List.cons_append, List.append_assoc]
    exact .tlv htype hvalue hallowed ih
  | cut hvalue hallowed _ ih => exact .cut hvalue hallowed ih

theorem Worded.mono (h : Worded P body) (hPQ : ∀ type value, P type value → Q type value) :
    Worded Q body := by
  induction h with
  | nil => exact .nil
  | tlv htype hvalue hallowed _ ih => exact .tlv htype hvalue (hPQ _ _ hallowed) ih
  | cut hvalue hallowed _ ih => exact .cut hvalue (hPQ _ _ hallowed) ih

/-- A body starts with a type byte. -/
theorem Worded.head {b : UInt8} (h : Worded P (b :: body)) : b.toNat < nbTlv := by
  generalize hall : b :: body = all at h
  cases h with
  | nil => cases hall
  | tlv htype =>
    obtain ⟨rfl, -⟩ := List.cons.inj hall
    exact htype.2
  | cut =>
    obtain ⟨rfl, -⟩ := List.cons.inj hall
    decide

/-- A TLV that the rule allows. -/
theorem worded_bytes {t : Tlv} (hhandled : t.handled = true) (hallowed : P t.type t.value) :
    Worded P t.bytes := by
  have htype := And.intro (Tlv.type_ne_zero hhandled) t.type_lt_nbTlv
  have hworded := Worded.tlv htype t.length_value_le hallowed .nil
  rwa [List.append_nil, ← Tlv.bytes_of_handled hhandled] at hworded

/-- **Unique reading.**  Where a body is read as encodings, the rule allows them.
The induction is on the pieces. -/
theorem Worded.allowed (h : Worded P body) {ts : List Tlv} (hbody : body = ts.flatMap Tlv.bytes)
    {t : Tlv} (ht : t ∈ ts) (hhandled : t.handled = true) : P t.type t.value := by
  induction h generalizing ts with
  | nil =>
    have hnil := List.flatMap_eq_nil_iff.mp hbody.symm t ht
    rw [Tlv.bytes_of_handled hhandled] at hnil
    cases hnil
  | @tlv type value rest htype hvalue hallowed _ ih =>
    cases ts with
    | nil => cases ht
    | cons t₀ ts =>
      rw [List.flatMap_cons] at hbody
      have hcons : t₀.handled = true := by
        by_contra hnot
        obtain rfl : t₀ = .pad1 := by cases t₀ <;> simp_all [Tlv.handled]
        exact htype.1 (List.cons.inj hbody).1
      rw [Tlv.bytes_of_handled hcons] at hbody
      obtain ⟨hfirst, hsecond⟩ := List.cons.inj hbody
      obtain ⟨hlength, hvalues⟩ := List.cons.inj hsecond
      have hsame : value.length = t₀.value.length := by
        have hof : (UInt8.ofNat value.length).toNat = value.length := by
          rw [UInt8.toNat_ofNat']
          omega
        rw [← hof, hlength, t₀.toNat_length_value]
      obtain ⟨hvalue₀, htail⟩ := List.append_inj hvalues hsame
      rcases List.mem_cons.mp ht with rfl | ht
      · rw [← hfirst, ← hvalue₀]
        exact hallowed
      · exact ih htail ht
  | @cut value rest hvalue hallowed hrest ih =>
    cases ts with
    | nil => cases ht
    | cons t₀ ts =>
      rw [List.flatMap_cons] at hbody
      have hcons : t₀.handled = true := by
        by_contra hnot
        obtain rfl : t₀ = .pad1 := by cases t₀ <;> simp_all [Tlv.handled]
        cases (List.cons.inj hbody).1
      rw [Tlv.bytes_of_handled hcons] at hbody
      -- the length of a datum would be the type of the next piece
      obtain ⟨htype, hsecond⟩ := List.cons.inj hbody
      have hdata := thirteen_le_of_data htype.symm
      rw [show rest = UInt8.ofNat t₀.value.length :: (t₀.value ++ ts.flatMap Tlv.bytes) from
        hsecond] at hrest
      have hlt := hrest.head
      rw [t₀.toNat_length_value] at hlt
      exact absurd hlt (by simp only [nbTlv]; omega)

/-! ### Messages and datagrams -/

section Rule

variable {P : Sockaddr → UInt8 → List UInt8 → Prop}

/-- What waits for the neighbours. -/
def World.Awaits (P : Sockaddr → UInt8 → List UInt8 → Prop) (w : World) : Prop :=
  ∀ e ∈ w.neighbors.inorder,
    Worded (P (neighborToSockaddr6 e.1.toNeighbor)) (w.pending e.1.toNeighbor)

/-- A datagram with such a body. -/
def Obs.Utters (P : Sockaddr → UInt8 → List UInt8 → Prop) : Obs → Prop
  | .sendto server bytes => ∃ body, bytes = datagram body ∧ Worded (P server) body
  | _ => True

/-- What a program has said within the rule. -/
structure Uttered (P : Sockaddr → UInt8 → List UInt8 → Prop) (w w' : World) : Prop where
  sound : w'.Sound
  awaits : w'.Awaits P
  log : ∃ ext, w'.log = w.log ++ ext ∧ ∀ o ∈ ext, o.Utters P

def Utters (P : Sockaddr → UInt8 → List UInt8 → Prop) (w w' : World) : Prop :=
  w.Sound → w.Awaits P → Uttered P w w'

theorem Utters.refl (w : World) : Utters P w w := fun hw hawaits =>
  ⟨hw, hawaits, [], (List.append_nil _).symm, fun _ ho => absurd ho List.not_mem_nil⟩

theorem Utters.trans {u v w : World} (h₁ : Utters P u v) (h₂ : Utters P v w) : Utters P u w := by
  intro hu hawaits
  have hv := h₁ hu hawaits
  have hw := h₂ hv.sound hv.awaits
  obtain ⟨e₁, hlog₁, hall₁⟩ := hv.log
  obtain ⟨e₂, hlog₂, hall₂⟩ := hw.log
  refine ⟨hw.sound, hw.awaits, e₁ ++ e₂, by rw [hlog₂, hlog₁, List.append_assoc], fun o ho => ?_⟩
  exact (List.mem_append.mp ho).elim (hall₁ o) (hall₂ o)

theorem utters_of_hands {w w' : World} (h : Hands nobody w w') :
    ∃ ext, w'.log = w.log ++ ext ∧ ∀ o ∈ ext, o.Utters P := by
  obtain ⟨ext, hlog, hall⟩ := h
  refine ⟨ext, hlog, fun o ho => ?_⟩
  have hto := hall o ho
  cases o with
  | sendto server bytes => exact hto.elim
  | _ => trivial

/-- The messages are as they were. -/
theorem utters_of_boxes {w w' : World} (h : Boxes w w') (hmsgs : w'.msgs = w.msgs)
    (hlog : ∃ ext, w'.log = w.log ++ ext ∧ ∀ o ∈ ext, o.Utters P) : Utters P w w' := by
  intro hw hawaits
  refine ⟨hw.of_boxes h, fun e he => ?_, hlog⟩
  rw [h.neighbors] at he
  unfold World.pending
  rw [hmsgs]
  exact hawaits e he

/-- Nothing is sent, and only the counters and the streams change. -/
theorem utters_of_idle {w w' : World} (h : Idle w w') (hhands : Hands nobody w w') :
    Utters P w w' := utters_of_boxes h.boxes h.msgs (utters_of_hands hhands)

section Rules

variable {α β : Type}

theorem Utters.bind {m : Peer α} {f : α → Peer β} (hm : Keeps (Utters P) m)
    (hf : ∀ a, Keeps (Utters P) (f a)) : Keeps (Utters P) (m >>= f) :=
  @Keeps.bind _ _ _ (Utters P) (fun _ _ _ => Utters.trans) _ _ hm hf

theorem Utters.pure (a : α) : Keeps (Utters P) (Pure.pure a : Peer α) := Utters.refl

theorem Utters.get : Keeps (Utters P) (MonadState.get : Peer World) := Utters.refl

/-- An observation that is no datagram. -/
theorem utters_note {o : Obs} (ho : o.Utters P) : Keeps (Utters P) (note o) := fun w =>
  utters_of_boxes (idle_note o w).boxes rfl
    ⟨[o], rfl, fun _ ho' => List.mem_singleton.mp ho' ▸ ho⟩

end Rules

theorem filer_utters : Filer (Utters P) where
  refl := Utters.refl
  trans := Utters.trans
  onMalloc := fun w => utters_of_idle (quiet_malloc w).idle ((primitive_hands nobody).onMalloc w)
  onGetSeconds := fun w =>
    utters_of_idle (quiet_getSeconds w).idle ((primitive_hands nobody).onGetSeconds w)
  onRand := fun w => utters_of_idle (quiet_rand w).idle ((primitive_hands nobody).onRand w)
  onUninit := fun w => utters_of_idle (quiet_uninit w).idle ((primitive_hands nobody).onUninit w)
  onFault := utters_note trivial
  onSetSyms := fun cell l w => utters_of_boxes (filer_boxes.onSetSyms cell l w) rfl
    (utters_of_hands ((filer_hands nobody).onSetSyms cell l w))

/-! ### Sending -/

section Sending

variable {w w' : World} {e : NeighborPtr × Ident} {a : Nat}

/-- The message of one record has changed. -/
theorem awaits_of_message (hw : w.Sound) (hawaits : w.Awaits P) (he : e ∈ w.neighbors.inorder)
    (hmsg : e.1.msg = some a) (hneighbors : w'.neighbors = w.neighbors)
    {m : MessageH} (hmsgs : w'.msgs = fun b => if b = a then some m else w.msgs b)
    (hm : Worded (P (neighborToSockaddr6 e.1.toNeighbor)) m.content) : w'.Awaits P := by
  intro e' he'
  rw [hneighbors] at he'
  by_cases hsame : e'.1.msg = some a
  · obtain rfl := hw.own e' he' e he a hsame hmsg
    rw [pending_of_content hmsg (by rw [hmsgs]; exact if_pos rfl)]
    exact hm
  · have hpending : w'.pending e'.1.toNeighbor = w.pending e'.1.toNeighbor := by
      unfold World.pending
      cases hbox : e'.1.msg with
      | none => rfl
      | some b =>
        have hb : b ≠ a := fun heq => hsame (heq ▸ hbox)
        rw [Option.bind_some, Option.bind_some, hmsgs]
        dsimp only
        rw [if_neg hb]
    rw [hpending]
    exact hawaits e' he'

/-- What waits for a record. -/
theorem worded_of_awaits (hawaits : w.Awaits P) (he : e ∈ w.neighbors.inorder)
    (hmsg : e.1.msg = some a) {m : MessageH} (hm : w.msgs a = some m) :
    Worded (P (neighborToSockaddr6 e.1.toNeighbor)) m.content := by
  rw [← pending_of_content hmsg hm]
  exact hawaits e he

/-- Somebody without a message, or a neighbour. -/
def World.Reaches (w : World) (rcpt : Neighbor) : Prop :=
  rcpt.msg = none ∨ ∃ e ∈ w.neighbors.inorder, rcpt = e.1.toNeighbor

theorem reaches_of_mem (he : e ∈ w.neighbors.inorder) : w.Reaches e.1.toNeighbor :=
  .inr ⟨e, he, rfl⟩

theorem World.Reaches.of_boxes {rcpt : Neighbor} (h : w.Reaches rcpt) (hboxes : Boxes w w') :
    w'.Reaches rcpt := by
  rcases h with hnone | ⟨e, he, hkey⟩
  · exact .inl hnone
  · exact .inr ⟨e, hboxes.neighbors ▸ he, hkey⟩

/-- `send_message` says what is waiting, or what it is given. -/
theorem utters_sendMessage {body : Mem} {size : Nat} (hsize : size ≤ pmtu - 4) {rcpt : Neighbor}
    (hto : w.Reaches rcpt)
    (hbody : Worded (P (neighborToSockaddr6 rcpt)) (Octets.read body 0 size)) :
    Utters P w (after (sendMessage (messageOf body size) (size + 4) rcpt) w) := by
  have hp := pmtu_eq
  have hdeclared := @declared_messageOf body size (by omega)
  have hcontent := @content_messageOf body size (by omega)
  have hboxes := @boxes_sendMessage (messageOf body size) (by rw [hdeclared]; exact hsize)
    (size + 4) rcpt w
  intro hw hawaits
  cases hmsg : rcpt.msg with
  | none =>
    rw [sendMessage_direct hmsg] at hboxes ⊢
    refine utters_of_boxes hboxes rfl ⟨_, rfl, fun o ho => ?_⟩ hw hawaits
    rw [List.mem_singleton.mp ho, @bytes_messageOf body size (by omega)]
    exact ⟨_, rfl, hbody⟩
  | some a =>
    rcases hto with hnone | ⟨e, he, rfl⟩
    · rw [hnone] at hmsg
      cases hmsg
    obtain ⟨-, m, hm, hbox⟩ := hw.box e he a hmsg
    have hroom := hbox.room
    have hwaiting := worded_of_awaits hawaits he hmsg hm
    by_cases hfull : m.declared + size > pmtu - 4
    · -- what was waiting is sent, and the body waits instead
      rw [sendMessage_flush hmsg hm (by rw [hdeclared]; exact hfull)
        (by rw [hdeclared]; exact hsize)] at hboxes ⊢
      refine ⟨hw.of_boxes hboxes, ?_, _, rfl, fun o ho => ?_⟩
      · refine awaits_of_message hw hawaits he hmsg rfl rfl ?_
        rw [content_put_zero _ (by rw [length_content, hdeclared]; omega), hcontent]
        exact hbody
      · rcases List.mem_cons.mp ho with rfl | ho
        · trivial
        · rw [List.mem_singleton.mp ho, bytes_eq_datagram hbox.magic hbox.version]
          exact ⟨_, rfl, hwaiting⟩
    · rw [sendMessage_append hmsg hm (by rw [hdeclared]; exact Nat.not_lt.mp hfull)] at hboxes ⊢
      refine ⟨hw.of_boxes hboxes, ?_, _, rfl, fun o ho => ?_⟩
      · refine awaits_of_message hw hawaits he hmsg rfl rfl ?_
        rw [content_put_append _ (by rw [length_content, hdeclared]; omega), hcontent]
        exact hwaiting.append hbody
      · rw [List.mem_singleton.mp ho]
        trivial

/-- The flush of a record says what was waiting. -/
theorem utters_flushNeighbor (he : e ∈ w.neighbors.inorder) :
    Utters P w (after (flushNeighbor e.1.toNeighbor) w) := by
  intro hw hawaits
  have hboxes := boxes_flushNeighbor e.1.toNeighbor w
  cases hmsg : e.1.msg with
  | none =>
    have hnothing : after (flushNeighbor e.1.toNeighbor) w = w := by
      unfold flushNeighbor
      rw [hmsg]
      rfl
    rw [hnothing]
    exact Utters.refl w hw hawaits
  | some a =>
    obtain ⟨-, m, hm, hbox⟩ := hw.box e he a hmsg
    by_cases hempty : m.declared = 0
    · rw [flushNeighbor_empty hmsg hm hempty]
      exact Utters.refl w hw hawaits
    · rw [flushNeighbor_some hmsg hm hempty] at hboxes ⊢
      refine ⟨hw.of_boxes hboxes, ?_, _, rfl, fun o ho => ?_⟩
      · refine awaits_of_message hw hawaits he hmsg rfl rfl ?_
        unfold MessageH.content
        rw [(declared_eq_zero_iff _).mpr rfl]
        exact .nil
      · rw [List.mem_singleton.mp ho, bytes_eq_datagram hbox.magic hbox.version]
        exact ⟨_, rfl, worded_of_awaits hawaits he hmsg hm⟩

end Sending

/-! ### A tree of neighbours -/

/-- A walk over a tree whose nodes stay where they are. -/
theorem utters_walk {visit : Tree → Peer Int} {one : NeighborPtr → Ident → Peer Int}
    {good : World → NeighborPtr × Ident → Prop}
    (hnull : ∀ w, after (visit .null) w = w)
    (hnode : ∀ key val left right w, after (visit (.node key val left right)) w =
      after (visit right) (after (visit left) (after (one key val) w)))
    (hboxes : ∀ key val, Keeps Boxes (one key val)) (hvisit : ∀ t, Keeps Boxes (visit t))
    (hgood : ∀ w w' e, Boxes w w' → good w e → good w' e)
    (hone : ∀ key val w, good w (key, val) → Utters P w (after (one key val) w))
    (t : Tree) {w : World} (hall : ∀ e ∈ t.inorder, good w e) :
    Utters P w (after (visit t) w) := by
  induction t generalizing w with
  | null =>
    rw [hnull]
    exact Utters.refl w
  | node key val left right ihl ihr =>
    have hkey : good w (key, val) := hall _ (by simp)
    have hfirst := hboxes key val w
    have hleft := hvisit left (after (one key val) w)
    rw [hnode]
    refine (hone key val w hkey).trans ((ihl fun e he => ?_).trans (ihr fun e he => ?_))
    · exact hgood _ _ e hfirst (hall e (by simp [he]))
    · exact hgood _ _ e (hfirst.trans hleft) (hall e (by simp [he]))

/-- `send_to_everyone`. -/
theorem utters_sendToEveryone {body : Mem} {size : Nat} (hsize : size ≤ pmtu - 4) (t : Tree)
    {w : World} (ht : ∀ e ∈ t.inorder, w.Reaches e.1.toNeighbor ∧
      Worded (P (neighborToSockaddr6 e.1.toNeighbor)) (Octets.read body 0 size)) :
    Utters P w (after (sendToEveryone (messageOf body size) (size + 4) t) w) := by
  have hp := pmtu_eq
  have hbuf : (messageOf body size).declared ≤ pmtu - 4 := by
    rw [declared_messageOf body (by omega)]
    exact hsize
  exact @utters_walk P (sendToEveryone (messageOf body size) (size + 4))
    (fun key _ => sendMessage (messageOf body size) (size + 4) key.toNeighbor)
    (fun w e => w.Reaches e.1.toNeighbor ∧
      Worded (P (neighborToSockaddr6 e.1.toNeighbor)) (Octets.read body 0 size))
    (fun _ => rfl) (fun _ _ _ _ _ => rfl)
    (fun _ _ => boxes_sendMessage hbuf _ _) (boxes_sendToEveryone hbuf _)
    (fun _ _ _ hboxes he => ⟨he.1.of_boxes hboxes, he.2⟩)
    (fun _ _ _ he => utters_sendMessage hsize he.1 he.2) t w ht

/-- `send_shorthello_everyone`: the potential neighbours have no messages. -/
theorem utters_sendShorthelloEveryone (t : Tree) {w : World}
    (hallowed : ∀ server, P server 2 (u64Bytes w.id)) :
    Utters P w (after (sendShorthelloEveryone t) w) := by
  intro hw hawaits
  have hread : Octets.read (tlvShortHello w.memory.head 0 (pmtu - 4) w.id).1 0 10 =
      (Tlv.shortHello w.id).bytes :=
    (@Built.shortHello w.memory.head 0 (pmtu - 4) w.id (show (0 : Int) < 10 by decide)).eq_bytes
  have hsend := @utters_sendToEveryone P (tlvShortHello w.memory.head 0 (pmtu - 4) w.id).1 10
    (by decide) w.potential (after uninit w) fun e he => ⟨.inl (hw.direct e he), by
      rw [hread]
      exact worded_bytes rfl (hallowed _)⟩
  exact ((filer_utters.onUninit w).trans hsend) hw hawaits

/-- `send_hello_everyone`. -/
theorem utters_sendHelloEveryone (t : Tree) {w : World}
    (ht : ∀ e ∈ t.inorder, e ∈ w.neighbors.inorder ∧
      P (neighborToSockaddr6 e.1.toNeighbor) 2 (u64Bytes w.id ++ u64Bytes e.2.id)) :
    Utters P w (after (sendHelloEveryone t) w) := by
  have hbuf : ∀ (mem : Mem) (val : Ident) (id : UInt64),
      (messageOf (tlvLongHello mem 0 (pmtu - 4) id val.id).1
        (tlvLongHello mem 0 (pmtu - 4) id val.id).2).declared ≤ pmtu - 4 :=
    fun mem val id => le_trans (le_of_eq (declared_longHello mem id val.id)) (by decide)
  refine @utters_walk P sendHelloEveryone sendHello
    (fun v e => v.id = w.id ∧ e ∈ v.neighbors.inorder ∧
      P (neighborToSockaddr6 e.1.toNeighbor) 2 (u64Bytes w.id ++ u64Bytes e.2.id))
    (fun _ => rfl) (fun _ _ _ _ _ => rfl)
    (fun _ val => Boxes.bind (Quiet.boxes quiet_uninit) fun mem =>
      Boxes.bind (Quiet.boxes Quiet.get) fun w => boxes_sendMessage (hbuf mem val w.id) _ _)
    boxes_sendHelloEveryone
    (fun _ _ _ hboxes he => ⟨hboxes.id.trans he.1, hboxes.neighbors ▸ he.2.1, he.2.2⟩)
    (fun key val v he => ?_) t w (fun e he => ⟨rfl, ht e he⟩)
  obtain ⟨hid, hmem, hallowed⟩ := he
  have hread : Octets.read (tlvLongHello v.memory.head 0 (pmtu - 4) v.id val.id).1 0 18 =
      (Tlv.longHello v.id val.id).bytes :=
    (@Built.longHello v.memory.head 0 (pmtu - 4) v.id val.id
      (show (0 : Int) < 18 by decide)).eq_bytes
  have hafter : after (sendHello key val) v =
      after (sendMessage (messageOf (tlvLongHello v.memory.head 0 (pmtu - 4) v.id val.id).1
        (18 : Nat)) (18 + 4) key.toNeighbor) (after uninit v) := rfl
  rw [hafter]
  refine (filer_utters.onUninit v).trans (utters_sendMessage (by decide) ?_ ?_)
  · exact .inr ⟨(key, val), hmem, rfl⟩
  · rw [hread]
    refine worded_bytes rfl ?_
    show P (neighborToSockaddr6 key.toNeighbor) 2 (u64Bytes v.id ++ u64Bytes val.id)
    rw [hid]
    exact hallowed

/-- `send_to_everyone_now`. -/
theorem utters_sendToEveryoneNow (t : Tree) {w : World}
    (ht : ∀ e ∈ t.inorder, e ∈ w.neighbors.inorder) :
    Utters P w (after (sendToEveryoneNow t) w) :=
  @utters_walk P sendToEveryoneNow (fun key _ => flushNeighbor key.toNeighbor)
    (fun w e => e ∈ w.neighbors.inorder) (fun _ => rfl) (fun _ _ _ _ _ => rfl)
    (fun _ _ => boxes_flushNeighbor _) boxes_sendToEveryoneNow
    (fun _ _ _ hboxes he => hboxes.neighbors ▸ he)
    (fun _ _ _ he => utters_flushNeighbor he) t w ht

/-! ### The advertisement -/

/-- The value of the Neighbour TLV for `key`. -/
def neighbourValue (key : Neighbor) : List UInt8 := (Tlv.neighbour key.ip key.port).value

variable {R : UInt8 → List UInt8 → Prop}

/-- The body of `send_symetrical_everyone` grows by whole TLVs. -/
theorem worded_tlvNeighbour {body : Mem} {size bufsize : Nat}
    (hworded : Worded R (Octets.read body 0 size)) {ngb : Neighbor}
    (hallowed : R 3 (neighbourValue ngb)) (hroom : 0 ≤ (tlvNeighbour body size bufsize ngb).2) :
    Worded R (Octets.read (tlvNeighbour body size bufsize ngb).1 0 (size + 20)) := by
  have hpos : 0 < (tlvNeighbour body size bufsize ngb).2 := by
    unfold tlvNeighbour at hroom ⊢
    split at hroom
    · rename_i hlarge
      rw [if_pos hlarge]
      exact (by decide : (0 : Int) < 20)
    · exact absurd (show (0 : Int) ≤ -1 from hroom) (by decide)
  rw [tlvNeighbour_spec hpos, ← length_neighbourTlv ngb.ip ngb.port, read_write_append]
  exact hworded.append (worded_bytes (t := .neighbour ngb.ip ngb.port) rfl hallowed)

/-- The loop keeps what it has packed so far within the rule, for whoever it will
be sent to. -/
theorem utters_symetricalLoop (people : Tree) (l : List NgbEntry)
    (hR : ∀ server type value, R type value → P server type value)
    (hl : ∀ ent ∈ l, R 3 (neighbourValue ent.sym.toNeighbor)) (body : Mem) {size : Nat}
    (hsize : size ≤ pmtu - 4) (hworded : Worded R (Octets.read body 0 size)) (res count : Int)
    {w : World} (hpeople : ∀ e ∈ people.inorder, e ∈ w.neighbors.inorder) :
    Utters P w (after (symetricalLoop people l body size res count) w) ∧
      (value (symetricalLoop people l body size res count) w).2.1 ≤ pmtu - 4 ∧
      Worded R (Octets.read (value (symetricalLoop people l body size res count) w).1 0
        (value (symetricalLoop people l body size res count) w).2.1) := by
  have hp := pmtu_eq
  induction l generalizing body size res count w with
  | nil => exact ⟨Utters.refl _, hsize, hworded⟩
  | cons tmp rest ih =>
    have htmp := hl tmp List.mem_cons_self
    have ih := ih fun ent hent => hl ent (List.mem_cons_of_mem _ hent)
    have hroom : toSize ((pmtu : Int) - 4 - size) = pmtu - 4 - size := by
      rw [toSize_of_nonneg (by omega) (by omega)]
      omega
    have hbuf : (messageOf body size).declared ≤ pmtu - 4 := by
      rw [declared_messageOf body (by omega)]
      exact hsize
    unfold symetricalLoop
    by_cases hfull : (tlvNeighbour body size (toSize ((pmtu : Int) - 4 - size))
        tmp.sym.toNeighbor).2 < 0
    · -- the body is sent, and the TLV starts a new one
      simp only [if_pos hfull]
      have hsend := @utters_sendToEveryone P body size hsize people w fun e he =>
        ⟨reaches_of_mem (hpeople e he), hworded.mono (hR _)⟩
      have hboxes := boxes_sendToEveryone hbuf (size + 4) people w
      have hnew : Worded R
          (Octets.read (tlvNeighbour body 0 (pmtu - 4) tmp.sym.toNeighbor).1 0 20) :=
        @worded_tlvNeighbour R body 0 (pmtu - 4) .nil tmp.sym.toNeighbor htmp
          (show (0 : Int) ≤ 20 by decide)
      obtain ⟨hutters, hsize', hworded'⟩ := @ih
        (tlvNeighbour body 0 (pmtu - 4) tmp.sym.toNeighbor).1 20 (by omega) hnew
        (value (sendToEveryone (messageOf body size) (size + 4) people) w) (count + 1)
        (after (sendToEveryone (messageOf body size) (size + 4) people) w)
        (fun e he => hboxes.neighbors ▸ hpeople e he)
      exact ⟨hsend.trans hutters, hsize', hworded'⟩
    · -- the guard asks for more than the 20 bytes that are stored
      simp only [if_neg hfull]
      have hfits : size + 20 ≤ pmtu - 4 := by
        rw [hroom] at hfull
        unfold tlvNeighbour at hfull
        by_cases h21 : pmtu - 4 - size > 21
        · omega
        · simp [if_neg h21] at hfull
      exact ih _ hfits (worded_tlvNeighbour hworded htmp (not_lt.mp hfull)) _ _ hpeople

/-- `send_symetrical_everyone` names neighbours. -/
theorem utters_sendSymetricalEveryone {w : World}
    (hallowed : ∀ server, ∀ e ∈ w.neighbors.inorder, P server 3 (neighbourValue e.1.toNeighbor)) :
    Utters P w (after (sendSymetricalEveryone w.neighbors) w) := by
  have hlist := (@filer_utters P).keeps_getSymmetrical w.neighbors w
  have hboxes := Quiet.boxes (primitive_quiet.keeps_getSymmetrical w.neighbors) w
  have hsyms : ∀ l, value (getSymmetrical w.neighbors) w = some l → ∀ ent ∈ l.contents,
      ∀ server, P server 3 (neighbourValue ent.sym.toNeighbor) := by
    intro l hl ent hent server
    rcases getSymmetrical_cases w.neighbors w with ⟨hnone, -⟩ | ⟨l', hl', -, hsub⟩
    · rw [hnone] at hl
      cases hl
    · obtain rfl := Option.some.inj (hl'.symm.trans hl)
      obtain ⟨e, he, hkey⟩ := List.mem_map.mp (hsub.subset (List.mem_map_of_mem hent))
      rw [← hkey]
      exact hallowed server e he
  unfold sendSymetricalEveryone
  rw [after_bind, value_get, after_get, after_bind]
  generalize value (getSymmetrical w.neighbors) w = sym at hsyms
  generalize after (getSymmetrical w.neighbors) w = u at hlist hboxes ⊢
  cases sym with
  | none => exact hlist
  | some sym =>
    have hpeople : ∀ e ∈ w.neighbors.inorder, e ∈ u.neighbors.inorder :=
      fun e he => hboxes.neighbors ▸ he
    obtain ⟨hutters, hsize, hworded⟩ := @utters_symetricalLoop P
      (fun type value => ∀ server, P server type value) w.neighbors sym.contents
      (fun server _ _ h => h server) (hsyms sym rfl) (fun _ => 0) 0 (Nat.zero_le _) .nil 0 0 u
      hpeople
    have hloop := (boxes_symetricalLoop w.neighbors sym.contents (fun _ => 0)
      (Nat.zero_le (pmtu - 4)) 0 0).1 u
    refine hlist.trans ?_
    show Utters P u (after (symetricalLoop w.neighbors sym.contents (fun _ => 0) 0 0 0 >>= _) u)
    rw [after_bind]
    refine hutters.trans ?_
    generalize value (symetricalLoop w.neighbors sym.contents (fun _ => 0) 0 0 0) u = r
      at hsize hworded
    generalize after (symetricalLoop w.neighbors sym.contents (fun _ => 0) 0 0 0) u = v at hloop ⊢
    obtain ⟨body, size, res, count⟩ := r
    dsimp only at hsize hworded ⊢
    rw [after_bind]
    have hcount :
        Utters P v (after (modify fun w => { w with nbSymetrical := count } : Peer PUnit) v) :=
      utters_of_boxes (.of_same { Elapsed.refl v with id := rfl } rfl rfl rfl) rfl
        ⟨[], (List.append_nil _).symm, fun _ ho => absurd ho List.not_mem_nil⟩
    refine hcount.trans ?_
    split
    · refine utters_sendToEveryone hsize w.neighbors fun e he => ⟨?_, ?_⟩
      · exact reaches_of_mem (hloop.neighbors ▸ hpeople e he)
      · exact hworded.mono fun _ _ h => h _
    · exact Utters.refl _

/-! ### Data and answers -/

/-- The Ack. -/
theorem utters_sendAck {index : DataIndex} {peer : Neighbor} (hpeer : peer.msg = none)
    (hallowed : P (neighborToSockaddr6 peer) 5 (Tlv.ack index.id index.nonce).value) :
    Keeps (Utters P) (sendAck index peer) := by
  intro w
  have hread : Octets.read (tlvAck w.memory.head 0 (pmtu - 4) index.id index.nonce).1 0 14 =
      (Tlv.ack index.id index.nonce).bytes :=
    (@Built.ack w.memory.head 0 (pmtu - 4) index.id index.nonce
      (show (0 : Int) < 14 by decide)).eq_bytes
  have hafter : after (sendAck index peer) w = after (sendMessage (messageOf
      (tlvAck w.memory.head 0 (pmtu - 4) index.id index.nonce).1 (14 : Nat)) (14 + 4) peer)
        (after uninit w) := rfl
  rw [hafter]
  refine (filer_utters.onUninit w).trans (utters_sendMessage (by decide) (.inl hpeer) ?_)
  rw [hread]
  exact worded_bytes rfl hallowed

/-- What `send_data` takes of a TLV. -/
theorem worded_take {tlv value : List UInt8} {size : UInt8} (htlv : tlv = 4 :: size :: value)
    (hlength : value.length = size.toNat) (hallowed : R 4 value) {n : Nat}
    (hn : toChar size + 2 = n) : n ≤ tlv.length ∧ Worded R (tlv.take n) := by
  have hlt := size.toNat_lt
  rw [toChar_eq] at hn
  subst htlv
  rcases n with - | - | n
  · exact ⟨Nat.zero_le _, .nil⟩
  · refine ⟨Nat.le_add_left _ _, .cut (hlength.trans ?_) hallowed .nil⟩
    split at hn <;> omega
  · have hsize : UInt8.ofNat value.length = size := by
      rw [hlength]
      exact UInt8.ofNat_toNat
    have hn' : n = value.length := by
      split at hn <;> omega
    have hall : (4 :: size :: value).take (n + 1 + 1) = 4 :: UInt8.ofNat value.length :: value := by
      rw [hsize, List.take_succ_cons, List.take_succ_cons, List.take_of_length_le (by omega)]
    refine ⟨by simp [hn'], ?_⟩
    have hworded := Worded.tlv (by decide : (4 : UInt8) ≠ 0 ∧ (4 : UInt8).toNat < nbTlv)
      (by omega : value.length ≤ 255) hallowed .nil
    rwa [List.append_nil, ← hall] at hworded

theorem utters_sendData {w : World} {e : NeighborPtr × Ident} (he : e ∈ w.neighbors.inorder)
    {tlv value : List UInt8} {size : UInt8} (htlv : tlv = 4 :: size :: value)
    (hlength : value.length = size.toNat)
    (hallowed : P (neighborToSockaddr6 e.1.toNeighbor) 4 value) :
    Utters P w (after (sendData tlv e.1.toNeighbor) w) := by
  have hp := pmtu_eq
  have hgetD : tlv.getD 1 0 = size := by
    rw [htlv]
    rfl
  by_cases hneg : toChar (tlv.getD 1 0) + 2 < 0
  · unfold sendData
    extract_lets bodyLength
    rw [if_pos hneg]
    exact Utters.bind filer_utters.onFault (fun _ => Utters.pure _) w
  · obtain ⟨n, hn⟩ := Int.eq_ofNat_of_zero_le (Int.not_lt.mp hneg)
    have hchar := toChar_lt (tlv.getD 1 0)
    obtain ⟨hle, hworded⟩ := worded_take htlv hlength hallowed (hgetD ▸ hn)
    have hbody : Octets.read (write w.memory.head 0 (tlv.take n)) 0 n = tlv.take n :=
      read_write_eq _ _ (by rw [List.length_take, Nat.min_eq_left hle])
    rw [after_sendData hn]
    refine (filer_utters.onUninit w).trans (utters_sendMessage (by omega) (reaches_of_mem he) ?_)
    rw [hbody]
    exact hworded

/-! ### Removals -/

/-- The messages of the records that stay. -/
theorem utters_removeNeighbor (key : Neighbor) : Keeps (Utters P) (removeNeighbor key) := by
  intro w hw hawaits
  obtain ⟨t, -, hinorder, hafter⟩ := after_removeNeighbor hw.neighbors key
  obtain ⟨hsound, -⟩ := settles_removeNeighbor key w hw
  have hhands := (registrar_hands nobody).keeps_removeNeighbor key w
  have hmsgs := @msgs_removeNeighbor w hw key
  refine ⟨hsound, fun e he => ?_, utters_of_hands hhands⟩
  have hmem : e ∈ w.neighbors.inorder ∧ entryPlace e ≠ key.place := by
    rw [hafter] at he
    rw [← SortedAssoc.mem_erase_iff entryPlace, ← hinorder]
    exact he
  have hpending : (after (removeNeighbor key) w).pending e.1.toNeighbor =
      w.pending e.1.toNeighbor := by
    unfold World.pending
    cases hbox : e.1.msg with
    | none => rfl
    | some a => rw [Option.bind_some, Option.bind_some, hmsgs hmem.1 hmem.2 hbox]
  rw [hpending]
  exact hawaits e hmem.1

theorem utters_removeNeighborEverywhere (peer : NeighborPtr) :
    Keeps (Utters P) (removeNeighborEverywhere peer) :=
  Utters.bind Utters.get fun _ => Utters.bind (filer_utters.keeps_removeFromFloods _ _) fun _ =>
    Utters.bind (utters_removeNeighbor _) fun _ => Utters.pure _

/-- A potential neighbour has no message. -/
theorem utters_removePotential (key : Neighbor) : Keeps (Utters P) (removePotential key) := by
  intro w hw hawaits
  obtain ⟨hsound, -⟩ := settles_removePotential key w hw
  obtain ⟨t, -, -, hafter⟩ := after_removePotential hw.potential hw.direct key
  rw [hafter] at hsound ⊢
  exact ⟨hsound, hawaits, [], (List.append_nil _).symm, fun _ ho => absurd ho List.not_mem_nil⟩

/-- A turn of `send_goaway_asymetrical`. -/
theorem utters_expire {body : Mem} {size : Nat} (hsize : size ≤ pmtu - 4) (sym : NeighborPtr)
    {w : World} (hworded : w.neighbors.owns sym →
      Worded (P (neighborToSockaddr6 sym.toNeighbor)) (Octets.read body 0 size)) :
    Utters P w (after (expire (messageOf body size) (size + 4) sym) w) := by
  rw [after_expire]
  split
  · rename_i hown
    have hworded := hworded hown
    obtain ⟨e, he, rfl⟩ := List.mem_map.mp hown
    have hnote := @utters_note P (.dropping e.1 (w.pending e.1.toNeighbor)) trivial
    refine (hnote w).trans ?_
    refine Utters.trans ?_ (utters_removeNeighborEverywhere _ _)
    exact utters_sendMessage hsize (reaches_of_mem he) hworded
  · exact filer_utters.onFault w

theorem worded_goaway (mem : Mem) (hallowed : R 6 [2]) :
    Worded R (Octets.read (tlvGoaway mem 0 (pmtu - 4) 2 (fun _ => 0) 0).1 0 3) := by
  have hread := (@Built.goaway mem 0 (pmtu - 4) 2 (fun _ => 0) 0 (by decide)
    (show (0 : Int) < 3 by decide)).eq_bytes
  rw [show 3 = (0 : UInt8).toNat + 3 from rfl, hread]
  exact worded_bytes rfl hallowed

theorem worded_inactive (mem : Mem) (hallowed : R 6 (2 :: inactiveText.take 24)) :
    Worded R (Octets.read (tlvGoaway mem 0 (pmtu - 4) 2 (ofBytes inactiveText) 24).1 0 27) := by
  have hread := (@Built.goaway mem 0 (pmtu - 4) 2 (ofBytes inactiveText) 24 (by decide)
    (show (0 : Int) < 27 by decide)).eq_bytes
  rw [show 27 = (24 : UInt8).toNat + 3 from rfl, hread]
  exact worded_bytes rfl hallowed

/-- What a turn of the flooding loop may have to say: the datum of the entry, or a
GoAway to a recipient that is given up. -/
def TurnAllowed (P : Sockaddr → UInt8 → List UInt8 → Prop) (w : World) (flood tmp : Nat) : Prop :=
  ∀ f nw, w.under flood tmp = some (f, nw) → w.neighbors.owns nw.sym →
    (nw.timesSent = 5 → P (neighborToSockaddr6 nw.sym.toNeighbor) 6 (2 :: inactiveText.take 24)) ∧
    ∃ size value, f.data = 4 :: size :: value ∧ value.length = size.toNat ∧
      P (neighborToSockaddr6 nw.sym.toNeighbor) 4 value

theorem utters_handleInactive {sym : NeighborPtr} {w : World}
    (hallowed : w.neighbors.owns sym →
      P (neighborToSockaddr6 sym.toNeighbor) 6 (2 :: inactiveText.take 24)) :
    Utters P w (after (handleInactive sym) w) := by
  rw [after_handleInactive]
  exact (filer_utters.onUninit w).trans
    (@utters_expire P _ 27 (by decide) sym (after uninit w) fun hown =>
      worded_inactive w.memory.head (hallowed hown))

theorem utters_floodTurn {w : World} {flood tmp : Nat} (hallowed : TurnAllowed P w flood tmp)
    (currentTime : Int) : Utters P w (after (floodTurn flood currentTime tmp) w) := by
  have hsend : ∀ f nw, w.under flood tmp = some (f, nw) → w.neighbors.owns nw.sym →
      Utters P w (after (sendData f.data nw.sym.toNeighbor) w) := by
    intro f nw hunder hown
    obtain ⟨-, size, value, hdata, hlength, hvalue⟩ := hallowed f nw hunder hown
    obtain ⟨e, he, hkey⟩ := List.mem_map.mp hown
    rw [← hkey] at hvalue ⊢
    exact utters_sendData he hdata hlength hvalue
  cases floodTurn_cases flood currentTime tmp w with
  | absent _ hw =>
    rw [hw]
    exact filer_utters.onFault w
  | inactive f nw hunder hfive hw =>
    rw [hw]
    exact utters_handleInactive fun hown => (hallowed f nw hunder hown).1 hfive
  | dangling f nw _ _ _ _ hw =>
    rw [hw]
    exact filer_utters.onFault w
  | refused f nw hunder _ _ hown _ hw =>
    rw [hw]
    exact hsend f nw hunder hown
  | sent f nw hunder _ _ hown _ hw =>
    rw [hw]
    exact (hsend f nw hunder hown).trans (filer_utters.keeps_requeue _ _ _ _ _ _)
  | early f nw _ _ _ hw =>
    rw [hw]
    exact utters_of_boxes (.of_same { Elapsed.refl w with id := rfl } rfl rfl rfl) rfl
      ⟨[], (List.append_nil _).symm, fun _ ho => absurd ho List.not_mem_nil⟩

/-! ### The handlers -/

theorem utters_printOnScreen (data : Mem) (off size : Nat) :
    Keeps (Utters P) (printOnScreen data off size) := fun w =>
  utters_of_idle (prints_printOnScreen data off size w).idle (hands_printOnScreen data off size w)

theorem utters_addMessageToFlood (msgSend : Mem) (size : UInt8) (toDelete : Option NeighborPtr) :
    Keeps (Utters P) (addMessageToFlood msgSend size toDelete) := by
  apply filer_utters.keeps_addMessageToFlood
  · exact fun _ _ => utters_note trivial
  · intro l w
    have hlater : Later w { w with dataf := l } := later_of_same rfl rfl rfl rfl rfl
    exact utters_of_boxes (.of_same hlater.elapsed rfl rfl rfl) rfl
      ⟨[], (List.append_nil _).symm, fun _ ho => absurd ho List.not_mem_nil⟩

theorem utters_localMessage (got : Option (List UInt8)) :
    Keeps (Utters P) (localMessage got) := by
  rw [localMessage_eq]
  refine Utters.bind (filer_utters.keeps_composeText got) fun _ => ?_
  exact Utters.bind (utters_addMessageToFlood _ _ _) fun _ => utters_printOnScreen _ _ _

/-- `data` answers with an Ack. -/
theorem utters_data {tlv : Mem} (length : UInt8) {peer : Neighbor} (hpeer : peer.msg = none)
    (hallowed : P (neighborToSockaddr6 peer) 5
      (Tlv.ack (indexAt tlv).id (indexAt tlv).nonce).value) :
    Keeps (Utters P) (data tlv length peer) := by
  refine Utters.bind (utters_note trivial) fun _ => ?_
  refine Utters.bind (utters_note trivial) fun _ => ?_
  refine Utters.bind (utters_sendAck hpeer hallowed) fun _ => ?_
  refine Utters.bind (filer_utters.keeps_getFlood _) fun ent => ?_
  cases ent with
  | some ent =>
    exact Utters.bind (filer_utters.keeps_removeNeighborFromFlood _ _) fun _ => Utters.pure _
  | none =>
    refine Utters.bind (utters_note trivial) fun _ => ?_
    refine Utters.bind (utters_addMessageToFlood _ _ _) fun _ => ?_
    refine Utters.bind (utters_note trivial) fun _ => Keeps.ite (fun _ => ?_) fun _ =>
      Utters.pure _
    exact Utters.bind (utters_note trivial) fun _ => utters_printOnScreen _ _ _

theorem utters_addPotential {w : World} {key : Neighbor}
    (hkey : getIdent key w.neighbors = none) (val : Ident) :
    Utters P w (after (addPotential key val) w) := by
  intro hw hawaits
  obtain ⟨hsound, -⟩ := settles_addPotential hkey val hw
  have hadd := potentialAdded hw.potential key val
  refine ⟨hsound, fun e he => ?_,
    utters_of_hands ((registrar_hands nobody).keeps_addPotential key val w)⟩
  unfold World.pending
  rw [hadd.msgs]
  exact hawaits e (hadd.neighbors ▸ he)

theorem utters_neighbour (tlv : Mem) (length : UInt8) (peer : Neighbor) :
    Keeps (Utters P) (neighbour tlv length peer) := by
  refine Utters.bind (utters_note trivial) fun _ => ?_
  refine Utters.bind (utters_note trivial) fun _ => ?_
  intro w
  simp only [after_bind, value_get, after_get]
  cases hkey : getIdent (keyAt tlv) w.neighbors with
  | some _ => exact Utters.refl _
  | none =>
    refine (filer_utters.onGetSeconds w).trans ?_
    exact utters_addPotential (w := after getSeconds w) hkey _

theorem utters_goaway (tlv : Mem) (length : UInt8) (peer : Neighbor) :
    Keeps (Utters P) (goaway tlv length peer) := by
  refine Utters.bind (utters_note trivial) fun _ => ?_
  refine Utters.bind (utters_note trivial) fun _ => ?_
  refine Utters.bind (Utters.bind (utters_note trivial) fun _ => ?_) fun _ =>
    Utters.bind (utters_removeNeighborEverywhere _) fun _ => Utters.pure _
  refine Keeps.ite (fun _ => filer_utters.onFault) fun _ => ?_
  exact Utters.bind (utters_note trivial) fun _ => utters_note trivial

theorem utters_ack (tlv : Mem) (length : UInt8) (peer : Neighbor) :
    Keeps (Utters P) (ack tlv length peer) :=
  Utters.bind (utters_note trivial) fun _ => Utters.bind (utters_note trivial) fun _ =>
    Utters.bind (filer_utters.keeps_removeNeighborFromFlood _ _) fun _ => Utters.pure _

theorem utters_warning (tlv : Mem) (length : UInt8) (peer : Neighbor) :
    Keeps (Utters P) (warning tlv length peer) :=
  Utters.bind (utters_note trivial) fun _ => Utters.bind (utters_note trivial) fun _ =>
    utters_note trivial

/-! ### Hellos -/

/-- A record after `add_neighbor`: an old one, or a new one, for which nothing
waits. -/
theorem awaits_addNeighbor {w : World} (hw : w.Sound) (hawaits : w.Awaits P) (peer : Neighbor)
    (val : Ident) : (after (addNeighbor peer val) w).Awaits P := by
  have hadd := neighborAdded hw.neighbors peer val
  obtain ⟨msg, htree, -, hfresh⟩ := hadd.tree
  generalize after (addNeighbor peer val) w = v at hadd htree hfresh ⊢
  have hold : ∀ e ∈ w.neighbors.inorder, v.pending e.1.toNeighbor = w.pending e.1.toNeighbor := by
    intro e he
    unfold World.pending
    cases hbox : e.1.msg with
    | none => rfl
    | some a => rw [Option.bind_some, Option.bind_some, hadd.msgs a (hw.box e he a hbox).1]
  intro e he
  rcases htree.mem hw.neighbors he with ⟨he, -⟩ | ⟨hrc, -, a, -, -, rfl⟩ | ⟨-, e₀, he₀, -, rfl⟩
  · rw [hold e he]
    exact hawaits e he
  · -- a new record: nothing waits in its message
    have hempty : v.pending { peer with msg := msg } = [] := by
      unfold World.pending
      cases hbox : msg with
      | none => rfl
      | some b =>
        obtain ⟨m, hm, -, hzero⟩ := (hfresh b hbox).2.2 hrc
        have hcontent : m.content = [] := by
          unfold MessageH.content
          rw [hzero]
          rfl
        rw [Option.bind_some, hm]
        exact hcontent
    show Worded _ (v.pending { peer with msg := msg })
    rw [hempty]
    exact .nil
  · have hsame := hold e₀ he₀
    show Worded _ (v.pending e₀.1.toNeighbor)
    rw [hsame]
    exact hawaits e₀ he₀

/-- The greetings go out when the new record is there. -/
theorem utters_acceptHello {w : World} {val : Ident} {peer : Neighbor}
    (hallowed : ∀ e ∈ (after (acceptHello val peer) w).neighbors.inorder,
      P (neighborToSockaddr6 e.1.toNeighbor) 2 (u64Bytes w.id ++ u64Bytes e.2.id)) :
    Utters P w (after (acceptHello val peer) w) := by
  intro hw hawaits
  obtain ⟨t, hsound, hafter⟩ := acceptHello_cases hw val peer
  rw [(sound_acceptHello hw val peer).2] at hallowed
  have hawaits' := awaits_addNeighbor hw hawaits peer val
  have hadd := neighborAdded hw.neighbors peer val
  obtain ⟨ext, hlog, hall⟩ :=
    @utters_of_hands P _ _ ((registrar_hands nobody).keeps_addNeighbor peer val w)
  generalize after (addNeighbor peer val) w = v at hallowed hadd hsound hafter hawaits' hlog
  have hstored : Uttered P w { v with potential := t } := ⟨hsound, hawaits', ext, hlog, hall⟩
  rcases hafter with hafter | hafter
  · rw [hafter]
    exact hstored
  · rw [hafter]
    have hsend := @utters_sendHelloEveryone P v.neighbors { v with potential := t }
      (fun e he => ⟨he, hadd.id ▸ hallowed e he⟩) hsound hawaits'
    obtain ⟨ext', hlog', hall'⟩ := hsend.log
    refine ⟨hsend.sound, hsend.awaits, ext ++ ext', ?_, fun o ho => ?_⟩
    · rw [hlog', show ({ v with potential := t } : World).log = v.log from rfl, hlog,
        List.append_assoc]
    · exact (List.mem_append.mp ho).elim (hall o) (hall' o)

theorem utters_readHello (length : UInt8) : Keeps (Utters P) (readHello length) :=
  Utters.bind filer_utters.onGetSeconds fun _ => Utters.bind (utters_note trivial) fun _ =>
    Keeps.ite (fun _ => utters_note trivial) fun _ => Utters.pure _

theorem utters_hello {w : World} {tlv : Mem} {length : UInt8} {peer : Neighbor}
    (hallowed : ∀ e ∈ (after (hello tlv length peer) w).neighbors.inorder,
      P (neighborToSockaddr6 e.1.toNeighbor) 2 (u64Bytes w.id ++ u64Bytes e.2.id)) :
    Utters P w (after (hello tlv length peer) w) := by
  have hread := @utters_readHello P length w
  rw [after_hello] at hallowed ⊢
  cases hident : helloIdent w.id tlv length w.clock.head with
  | none => exact hread
  | some val =>
    rw [hident] at hallowed
    have hid : (after (readHello length) w).id = w.id := (prints_readHello length w).id
    exact hread.trans (utters_acceptHello (hid ▸ hallowed))

end Rule

end FloodPeer
