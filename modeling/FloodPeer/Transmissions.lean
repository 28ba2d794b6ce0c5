/-
FloodPeer/Transmissions.lean

To whom each function sends.

`Hands S w w'`: on the way from `w` to `w'` datagrams have been handed over to
addresses in `S` only, and no neighbour has been given up.
-/
import FloodPeer.Batching

namespace FloodPeer

open Octets StateLogic

/-! ### The relation -/

/-- The observations of a program that sends to `S` only and gives up nobody. -/
def Obs.To (S : Sockaddr → Prop) : Obs → Prop
  | .sendto server _ => S server
  | .dropping .. => False
  | _ => True

/-- The log has grown by such observations. -/
def Hands (S : Sockaddr → Prop) (w w' : World) : Prop :=
  ∃ ext, w'.log = w.log ++ ext ∧ ∀ o ∈ ext, o.To S

/-- The addresses of the nodes of a tree. -/
def Tree.addresses (t : Tree) (server : Sockaddr) : Prop :=
  ∃ e ∈ t.inorder, server = neighborToSockaddr6 e.1.toNeighbor

variable {S S' : Sockaddr → Prop} {α β : Type}

/-- The log has not changed. -/
theorem hands_of_log {w w' : World} (h : w'.log = w.log) : Hands S w w' :=
  ⟨[], by rw [h, List.append_nil], fun _ ho => absurd ho List.not_mem_nil⟩

theorem hands_note {o : Obs} (ho : o.To S) : Keeps (Hands S) (note o) := fun _ =>
  ⟨[o], rfl, fun _ ho' => List.mem_singleton.mp ho' ▸ ho⟩

theorem primitive_hands (S : Sockaddr → Prop) : Primitive (Hands S) where
  refl := fun _ => hands_of_log rfl
  trans := by
    rintro u v w ⟨e₁, h₁, hall₁⟩ ⟨e₂, h₂, hall₂⟩
    refine ⟨e₁ ++ e₂, by rw [h₂, h₁, List.append_assoc], fun o ho => ?_⟩
    exact (List.mem_append.mp ho).elim (hall₁ o) (hall₂ o)
  onMalloc := by
    intro w
    cases h : w.mallocs.head with
    | true => exact hands_of_log (by rw [(malloc_of_true h).2])
    | false => exact hands_of_log (by rw [(malloc_of_false h).2])
  onGetSeconds := fun _ => hands_of_log rfl
  onRand := fun _ => hands_of_log rfl
  onUninit := fun _ => hands_of_log rfl
  onFault := hands_note trivial

theorem Hands.mono {w w' : World} (h : Hands S w w') (hS : ∀ s, S s → S' s) : Hands S' w w' := by
  obtain ⟨ext, hext, hall⟩ := h
  refine ⟨ext, hext, fun o ho => ?_⟩
  have hto := hall o ho
  cases o with
  | sendto server bytes => exact hS server hto
  | _ => exact hto

theorem Hands.bind {m : Peer α} {f : α → Peer β} (hm : Keeps (Hands S) m)
    (hf : ∀ a, Keeps (Hands S) (f a)) : Keeps (Hands S) (m >>= f) :=
  (primitive_hands S).bind hm hf

theorem Hands.pure (a : α) : Keeps (Hands S) (Pure.pure a : Peer α) := (primitive_hands S).pure a

theorem Hands.get : Keeps (Hands S) (MonadState.get : Peer World) := (primitive_hands S).get

/-- A change of the state that the log does not mention. -/
theorem hands_modify {f : World → World} (hf : ∀ w, (f w).log = w.log) :
    Keeps (Hands S) (modify f : Peer PUnit) := fun w => hands_of_log (hf w)

/-! ### Sending -/

theorem hands_sendMessageNow (buf : MessageH) (taille : Nat) (rcpt : Neighbor) :
    Keeps (Hands (· = neighborToSockaddr6 rcpt)) (sendMessageNow buf taille rcpt) := fun _ =>
  ⟨[.sendto _ _], rfl, fun _ ho => List.mem_singleton.mp ho ▸ rfl⟩

theorem hands_gather (a : Nat) (msg : MessageH) (actSize : Nat) (bytes : List UInt8) :
    Keeps (Hands S) (gather a msg actSize bytes) := by
  unfold gather
  refine Keeps.ite (fun _ => ?_) fun _ => ?_
  · exact Hands.bind (hands_note trivial) fun _ => hands_modify fun _ => rfl
  · exact hands_modify fun _ => rfl

theorem hands_sendMessage (buf : MessageH) (taille : Nat) (rcpt : Neighbor) :
    Keeps (Hands (· = neighborToSockaddr6 rcpt)) (sendMessage buf taille rcpt) := by
  unfold sendMessage
  cases rcpt.msg with
  | none => exact Hands.bind (hands_sendMessageNow _ _ _) fun _ => Hands.pure _
  | some a =>
    refine Hands.bind Hands.get fun w => ?_
    cases w.msgs a with
    | none => exact Hands.bind (hands_note trivial) fun _ => Hands.pure _
    | some msg =>
      refine Hands.bind (hands_note trivial) fun _ => Hands.bind ?_ fun actSize =>
        Hands.bind (hands_gather _ _ _ _) fun _ => Hands.pure _
      exact Keeps.ite (fun _ => Hands.bind (hands_sendMessageNow _ _ _) fun _ => Hands.pure _)
        fun _ => Hands.pure _

theorem hands_flushNeighbor (key : Neighbor) :
    Keeps (Hands (· = neighborToSockaddr6 key)) (flushNeighbor key) := by
  unfold flushNeighbor
  cases key.msg with
  | none => exact Hands.pure _
  | some a =>
    refine Hands.bind Hands.get fun w => ?_
    cases w.msgs a with
    | none => exact Hands.bind (hands_note trivial) fun _ => Hands.pure _
    | some msg =>
      refine Keeps.ite (fun _ => ?_) fun _ => Hands.pure _
      exact Hands.bind (hands_sendMessageNow _ _ _) fun _ =>
        Hands.bind (hands_modify fun _ => rfl) fun _ => Hands.pure _

/-- A walk over a tree sends to the nodes of the tree. -/
theorem hands_walk {visit : Tree → Peer Int} {one : NeighborPtr → Ident → Peer Int}
    (hnull : ∀ w, after (visit .null) w = w)
    (hnode : ∀ key val left right w, after (visit (.node key val left right)) w =
      after (visit right) (after (visit left) (after (one key val) w)))
    (hone : ∀ key val, Keeps (Hands (· = neighborToSockaddr6 key.toNeighbor)) (one key val))
    (t : Tree) : Keeps (Hands t.addresses) (visit t) := by
  induction t with
  | null =>
    intro w
    rw [hnull]
    exact hands_of_log rfl
  | node key val left right ihl ihr =>
    intro w
    rw [hnode]
    have h₁ := (hone key val w).mono fun s hs =>
      show (Tree.node key val left right).addresses s from ⟨(key, val), by simp, hs⟩
    have h₂ := (ihl (after (one key val) w)).mono fun s ⟨e, he, hs⟩ =>
      show (Tree.node key val left right).addresses s from ⟨e, by simp [he], hs⟩
    have h₃ := (ihr (after (visit left) (after (one key val) w))).mono fun s ⟨e, he, hs⟩ =>
      show (Tree.node key val left right).addresses s from ⟨e, by simp [he], hs⟩
    exact (primitive_hands _).trans h₁ ((primitive_hands _).trans h₂ h₃)

theorem hands_sendToEveryone (buf : MessageH) (length : Nat) (t : Tree) :
    Keeps (Hands t.addresses) (sendToEveryone buf length t) :=
  @hands_walk (sendToEveryone buf length) (fun key _ => sendMessage buf length key.toNeighbor)
    (fun _ => rfl) (fun _ _ _ _ _ => rfl) (fun _ _ => hands_sendMessage _ _ _) t

theorem hands_sendToEveryoneNow (t : Tree) : Keeps (Hands t.addresses) (sendToEveryoneNow t) :=
  @hands_walk sendToEveryoneNow (fun key _ => flushNeighbor key.toNeighbor)
    (fun _ => rfl) (fun _ _ _ _ _ => rfl) (fun _ _ => hands_flushNeighbor _) t

theorem hands_sendHelloEveryone (t : Tree) : Keeps (Hands t.addresses) (sendHelloEveryone t) :=
  @hands_walk sendHelloEveryone sendHello (fun _ => rfl) (fun _ _ _ _ _ => rfl)
    (fun _ _ => Hands.bind (primitive_hands _).onUninit fun _ => Hands.bind Hands.get fun _ =>
      hands_sendMessage _ _ _) t

theorem hands_symetricalLoop (t : Tree) (l : List NgbEntry) (body : Mem) (size : Nat)
    (res count : Int) : Keeps (Hands t.addresses) (symetricalLoop t l body size res count) := by
  induction l generalizing body size res count with
  | nil => exact Hands.pure _
  | cons tmp rest ih =>
    exact Keeps.ite (fun _ => Hands.bind (hands_sendToEveryone _ _ _) fun _ => ih _ _ _ _)
      fun _ => ih _ _ _ _

theorem hands_sendSymetricalEveryone (t : Tree) :
    Keeps (Hands t.addresses) (sendSymetricalEveryone t) := by
  refine Hands.bind Hands.get fun w => ?_
  refine Hands.bind ((primitive_hands _).keeps_getSymmetrical _) fun sym => ?_
  cases sym with
  | none => exact Hands.pure _
  | some sym =>
    refine Hands.bind (hands_symetricalLoop _ _ _ _ _ _) fun r => ?_
    refine Hands.bind (hands_modify fun _ => rfl) fun _ => ?_
    exact Keeps.ite (fun _ => hands_sendToEveryone _ _ _) fun _ => Hands.pure _

theorem hands_sendShorthelloEveryone (t : Tree) (w : World) :
    Hands w.potential.addresses w (after (sendShorthelloEveryone t) w) :=
  (primitive_hands _).trans ((primitive_hands _).onUninit w)
    (hands_sendToEveryone _ _ w.potential (after uninit w))

theorem hands_sendAck (index : DataIndex) (peer : Neighbor) :
    Keeps (Hands (· = neighborToSockaddr6 peer)) (sendAck index peer) :=
  Hands.bind (primitive_hands _).onUninit fun _ =>
    Keeps.ite (fun _ => Hands.bind (hands_sendMessage _ _ _) fun _ => Hands.pure _)
      fun _ => Hands.pure _

theorem hands_sendData (tlv : List UInt8) (key : Neighbor) :
    Keeps (Hands (· = neighborToSockaddr6 key)) (sendData tlv key) := by
  unfold sendData
  extract_lets bodyLength
  exact Keeps.ite (fun _ => Hands.bind (hands_note trivial) fun _ => Hands.pure _) fun _ =>
    Hands.bind (primitive_hands _).onUninit fun _ => hands_sendMessage _ _ _

/-! ### Records and the flood list -/

theorem registrar_hands (S : Sockaddr → Prop) : Registrar (Hands S) :=
  { primitive_hands S with
    onNeighbors := fun _ => hands_modify fun _ => rfl
    onPotential := fun _ => hands_modify fun _ => rfl
    onPutMsg := fun _ _ => hands_modify fun _ => rfl
    onFreeMsg := fun _ => hands_modify fun _ => rfl }

theorem filer_hands (S : Sockaddr → Prop) : Filer (Hands S) :=
  { primitive_hands S with onSetSyms := fun _ _ => hands_modify fun _ => rfl }

theorem hands_removeNeighborEverywhere (peer : NeighborPtr) :
    Keeps (Hands S) (removeNeighborEverywhere peer) :=
  (filer_hands S).keeps_removeNeighborEverywhere (registrar_hands S) peer

theorem hands_addMessageToFlood (msgSend : Mem) (size : UInt8) (toDelete : Option NeighborPtr) :
    Keeps (Hands S) (addMessageToFlood msgSend size toDelete) := by
  apply (primitive_hands S).keeps_addMessageToFlood
  · exact fun _ _ => hands_note trivial
  · exact fun _ => hands_modify fun _ => rfl

/-! ### What is received

Whatever arrives, no neighbour is given up while it is handled. -/

/-- Any address. -/
def anybody (_ : Sockaddr) : Prop := True

theorem hands_anybody {m : Peer α} (h : ∀ w, ∃ S, Hands S w (after m w)) :
    Keeps (Hands anybody) m := fun w => by
  obtain ⟨S, hS⟩ := h w
  exact hS.mono fun _ _ => trivial

theorem hands_printOnScreen (data : Mem) (off size : Nat) :
    Keeps (Hands S) (printOnScreen data off size) := by
  have hn : ∀ o : Obs, o.To S → Keeps (Hands S) (note o) := fun _ => hands_note
  refine Hands.bind (hn _ trivial) fun _ => Hands.bind (hn _ trivial) fun _ => ?_
  refine Keeps.ite (fun _ => Hands.bind (hn _ trivial) fun _ => hn _ trivial) fun _ => ?_
  refine Hands.bind (hn _ trivial) fun _ => Hands.bind (hn _ trivial) fun _ =>
    Hands.bind (hn _ trivial) fun _ => Hands.bind (hn _ trivial) fun _ => ?_
  refine Keeps.ite (fun _ => Hands.bind (hn _ trivial) fun _ => hn _ trivial) fun _ => ?_
  refine Hands.bind (hn _ trivial) fun _ => ?_
  exact Keeps.ite (fun _ => Hands.bind (hn _ trivial) fun _ => hn _ trivial)
    fun _ => hn _ trivial

theorem hands_acceptHello (val : Ident) (peer : Neighbor) :
    Keeps (Hands anybody) (acceptHello val peer) :=
  (registrar_hands anybody).keeps_acceptHello
    (fun t => hands_anybody fun v => ⟨_, hands_sendHelloEveryone t v⟩) val peer

theorem hands_hello (tlv : Mem) (length : UInt8) (peer : Neighbor) :
    Keeps (Hands anybody) (hello tlv length peer) := by
  refine Hands.bind (primitive_hands _).onGetSeconds fun current => ?_
  refine Hands.bind (hands_note trivial) fun _ => Keeps.ite (fun _ => ?_) fun _ =>
    hands_acceptHello _ _
  refine Hands.bind (hands_note trivial) fun _ => Hands.bind Hands.get fun _ => ?_
  exact Keeps.ite (fun _ => hands_acceptHello _ _) fun _ => Hands.pure _

theorem hands_neighbour (tlv : Mem) (length : UInt8) (peer : Neighbor) :
    Keeps (Hands anybody) (neighbour tlv length peer) := by
  refine Hands.bind (hands_note trivial) fun _ => Hands.bind (hands_note trivial) fun _ => ?_
  refine Hands.bind Hands.get fun w => ?_
  split
  · exact Hands.pure _
  · exact Hands.bind (primitive_hands _).onGetSeconds fun _ =>
      Hands.bind ((registrar_hands _).keeps_addPotential _ _) fun _ => Hands.pure _

theorem hands_data (tlv : Mem) (length : UInt8) (peer : Neighbor) :
    Keeps (Hands anybody) (data tlv length peer) := by
  refine Hands.bind (hands_note trivial) fun _ => Hands.bind (hands_note trivial) fun _ => ?_
  refine Hands.bind (hands_anybody fun v => ⟨_, hands_sendAck _ _ v⟩) fun _ => ?_
  refine Hands.bind ((primitive_hands _).keeps_getFlood _) fun ent => ?_
  cases ent with
  | some ent =>
    exact Hands.bind ((filer_hands _).keeps_removeNeighborFromFlood _ _) fun _ => Hands.pure _
  | none =>
    refine Hands.bind (hands_note trivial) fun _ => ?_
    refine Hands.bind (hands_addMessageToFlood _ _ _) fun _ => ?_
    refine Hands.bind (hands_note trivial) fun _ => Keeps.ite (fun _ => ?_) fun _ => Hands.pure _
    exact Hands.bind (hands_note trivial) fun _ => hands_printOnScreen _ _ _

theorem hands_goaway (tlv : Mem) (length : UInt8) (peer : Neighbor) :
    Keeps (Hands anybody) (goaway tlv length peer) := by
  refine Hands.bind (hands_note trivial) fun _ => Hands.bind (hands_note trivial) fun _ => ?_
  refine Hands.bind (Hands.bind (hands_note trivial) fun _ => Keeps.ite (fun _ => ?_) fun _ => ?_)
    fun _ => Hands.bind (hands_removeNeighborEverywhere _) fun _ => Hands.pure _
  · exact hands_note trivial
  · exact Hands.bind (hands_note trivial) fun _ => hands_note trivial

theorem hands_handleTlv (type : UInt8) (tlv : Mem) (length : UInt8) (peer : Neighbor) :
    Keeps (Hands anybody) (handleTlv type tlv length peer) := by
  unfold handleTlv
  split
  · exact Hands.pure _
  · exact Hands.pure _
  · exact hands_hello _ _ _
  · exact hands_neighbour _ _ _
  · exact hands_data _ _ _
  · exact Hands.bind (hands_note trivial) fun _ => Hands.bind (hands_note trivial) fun _ =>
      Hands.bind ((filer_hands _).keeps_removeNeighborFromFlood _ _) fun _ => Hands.pure _
  · exact hands_goaway _ _ _
  · exact Hands.bind (hands_note trivial) fun _ => Hands.bind (hands_note trivial) fun _ =>
      hands_note trivial

theorem hands_handleMessageH (msg : MessageH) (n : Nat) (rcpt : Neighbor) :
    Keeps (Hands anybody) (handleMessageH msg n rcpt) := by
  have hperform : ∀ (l : List Step) (tlv : Mem), Keeps (Hands anybody) (perform rcpt l tlv) := by
    intro l
    induction l with
    | nil => exact fun _ => Hands.pure _
    | cons s rest ih =>
      intro tlv
      cases s with
      | look pos n => exact Hands.bind (hands_note trivial) fun _ => ih _
      | tlv type length pos value =>
        exact Hands.bind (hands_note trivial) fun _ => Hands.bind (hands_note trivial) fun _ =>
          Hands.bind (hands_handleTlv _ _ _ _) fun _ => ih _
      | stuck => exact Hands.bind (hands_note trivial) fun _ => ih _
  rw [handleMessageH_eq]
  exact Keeps.ite (fun _ => Hands.bind (primitive_hands _).onUninit fun _ => hperform _ _)
    fun _ => Hands.pure _

theorem hands_localMessage (got : Option (List UInt8)) :
    Keeps (Hands anybody) (localMessage got) := by
  rw [localMessage_eq]
  refine Hands.bind ((primitive_hands _).keeps_composeText got) fun _ => ?_
  exact Hands.bind (hands_addMessageToFlood _ _ _) fun _ => hands_printOnScreen _ _ _

theorem hands_readDescriptors (wake : Wake) (m : MainState) :
    Keeps (Hands anybody) (readDescriptors wake m) := by
  refine Keeps.ite (fun _ => ?_) fun _ => Hands.pure _
  rcases wake.soc with _ | r
  on_goal 1 => refine Hands.bind (Hands.pure m) fun m => ?_
  on_goal 2 =>
    refine Hands.bind (Hands.bind (hands_handleMessageH _ _ _) fun _ => Hands.pure _) fun m => ?_
  -- what comes from the interface is handled alike
  all_goals
    cases wake.gui with
    | none => exact Hands.pure m
    | some got => exact Hands.bind (hands_localMessage got) fun _ => Hands.pure _

end FloodPeer
