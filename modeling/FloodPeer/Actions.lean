/-
FloodPeer/Actions.lean

What the moves of the peer are made of.

Whatever the peer does, it does with a few actions: it sends a body to a record or
to an address, flushes a record, adds or removes a record, writes to its own
variables and remarks on what it does.  A transitive relation that holds of every
action, at the states where the program takes it, holds of every move
(`Acts.does`).  Only what an accepted Hello does is not taken apart: between its
actions a neighbour is a potential one as well.
-/
import FloodPeer.Filing

namespace FloodPeer

open Octets StateLogic

/-- What a handler says about what it does, in contrast to what it sends. -/
def Obs.remark : Obs → Bool
  | .queued .. | .sendto .. => false
  | _ => true

/-- Where a body may go: to a bare address, or to a record of `NEIGHBORS`. -/
def World.Addressable (w : World) (rcpt : Neighbor) : Prop :=
  rcpt.msg = none ∨ ∃ e ∈ w.neighbors.inorder, rcpt = e.1.toNeighbor

theorem World.Addressable.of_neighbors {w w' : World} {rcpt : Neighbor} (h : w.Addressable rcpt)
    (hn : w'.neighbors = w.neighbors) : w'.Addressable rcpt :=
  h.imp_right fun hmem => hn ▸ hmem

/-- A relation that every action keeps. -/
structure Acts (R : World → World → Prop) : Prop extends Filer R where
  onRemark : ∀ {o : Obs}, o.remark = true → Keeps R (note o)
  onSet : ∀ w l t n, R w { w with dataf := l, nexttime := t, nbSymetrical := n }
  onSend : ∀ {w buf rcpt} (taille : Nat), buf.declared ≤ pmtu - 4 → w.Addressable rcpt →
    R w (after (sendMessage buf taille rcpt) w)
  onFlush : ∀ {w} {e : NeighborPtr × Ident}, e ∈ w.neighbors.inorder →
    R w (after (flushNeighbor e.1.toNeighbor) w)
  onRemoveNeighbor : ∀ key, Keeps R (removeNeighbor key)
  onRemovePotential : ∀ key, Keeps R (removePotential key)
  onAddPotential : ∀ {w key} val, getIdent key w.neighbors = none →
    R w (after (addPotential key val) w)

section Acts

variable {R : World → World → Prop} (h : Acts R) {α β : Type} {w : World}

include h

/-! ### Bodies that are sent -/

/-- A walk over a tree, from node to node. -/
theorem Acts.walk {visit : Tree → Peer Int} {one : NeighborPtr → Ident → Peer Int}
    (hnull : ∀ w, after (visit .null) w = w)
    (hnode : ∀ key val left right w, after (visit (.node key val left right)) w =
      after (visit right) (after (visit left) (after (one key val) w)))
    (hboxes : ∀ key val, Keeps Boxes (one key val)) (hvisit : ∀ t, Keeps Boxes (visit t))
    (hone : ∀ key val w, w.Addressable key.toNeighbor → R w (after (one key val) w))
    (t : Tree) (hall : ∀ e ∈ t.inorder, w.Addressable e.1.toNeighbor) :
    R w (after (visit t) w) := by
  induction t generalizing w with
  | null =>
    rw [hnull]
    exact h.refl w
  | node key val left right ihl ihr =>
    have hfirst := hboxes key val w
    have hleft := hvisit left (after (one key val) w)
    have hkey : w.Addressable key.toNeighbor := hall (key, val) (by simp)
    rw [hnode]
    refine h.trans (hone key val w hkey) (h.trans (ihl fun e he => ?_) (ihr fun e he => ?_))
    · exact (hall e (by simp [he])).of_neighbors hfirst.neighbors
    · exact (hall e (by simp [he])).of_neighbors (hfirst.trans hleft).neighbors

theorem Acts.sendToEveryone {buf : MessageH} (hbuf : buf.declared ≤ pmtu - 4) (length : Nat)
    (t : Tree) (ht : ∀ e ∈ t.inorder, w.Addressable e.1.toNeighbor) :
    R w (after (sendToEveryone buf length t) w) :=
  @Acts.walk R h w (FloodPeer.sendToEveryone buf length)
    (fun key _ => sendMessage buf length key.toNeighbor) (fun _ => rfl) (fun _ _ _ _ _ => rfl)
    (fun _ _ => boxes_sendMessage hbuf _ _) (boxes_sendToEveryone hbuf _)
    (fun _ _ _ hkey => h.onSend length hbuf hkey) t ht

theorem Acts.sendHelloEveryone (t : Tree) (ht : ∀ e ∈ t.inorder, w.Addressable e.1.toNeighbor) :
    R w (after (sendHelloEveryone t) w) := by
  have hbuf : ∀ (mem : Mem) (val : Ident) (id : UInt64),
      (messageOf (tlvLongHello mem 0 (pmtu - 4) id val.id).1
        (tlvLongHello mem 0 (pmtu - 4) id val.id).2).declared ≤ pmtu - 4 :=
    fun mem val id => le_trans (le_of_eq (declared_longHello mem id val.id)) (by decide)
  let one : NeighborPtr → Ident → Peer Int := fun key val => uninit >>= fun mem =>
    MonadState.get >>= fun w : World =>
      sendMessage (messageOf (tlvLongHello mem 0 (pmtu - 4) w.id val.id).1
        (tlvLongHello mem 0 (pmtu - 4) w.id val.id).2)
        (toSize ((tlvLongHello mem 0 (pmtu - 4) w.id val.id).2 + 4)) key.toNeighbor
  have hboxes : ∀ key val, Keeps Boxes (one key val) := fun _ val =>
    Boxes.bind (Quiet.boxes quiet_uninit) fun mem =>
      Boxes.bind (Quiet.boxes Quiet.get) fun w => boxes_sendMessage (hbuf mem val w.id) _ _
  refine @Acts.walk R h w FloodPeer.sendHelloEveryone one (fun _ => rfl) (fun _ _ _ _ _ => rfl)
    hboxes boxes_sendHelloEveryone (fun key val v hkey => ?_) t ht
  exact h.trans (h.onUninit v)
    (h.onSend _ (hbuf v.memory.head val v.id) (hkey.of_neighbors rfl))

theorem Acts.sendToEveryoneNow (t : Tree) (ht : ∀ e ∈ t.inorder, e ∈ w.neighbors.inorder) :
    R w (after (sendToEveryoneNow t) w) := by
  induction t generalizing w with
  | null => exact h.refl w
  | node key val left right ihl ihr =>
    have hfirst := boxes_flushNeighbor key.toNeighbor w
    have hleft := boxes_sendToEveryoneNow left (after (flushNeighbor key.toNeighbor) w)
    have hkey : (key, val) ∈ w.neighbors.inorder := ht _ (by simp)
    refine h.trans (h.onFlush hkey) (h.trans (ihl fun e he => ?_) (ihr fun e he => ?_))
    · exact hfirst.neighbors ▸ ht e (by simp [he])
    · exact (hfirst.trans hleft).neighbors ▸ ht e (by simp [he])

theorem Acts.symetricalLoop (people : Tree) (l : List NgbEntry) (body : Mem) {size : Nat}
    (hsize : size ≤ pmtu - 4) (res count : Int)
    (hpeople : ∀ e ∈ people.inorder, w.Addressable e.1.toNeighbor) :
    R w (after (symetricalLoop people l body size res count) w) := by
  have hp := pmtu_eq
  induction l generalizing body size res count w with
  | nil => exact h.refl w
  | cons tmp rest ih =>
    have hroom : toSize ((pmtu : Int) - 4 - size) = pmtu - 4 - size := by
      rw [toSize_of_nonneg (by omega) (by omega)]
      omega
    have hbuf : (messageOf body size).declared ≤ pmtu - 4 := by
      rw [declared_messageOf body (by omega)]
      exact hsize
    unfold FloodPeer.symetricalLoop
    by_cases hfull : (tlvNeighbour body size (toSize ((pmtu : Int) - 4 - size))
        tmp.sym.toNeighbor).2 < 0
    · -- the body is sent, and the TLV starts a new one
      simp only [if_pos hfull]
      have hboxes := boxes_sendToEveryone hbuf (size + 4) people w
      refine h.trans (h.sendToEveryone hbuf (size + 4) people hpeople) (ih _ (by omega) _ _ ?_)
      exact fun e he => (hpeople e he).of_neighbors hboxes.neighbors
    · simp only [if_neg hfull]
      have hfits : size + 20 ≤ pmtu - 4 := by
        rw [hroom] at hfull
        unfold tlvNeighbour at hfull
        by_cases h21 : pmtu - 4 - size > 21
        · omega
        · simp [if_neg h21] at hfull
      exact ih _ hfits _ _ hpeople

theorem Acts.sendSymetricalEveryone : R w (after (sendSymetricalEveryone w.neighbors) w) := by
  have hlist := h.keeps_getSymmetrical w.neighbors w
  have hboxes := Quiet.boxes (primitive_quiet.keeps_getSymmetrical w.neighbors) w
  unfold FloodPeer.sendSymetricalEveryone
  rw [after_bind, value_get, after_get, after_bind]
  generalize value (getSymmetrical w.neighbors) w = sym
  generalize after (getSymmetrical w.neighbors) w = u at hlist hboxes ⊢
  cases sym with
  | none => exact hlist
  | some sym =>
    have hpeople : ∀ e ∈ w.neighbors.inorder, u.Addressable e.1.toNeighbor :=
      fun e he => .inr ⟨e, hboxes.neighbors ▸ he, rfl⟩
    have hloop := h.symetricalLoop w.neighbors sym.contents (fun _ => 0)
      (Nat.zero_le (pmtu - 4)) 0 0 hpeople
    obtain ⟨hkept, hsize⟩ := boxes_symetricalLoop w.neighbors sym.contents (fun _ => 0)
      (Nat.zero_le (pmtu - 4)) 0 0
    have hneighbors := (hkept u).neighbors
    have hsize := hsize u
    refine h.trans hlist ?_
    show R u (after (FloodPeer.symetricalLoop w.neighbors sym.contents (fun _ => 0) 0 0 0 >>= _) u)
    rw [after_bind]
    refine h.trans hloop ?_
    generalize value (FloodPeer.symetricalLoop w.neighbors sym.contents (fun _ => 0) 0 0 0) u = r
      at hsize
    generalize after (FloodPeer.symetricalLoop w.neighbors sym.contents (fun _ => 0) 0 0 0) u = v
      at hneighbors ⊢
    obtain ⟨body, size, res, count⟩ := r
    dsimp only at hsize ⊢
    rw [after_bind]
    refine h.trans (h.onSet v v.dataf v.nexttime count) ?_
    have hp := pmtu_eq
    split
    · refine h.sendToEveryone ?_ _ _ fun e he => ?_
      · rw [declared_messageOf body (by omega)]
        exact hsize
      · exact (hpeople e he).of_neighbors hneighbors
    · exact h.refl _

theorem Acts.sendAck (index : DataIndex) {peer : Neighbor} (hpeer : peer.msg = none) :
    Keeps R (sendAck index peer) := by
  intro w
  have hbuf : (messageOf (tlvAck w.memory.head 0 (pmtu - 4) index.id index.nonce).1
      (tlvAck w.memory.head 0 (pmtu - 4) index.id index.nonce).2).declared ≤ pmtu - 4 :=
    le_trans (le_of_eq (declared_ack w.memory.head index.id index.nonce)) (by decide)
  exact h.trans (h.onUninit w) (h.onSend _ hbuf (.inl hpeer))

theorem Acts.sendData {tlv : List UInt8} {key : Neighbor} (hkey : w.Addressable key) :
    R w (after (sendData tlv key) w) := by
  unfold FloodPeer.sendData
  extract_lets bodyLength
  have hlt : bodyLength < 130 := by
    have hchar := toChar_lt (tlv.getD 1 0)
    show toChar (tlv.getD 1 0) + 2 < 130
    omega
  by_cases hneg : bodyLength < 0
  · rw [if_pos hneg]
    exact h.onFault w
  · rw [if_neg hneg]
    obtain ⟨n, hn⟩ := Int.eq_ofNat_of_zero_le (Int.not_lt.mp hneg)
    have hp := pmtu_eq
    have hbuf : (messageOf (write w.memory.head 0 (tlv.take bodyLength.toNat))
        bodyLength).declared ≤ pmtu - 4 := by
      rw [hn, declared_messageOf _ (by omega)]
      omega
    have hreach : (after uninit w).Addressable key := hkey.of_neighbors rfl
    rw [after_bind, value_uninit]
    exact h.trans (h.onUninit w) (h.onSend _ hbuf hreach)

/-! ### Records that are removed -/

theorem Acts.removeNeighborEverywhere (peer : NeighborPtr) :
    Keeps R (removeNeighborEverywhere peer) :=
  h.bind h.get fun _ => h.bind (h.keeps_removeFromFloods _ _) fun _ =>
    h.bind (h.onRemoveNeighbor _) fun _ => h.pure _

theorem Acts.expire {msg : MessageH} (hmsg : msg.declared ≤ pmtu - 4) (taille : Nat)
    (sym : NeighborPtr) : Keeps R (expire msg taille sym) := by
  intro w
  rw [after_expire]
  split
  · rename_i hown
    obtain ⟨e, he, rfl⟩ := List.mem_map.mp hown
    have hnote : R w (after (note (.dropping e.1 (w.pending e.1.toNeighbor))) w) :=
      h.onRemark rfl w
    refine h.trans hnote (h.trans (h.onSend _ hmsg ?_) (h.removeNeighborEverywhere _ _))
    exact .inr ⟨e, he, rfl⟩
  · exact h.onFault w

theorem Acts.handleInactive (sym : NeighborPtr) : Keeps R (handleInactive sym) := by
  intro w
  have hmsg : (inactiveMessage w.memory.head).declared ≤ pmtu - 4 :=
    le_trans (le_of_eq (declared_inactive w.memory.head)) (by decide)
  rw [after_handleInactive]
  exact h.trans (h.onUninit w) (h.expire hmsg 31 sym _)

theorem Acts.floodTurn (flood : Nat) (currentTime : Int) (tmp : Nat) :
    Keeps R (floodTurn flood currentTime tmp) := by
  intro w
  have hsend : ∀ (f : FloodEntry) (nw : NgbEntry), w.neighbors.owns nw.sym →
      R w (after (FloodPeer.sendData f.data nw.sym.toNeighbor) w) := by
    intro f nw hown
    obtain ⟨e, he, hkey⟩ := List.mem_map.mp hown
    exact h.sendData (.inr ⟨e, he, by rw [hkey]⟩)
  cases floodTurn_cases flood currentTime tmp w with
  | absent _ hw =>
    rw [hw]
    exact h.onFault w
  | inactive f nw _ _ hw =>
    rw [hw]
    exact h.handleInactive nw.sym w
  | dangling f nw _ _ _ _ hw =>
    rw [hw]
    exact h.onFault w
  | refused f nw _ _ _ hown _ hw =>
    rw [hw]
    exact hsend f nw hown
  | sent f nw _ _ _ hown _ hw =>
    rw [hw]
    exact h.trans (hsend f nw hown) (h.keeps_requeue _ _ _ _ _ _)
  | early f nw _ _ _ hw =>
    rw [hw]
    exact h.onSet w w.dataf (min w.nexttime nw.waitTime) w.nbSymetrical

theorem Acts.potentialLoop (l : List NgbEntry) : Keeps R (potentialLoop l) := by
  induction l with
  | nil => exact h.pure _
  | cons ent rest ih => exact h.bind (h.onRemovePotential _) fun _ => ih

/-! ### Handlers -/

theorem Acts.printOnScreen (data : Mem) (off size : Nat) :
    Keeps R (printOnScreen data off size) := by
  refine h.bind (h.onRemark rfl) fun _ => h.bind (h.onRemark rfl) fun _ => ?_
  refine Keeps.ite (fun _ => h.bind h.onFault fun _ => h.onRemark rfl) fun _ => ?_
  refine h.bind (h.onRemark rfl) fun _ => h.bind (h.onRemark rfl) fun _ =>
    h.bind (h.onRemark rfl) fun _ => h.bind (h.onRemark rfl) fun _ => ?_
  refine Keeps.ite (fun _ => h.bind h.onFault fun _ => h.onRemark rfl) fun _ => ?_
  refine h.bind (h.onRemark rfl) fun _ => ?_
  exact Keeps.ite (fun _ => h.bind (h.onRemark rfl) fun _ => h.onRemark rfl)
    fun _ => h.onRemark rfl

theorem Acts.addMessageToFlood (msgSend : Mem) (size : UInt8) (toDelete : Option NeighborPtr) :
    Keeps R (addMessageToFlood msgSend size toDelete) :=
  h.keeps_addMessageToFlood (fun _ _ => h.onRemark rfl)
    (fun l w => h.onSet w l w.nexttime w.nbSymetrical) _ _ _

theorem Acts.localMessage (got : Option (List UInt8)) : Keeps R (localMessage got) := by
  rw [localMessage_eq]
  refine h.bind (h.keeps_composeText got) fun _ => ?_
  exact h.bind (h.addMessageToFlood _ _ _) fun _ => h.printOnScreen _ _ _

theorem Acts.hello (haccept : ∀ val peer, Keeps R (acceptHello val peer)) (tlv : Mem)
    (length : UInt8) (peer : Neighbor) : Keeps R (hello tlv length peer) := by
  refine h.bind h.onGetSeconds fun _ => h.bind (h.onRemark rfl) fun _ => ?_
  refine Keeps.ite (fun _ => ?_) fun _ => haccept _ _
  refine h.bind (h.onRemark rfl) fun _ => h.bind h.get fun _ => ?_
  exact Keeps.ite (fun _ => haccept _ _) fun _ => h.pure _

theorem Acts.neighbour (tlv : Mem) (length : UInt8) (peer : Neighbor) :
    Keeps R (neighbour tlv length peer) := by
  refine h.bind (h.onRemark rfl) fun _ => h.bind (h.onRemark rfl) fun _ => ?_
  intro w
  simp only [after_bind, value_get, after_get]
  cases hkey : getIdent (keyAt tlv) w.neighbors with
  | some _ => exact h.refl w
  | none => exact h.trans (h.onGetSeconds w) (h.onAddPotential (w := after getSeconds w) _ hkey)

theorem Acts.data (tlv : Mem) (length : UInt8) {peer : Neighbor} (hpeer : peer.msg = none) :
    Keeps R (data tlv length peer) := by
  refine h.bind (h.onRemark rfl) fun _ => h.bind (h.onRemark rfl) fun _ => ?_
  refine h.bind (h.sendAck _ hpeer) fun _ => h.bind (h.keeps_getFlood _) fun ent => ?_
  cases ent with
  | some ent => exact h.bind (h.keeps_removeNeighborFromFlood _ _) fun _ => h.pure _
  | none =>
    refine h.bind (h.onRemark rfl) fun _ => h.bind (h.addMessageToFlood _ _ _) fun _ => ?_
    refine h.bind (h.onRemark rfl) fun _ => Keeps.ite (fun _ => ?_) fun _ => h.pure _
    exact h.bind (h.onRemark rfl) fun _ => h.printOnScreen _ _ _

theorem Acts.ack (tlv : Mem) (length : UInt8) (peer : Neighbor) :
    Keeps R (ack tlv length peer) := by
  refine h.bind (h.onRemark rfl) fun _ => h.bind (h.onRemark rfl) fun _ => ?_
  exact h.bind (h.keeps_removeNeighborFromFlood _ _) fun _ => h.pure _

theorem Acts.goaway (tlv : Mem) (length : UInt8) (peer : Neighbor) :
    Keeps R (goaway tlv length peer) := by
  refine h.bind (h.onRemark rfl) fun _ => h.bind (h.onRemark rfl) fun _ => ?_
  refine h.bind (h.bind (h.onRemark rfl) fun _ => ?_) fun _ =>
    h.bind (h.removeNeighborEverywhere _) fun _ => h.pure _
  exact Keeps.ite (fun _ => h.onFault) fun _ => h.bind (h.onRemark rfl) fun _ => h.onRemark rfl

theorem Acts.handleTlv (haccept : ∀ val peer, Keeps R (acceptHello val peer)) (type : UInt8)
    (buf : Mem) (length : UInt8) {peer : Neighbor} (hpeer : peer.msg = none) :
    Keeps R (handleTlv type buf length peer) := by
  unfold FloodPeer.handleTlv
  split
  · exact h.pure _
  · exact h.pure _
  · exact h.hello haccept _ _ _
  · exact h.neighbour _ _ _
  · exact h.data _ _ hpeer
  · exact h.ack _ _ _
  · exact h.goaway _ _ _
  · exact h.bind (h.onRemark rfl) fun _ => h.bind (h.onRemark rfl) fun _ => h.onRemark rfl

/-! ### Moves -/

/-- Potential neighbours have no message: a short Hello goes to a bare address. -/
theorem Acts.sendShorthelloEveryone (hw : w.Sound) (t : Tree) :
    R w (after (sendShorthelloEveryone t) w) := by
  have hbuf : (messageOf (tlvShortHello w.memory.head 0 (pmtu - 4) w.id).1
      (tlvShortHello w.memory.head 0 (pmtu - 4) w.id).2).declared ≤ pmtu - 4 :=
    le_trans (le_of_eq (declared_shortHello w.memory.head w.id)) (by decide)
  exact h.trans (h.onUninit w) (h.sendToEveryone hbuf _ w.potential fun e he =>
    .inl (hw.direct e he))

/-- **Every move is made of actions**, and of what an accepted Hello does. -/
theorem Acts.does {m : Move} {w' : World} (hmove : m.Does w w') (hw : w.Sound)
    (haccept : ∀ val peer, Keeps R (acceptHello val peer)) (hidle : m = .idle → R w w') :
    R w w' := by
  cases m with
  | idle => exact hidle rfl
  | tlv type buf length client =>
    rw [show w' = _ from hmove]
    exact h.handleTlv haccept _ _ _ rfl w
  | say got =>
    rw [show w' = _ from hmove]
    exact h.localMessage got w
  | hellos =>
    rw [show w' = _ from hmove]
    exact h.sendHelloEveryone w.neighbors fun e he => .inr ⟨e, he, rfl⟩
  | advertise =>
    rw [show w' = _ from hmove]
    exact h.sendSymetricalEveryone
  | shortHellos =>
    rw [show w' = _ from hmove]
    exact h.sendShorthelloEveryone hw _
  | forget key =>
    rw [show w' = _ from hmove]
    exact h.onRemovePotential key w
  | expire mem sym =>
    rw [show w' = _ from hmove]
    exact h.expire (le_trans (le_of_eq (declared_goaway mem)) (by decide)) 7 sym w
  | turn flood currentTime tmp =>
    rw [show w' = _ from hmove]
    exact h.floodTurn flood currentTime tmp w
  | flush =>
    rw [show w' = _ from hmove]
    exact h.sendToEveryoneNow w.neighbors fun e he => he

end Acts

end FloodPeer
