/-
FloodPeer/Sound.lean

What is always true of the records of a peer.

`World.Sound` collects the invariants of the two trees and of the gathered
messages: both trees are search trees, no peer is in both, every message that a
record points to is allocated, well formed and belongs to that record alone.
Most functions only append to messages (`Boxes`); the few that change a tree
are treated one by one, and `sound_of_run` puts them together.
-/
import FloodPeer.Moves

namespace FloodPeer

open Octets StateLogic SortedAssoc Runs

/-! ### The invariant -/

/-- The invariants of the records and their messages. -/
structure World.Sound (w : World) : Prop where
  neighbors : w.neighbors.Sorted
  potential : w.potential.Sorted
  box : ∀ e ∈ w.neighbors.inorder, ∀ a, e.1.msg = some a →
    a < w.next ∧ ∃ m, w.msgs a = some m ∧ m.Box
  own : ∀ e ∈ w.neighbors.inorder, ∀ e' ∈ w.neighbors.inorder, ∀ a,
    e.1.msg = some a → e'.1.msg = some a → e = e'
  direct : ∀ e ∈ w.potential.inorder, e.1.msg = none
  apart : ∀ e ∈ w.neighbors.inorder, ∀ e' ∈ w.potential.inorder, entryPlace e ≠ entryPlace e'

/-- Only the contents of messages and the flood list have changed, and messages
that were well formed still are. -/
structure Boxes (w w' : World) : Prop extends Elapsed w w' where
  potential : w'.potential = w.potential
  neighbors : w'.neighbors = w.neighbors
  box : ∀ a m, w.msgs a = some m → ∃ m', w'.msgs a = some m' ∧ (m.Box → m'.Box)

theorem World.Sound.of_boxes {w w' : World} (h : w.Sound) (hw : Boxes w w') : w'.Sound := by
  refine ⟨?_, ?_, fun e he a ha => ?_, ?_, ?_, ?_⟩
  · rw [hw.neighbors]
    exact h.neighbors
  · rw [hw.potential]
    exact h.potential
  · rw [hw.neighbors] at he
    obtain ⟨hlt, m, hm, hbox⟩ := h.box e he a ha
    obtain ⟨m', hm', hbox'⟩ := hw.box a m hm
    exact ⟨lt_of_lt_of_le hlt hw.next, m', hm', hbox' hbox⟩
  · rw [hw.neighbors]
    exact h.own
  · rw [hw.potential]
    exact h.direct
  · rw [hw.neighbors, hw.potential]
    exact h.apart

theorem Boxes.refl (w : World) : Boxes w w :=
  { Elapsed.refl w with
    potential := rfl
    neighbors := rfl
    box := fun _ m h => ⟨m, h, id⟩ }

theorem Boxes.trans {u v w : World} (h₁ : Boxes u v) (h₂ : Boxes v w) : Boxes u w :=
  { Elapsed.trans h₁.toElapsed h₂.toElapsed with
    potential := h₂.potential.trans h₁.potential
    neighbors := h₂.neighbors.trans h₁.neighbors
    box := fun a m hm => by
      obtain ⟨m₁, hm₁, hb₁⟩ := h₁.box a m hm
      obtain ⟨m₂, hm₂, hb₂⟩ := h₂.box a m₁ hm₁
      exact ⟨m₂, hm₂, hb₂ ∘ hb₁⟩ }

/-- Nothing has happened to the records. -/
theorem Boxes.of_same {w w' : World} (h : Elapsed w w') (hp : w'.potential = w.potential)
    (hn : w'.neighbors = w.neighbors) (hm : w'.msgs = w.msgs) : Boxes w w' :=
  { h with
    potential := hp
    neighbors := hn
    box := fun a m ha => ⟨m, by rw [hm]; exact ha, id⟩ }

theorem Idle.boxes {w w' : World} (h : Idle w w') : Boxes w w' :=
  .of_same h.toElapsed h.potential h.neighbors h.msgs

section Rules

variable {α β : Type}

theorem Boxes.bind {m : Peer α} {f : α → Peer β} (hm : Keeps Boxes m)
    (hf : ∀ a, Keeps Boxes (f a)) : Keeps Boxes (m >>= f) :=
  @Keeps.bind _ _ _ Boxes (fun _ _ _ => Boxes.trans) _ _ hm hf

theorem Boxes.pure (a : α) : Keeps Boxes (Pure.pure a : Peer α) := Boxes.refl

theorem Quiet.boxes {m : Peer α} (hm : Keeps Quiet m) : Keeps Boxes m :=
  hm.mono fun _ _ h => h.idle.boxes

theorem Prints.boxes {m : Peer α} (hm : Keeps Prints m) : Keeps Boxes m :=
  hm.mono fun _ _ h => h.idle.boxes

end Rules

/-! ### Sending -/

/-- A body that fits into a datagram may be sent to anybody. -/
theorem boxes_sendMessage {buf : MessageH} (hbuf : buf.declared ≤ pmtu - 4) (taille : Nat)
    (rcpt : Neighbor) : Keeps Boxes (sendMessage buf taille rcpt) := by
  intro w
  have hsends := sends_sendMessage buf taille rcpt w
  refine { hsends.toLater.elapsed with
    potential := hsends.potential
    neighbors := hsends.neighbors
    box := fun b m hm => ?_ }
  obtain ⟨m', hm'⟩ : ∃ m', (after (sendMessage buf taille rcpt) w).msgs b = some m' := by
    rw [← Option.isSome_iff_exists, hsends.live b, hm]
    rfl
  refine ⟨m', hm', fun hbox => ?_⟩
  cases hmsg : rcpt.msg with
  | none =>
    rw [sendMessage_direct hmsg, (quiet_sendMessageNow _ _ _ w).msgs, hm] at hm'
    exact Option.some.inj hm' ▸ hbox
  | some a =>
    by_cases hb : b = a
    · -- the message that grows, or starts again
      subst hb
      have hp := pmtu_eq
      by_cases hroom : m.declared + buf.declared ≤ pmtu - 4
      · rw [sendMessage_append hmsg hm hroom] at hm'
        simp only [if_true] at hm'
        rw [← Option.some.inj hm']
        exact hbox.put (by rw [length_content]; exact hroom)
      · rw [sendMessage_flush hmsg hm (by omega) hbuf] at hm'
        simp only [if_true] at hm'
        rw [← Option.some.inj hm']
        exact hbox.put (by rw [length_content]; omega)
    · -- the message of another record
      have hother : (after (sendMessage buf taille rcpt) w).msgs b = w.msgs b := by
        cases hbox' : w.msgs a with
        | none =>
          unfold sendMessage
          rw [hmsg]
          simp only [after_bind, value_get, after_get, hbox']
          rfl
        | some ma =>
          have hp := pmtu_eq
          by_cases hroom : ma.declared + buf.declared ≤ pmtu - 4
          · rw [sendMessage_append hmsg hbox' hroom]
            exact if_neg hb
          · rw [sendMessage_flush hmsg hbox' (by omega) hbuf]
            exact if_neg hb
      rw [hother, hm] at hm'
      exact Option.some.inj hm' ▸ hbox

theorem boxes_sendToEveryone {buf : MessageH} (hbuf : buf.declared ≤ pmtu - 4) (length : Nat)
    (people : Tree) : Keeps Boxes (sendToEveryone buf length people) := by
  induction people with
  | null => exact Boxes.pure _
  | node key val left right ihl ihr =>
    exact Boxes.bind (boxes_sendMessage hbuf _ _) fun _ => Boxes.bind ihl fun _ =>
      Boxes.bind ihr fun _ => Boxes.pure _

/-- The sizes of the messages that the peer builds. -/
theorem declared_longHello (mem : Mem) (id id' : UInt64) :
    (messageOf (tlvLongHello mem 0 (pmtu - 4) id id').1
      (tlvLongHello mem 0 (pmtu - 4) id id').2).declared = 18 :=
  @declared_messageOf (tlvLongHello mem 0 (pmtu - 4) id id').1 18 (by omega)

theorem declared_shortHello (mem : Mem) (id : UInt64) :
    (messageOf (tlvShortHello mem 0 (pmtu - 4) id).1
      (tlvShortHello mem 0 (pmtu - 4) id).2).declared = 10 :=
  @declared_messageOf (tlvShortHello mem 0 (pmtu - 4) id).1 10 (by omega)

theorem declared_ack (mem : Mem) (id : UInt64) (nonce : UInt32) :
    (messageOf (tlvAck mem 0 (pmtu - 4) id nonce).1
      (tlvAck mem 0 (pmtu - 4) id nonce).2).declared = 14 :=
  @declared_messageOf (tlvAck mem 0 (pmtu - 4) id nonce).1 14 (by omega)

theorem declared_inactive (mem : Mem) :
    (messageOf (tlvGoaway mem 0 (pmtu - 4) 2 (ofBytes inactiveText) 24).1
      (tlvGoaway mem 0 (pmtu - 4) 2 (ofBytes inactiveText) 24).2).declared = 27 :=
  @declared_messageOf (tlvGoaway mem 0 (pmtu - 4) 2 (ofBytes inactiveText) 24).1 27 (by omega)

theorem declared_goaway (mem : Mem) : (goawayMessage mem).declared = 3 :=
  @declared_messageOf (tlvGoaway mem 0 (pmtu - 4) 2 (fun _ => 0) 0).1 3 (by omega)

theorem boxes_sendHelloEveryone (people : Tree) : Keeps Boxes (sendHelloEveryone people) := by
  induction people with
  | null => exact Boxes.pure _
  | node key val left right ihl ihr =>
    refine Boxes.bind (Quiet.boxes quiet_uninit) fun mem => ?_
    refine Boxes.bind (Quiet.boxes Quiet.get) fun w => ?_
    have hbuf := declared_longHello mem w.id val.id
    exact Boxes.bind (boxes_sendMessage (le_trans (le_of_eq hbuf) (by decide)) _ _) fun _ =>
      Boxes.bind ihl fun _ => Boxes.bind ihr fun _ => Boxes.pure _

theorem toSize_of_nonneg {i : Int} (h : 0 ≤ i) (hlt : i < 18446744073709551616) :
    toSize i = i.toNat := by
  unfold toSize
  omega

/-- The body of `send_symetrical_everyone` never outgrows a datagram. -/
theorem boxes_symetricalLoop (people : Tree) (l : List NgbEntry) (body : Mem) {size : Nat}
    (hsize : size ≤ pmtu - 4) (res count : Int) :
    Keeps Boxes (symetricalLoop people l body size res count) ∧
      ∀ w, (value (symetricalLoop people l body size res count) w).2.1 ≤ pmtu - 4 := by
  have hp := pmtu_eq
  induction l generalizing body size res count with
  | nil => exact ⟨Boxes.pure _, fun _ => hsize⟩
  | cons tmp rest ih =>
    have hroom : toSize ((pmtu : Int) - 4 - size) = pmtu - 4 - size := by
      rw [toSize_of_nonneg (by omega) (by omega)]
      omega
    have hbuf : (messageOf body size).declared ≤ pmtu - 4 := by
      rw [declared_messageOf body (by omega)]
      exact hsize
    unfold symetricalLoop
    by_cases hfull : (tlvNeighbour body size (toSize ((pmtu : Int) - 4 - size))
        tmp.sym.toNeighbor).2 < 0
    · simp only [if_pos hfull]
      exact ⟨Boxes.bind (boxes_sendToEveryone hbuf _ _) fun _ => (ih _ (by omega) _ _).1,
        fun w => (ih _ (by omega) _ _).2 _⟩
    · simp only [if_neg hfull]
      have hfits : size + 20 ≤ pmtu - 4 := by
        rw [hroom] at hfull
        unfold tlvNeighbour at hfull
        by_cases h21 : pmtu - 4 - size > 21
        · omega
        · simp [if_neg h21] at hfull
      exact ⟨(ih _ hfits _ _).1, fun w => (ih _ hfits _ _).2 w⟩

theorem boxes_sendSymetricalEveryone (people : Tree) :
    Keeps Boxes (sendSymetricalEveryone people) := by
  have hp := pmtu_eq
  refine Boxes.bind (Quiet.boxes Quiet.get) fun w => ?_
  refine Boxes.bind (Quiet.boxes (primitive_quiet.keeps_getSymmetrical _)) fun sym => ?_
  cases sym with
  | none => exact Boxes.pure _
  | some sym =>
    obtain ⟨hloop, hsize⟩ :=
      @boxes_symetricalLoop people sym.contents (fun _ => 0) 0 (by omega) 0 0
    have htail : ∀ r : Mem × Nat × Int × Int, r.2.1 ≤ pmtu - 4 → Keeps Boxes (do
        modify fun w => { w with nbSymetrical := r.2.2.2 }
        if r.2.1 > 0 then
          sendToEveryone (messageOf r.1 r.2.1) (r.2.1 + 4) people
        else return r.2.2.1 : Peer Int) := by
      intro r hr
      refine Boxes.bind (fun u => ?_) fun _ => ?_
      · exact .of_same { Elapsed.refl u with id := rfl } rfl rfl rfl
      · refine Keeps.ite (fun _ => boxes_sendToEveryone ?_ _ _) fun _ => Boxes.pure _
        rw [declared_messageOf r.1 (by omega)]
        exact hr
    exact fun v => (hloop v).trans (htail _ (hsize v) _)

theorem boxes_sendShorthelloEveryone (people : Tree) :
    Keeps Boxes (sendShorthelloEveryone people) := by
  refine Boxes.bind (Quiet.boxes quiet_uninit) fun mem => ?_
  refine Boxes.bind (Quiet.boxes Quiet.get) fun w => ?_
  refine Boxes.bind (Quiet.boxes Quiet.get) fun _ => ?_
  have hbuf := declared_shortHello mem w.id
  exact boxes_sendToEveryone (le_trans (le_of_eq hbuf) (by decide)) _ _

theorem boxes_sendAck (index : DataIndex) (peer : Neighbor) : Keeps Boxes (sendAck index peer) := by
  refine Boxes.bind (Quiet.boxes quiet_uninit) fun mem => ?_
  have hbuf := declared_ack mem index.id index.nonce
  exact Keeps.ite (fun _ => Boxes.bind
    (boxes_sendMessage (le_trans (le_of_eq hbuf) (by decide)) _ _) fun _ => Boxes.pure _)
    fun _ => Boxes.pure _

theorem toChar_lt (b : UInt8) : toChar b < 128 := by
  have hlt := b.toNat_lt
  unfold toChar
  rw [Int.bmod_def]
  omega

theorem boxes_sendData (tlv : List UInt8) (key : Neighbor) : Keeps Boxes (sendData tlv key) := by
  unfold sendData
  extract_lets bodyLength
  have hlt : bodyLength < 130 := by
    have hchar := toChar_lt (tlv.getD 1 0)
    show toChar (tlv.getD 1 0) + 2 < 130
    omega
  by_cases hneg : bodyLength < 0
  · rw [if_pos hneg]
    exact Boxes.bind (Quiet.boxes (quiet_note rfl)) fun _ => Boxes.pure _
  · rw [if_neg hneg]
    refine Boxes.bind (Quiet.boxes quiet_uninit) fun mem => boxes_sendMessage ?_ _ _
    obtain ⟨n, hn⟩ := Int.eq_ofNat_of_zero_le (Int.not_lt.mp hneg)
    have hp := pmtu_eq
    rw [hn, declared_messageOf _ (by omega)]
    omega

/-- The flush of a record empties its message. -/
theorem boxes_flushNeighbor (key : Neighbor) : Keeps Boxes (flushNeighbor key) := by
  intro w
  have hsends := sends_flushNeighbor key w
  refine { hsends.toLater.elapsed with
    potential := hsends.potential
    neighbors := hsends.neighbors
    box := fun b m hm => ?_ }
  cases hmsg : key.msg with
  | none =>
    refine ⟨m, ?_, id⟩
    unfold flushNeighbor
    rw [hmsg]
    exact hm
  | some a =>
    cases hbox : w.msgs a with
    | none =>
      refine ⟨m, ?_, id⟩
      unfold flushNeighbor
      rw [hmsg]
      simp only [after_bind, value_get, after_get, hbox]
      exact hm
    | some ma =>
      by_cases hempty : ma.declared = 0
      · rw [flushNeighbor_empty hmsg hbox hempty]
        exact ⟨m, hm, id⟩
      · rw [flushNeighbor_some hmsg hbox hempty]
        by_cases hb : b = a
        · -- only the length is set back
          subst hb
          refine ⟨{ ma with bodyLength := 0 }, if_pos rfl, fun hm' => ?_⟩
          rw [hbox] at hm
          obtain rfl := Option.some.inj hm
          refine ⟨hm'.magic, hm'.version, ?_⟩
          rw [(declared_eq_zero_iff _).mpr rfl]
          exact Nat.zero_le _
        · exact ⟨m, (if_neg hb).trans hm, id⟩

theorem boxes_sendToEveryoneNow (people : Tree) : Keeps Boxes (sendToEveryoneNow people) := by
  induction people with
  | null => exact Boxes.pure _
  | node key val left right ihl ihr =>
    exact Boxes.bind (boxes_flushNeighbor _) fun _ => Boxes.bind ihl fun _ =>
      Boxes.bind ihr fun _ => Boxes.pure _

/-! ### The flood list -/

theorem filer_boxes : Filer Boxes where
  refl := Boxes.refl
  trans := Boxes.trans
  onMalloc := Quiet.boxes quiet_malloc
  onGetSeconds := Quiet.boxes quiet_getSeconds
  onRand := Quiet.boxes quiet_rand
  onUninit := Quiet.boxes quiet_uninit
  onFault := Quiet.boxes (quiet_note rfl)
  onSetSyms := fun cell l w => .of_same (filer_later.onSetSyms cell l w).elapsed rfl rfl rfl

theorem boxes_addMessageToFlood (msgSend : Mem) (size : UInt8) (toDelete : Option NeighborPtr) :
    Keeps Boxes (addMessageToFlood msgSend size toDelete) := by
  apply filer_boxes.keeps_addMessageToFlood
  · exact fun _ _ => Prints.boxes (prints_note rfl)
  · intro l w
    have hlater : Later w { w with dataf := l } := later_of_same rfl rfl rfl rfl rfl
    exact .of_same hlater.elapsed rfl rfl rfl

theorem boxes_newData (tlv : Mem) (length : UInt8) (peer : Neighbor) :
    Keeps Boxes (newData tlv length peer) := by
  refine Boxes.bind (Prints.boxes (prints_note rfl)) fun _ => ?_
  refine Boxes.bind (boxes_addMessageToFlood _ _ _) fun _ => ?_
  refine Boxes.bind (Prints.boxes (prints_note rfl)) fun _ => ?_
  exact Keeps.ite (fun _ => Boxes.bind (Prints.boxes (prints_note rfl)) fun _ =>
    Prints.boxes (prints_printOnScreen _ _ _)) fun _ => Boxes.pure _

theorem boxes_data (tlv : Mem) (length : UInt8) (peer : Neighbor) :
    Keeps Boxes (data tlv length peer) := by
  refine Boxes.bind (Prints.boxes (prints_note rfl)) fun _ => ?_
  refine Boxes.bind (Prints.boxes (prints_note rfl)) fun _ => ?_
  refine Boxes.bind (boxes_sendAck _ _) fun _ => ?_
  refine Boxes.bind (Quiet.boxes (primitive_quiet.keeps_getFlood _)) fun ent => ?_
  cases ent with
  | none => exact boxes_newData _ _ _
  | some ent =>
    exact Boxes.bind (filer_boxes.keeps_removeNeighborFromFlood _ _) fun _ => Boxes.pure _

theorem boxes_ack (tlv : Mem) (length : UInt8) (peer : Neighbor) :
    Keeps Boxes (ack tlv length peer) := by
  refine Boxes.bind (Prints.boxes (prints_note rfl)) fun _ => ?_
  refine Boxes.bind (Prints.boxes (prints_note rfl)) fun _ => ?_
  exact Boxes.bind (filer_boxes.keeps_removeNeighborFromFlood _ _) fun _ => Boxes.pure _

theorem prints_warning (tlv : Mem) (length : UInt8) (peer : Neighbor) :
    Keeps Prints (warning tlv length peer) :=
  Prints.bind (prints_note rfl) fun _ => Prints.bind (prints_note rfl) fun _ => prints_note rfl

theorem boxes_localMessage (got : Option (List UInt8)) : Keeps Boxes (localMessage got) := by
  rw [localMessage_eq]
  refine Boxes.bind (Quiet.boxes (primitive_quiet.keeps_composeText got)) fun _ => ?_
  exact Boxes.bind (boxes_addMessageToFlood _ _ _) fun _ =>
    Prints.boxes (prints_printOnScreen _ _ _)

/-! ### The records -/

/-- The invariant is kept, and no record is new. -/
def Settles (w w' : World) : Prop :=
  w.Sound → w'.Sound ∧ w'.neighbors.inorder.Sublist w.neighbors.inorder

theorem Settles.refl (w : World) : Settles w w := fun h => ⟨h, List.Sublist.refl _⟩

theorem Settles.trans {u v w : World} (h₁ : Settles u v) (h₂ : Settles v w) : Settles u w := by
  intro h
  obtain ⟨hv, hsub⟩ := h₁ h
  obtain ⟨hw, hsub'⟩ := h₂ hv
  exact ⟨hw, hsub'.trans hsub⟩

section Rules

variable {α β : Type}

theorem Settles.bind {m : Peer α} {f : α → Peer β} (hm : Keeps Settles m)
    (hf : ∀ a, Keeps Settles (f a)) : Keeps Settles (m >>= f) :=
  @Keeps.bind _ _ _ Settles (fun _ _ _ => Settles.trans) _ _ hm hf

theorem Settles.pure (a : α) : Keeps Settles (Pure.pure a : Peer α) := Settles.refl

theorem Boxes.settles {w w' : World} (h : Boxes w w') : Settles w w' := by
  intro hw
  refine ⟨hw.of_boxes h, ?_⟩
  rw [h.neighbors]

theorem Boxes.toSettles {m : Peer α} (hm : Keeps Boxes m) : Keeps Settles m :=
  hm.mono fun _ _ => Boxes.settles

theorem Quiet.settles {m : Peer α} (hm : Keeps Quiet m) : Keeps Settles m :=
  Boxes.toSettles (Quiet.boxes hm)

theorem Prints.settles {m : Peer α} (hm : Keeps Prints m) : Keeps Settles m :=
  Boxes.toSettles (Prints.boxes hm)

end Rules

/-- The messages of the records that stay. -/
theorem msgs_removeNeighbor {w : World} (h : w.Sound) (key : Neighbor)
    {e : NeighborPtr × Ident} (he : e ∈ w.neighbors.inorder) (hne : entryPlace e ≠ key.place)
    {a : Nat} (ha : e.1.msg = some a) :
    (after (removeNeighbor key) w).msgs a = w.msgs a := by
  obtain ⟨t, -, -, hafter⟩ := after_removeNeighbor h.neighbors key
  rw [hafter]
  apply msgs_freeIfSet
  intro hfree
  obtain ⟨e₀, hfind, hmsg⟩ := Option.bind_eq_some_iff.mp hfree
  obtain ⟨he₀, hplace⟩ := (find?_eq_some_iff h.neighbors).mp hfind
  obtain rfl := h.own e he e₀ he₀ a ha hmsg
  exact hne hplace

/-- A record takes its message with it, and nobody else's. -/
theorem settles_removeNeighbor (key : Neighbor) : Keeps Settles (removeNeighbor key) := by
  intro w h
  obtain ⟨t, hsorted, hinorder, hafter⟩ := after_removeNeighbor h.neighbors key
  have hlater := registrar_later.keeps_removeNeighbor key w
  obtain ⟨hnext, -, hpotential, -⟩ :=
    freeIfSet_same ((w.neighbors.find? key).bind fun e => e.1.msg) w
  have hmsgs := @msgs_removeNeighbor w h key
  rw [hafter] at hlater hmsgs ⊢
  have hmem : ∀ e ∈ t.inorder, e ∈ w.neighbors.inorder ∧ entryPlace e ≠ key.place := by
    intro e he
    rw [hinorder] at he
    exact (mem_erase_iff entryPlace).mp he
  refine ⟨⟨hsorted, ?_, fun e he a ha => ?_, fun e he e' he' => ?_, ?_, fun e he => ?_⟩, ?_⟩
  · exact hpotential ▸ h.potential
  · obtain ⟨hold, hne⟩ := hmem e he
    obtain ⟨hlt, m, hm, hbox⟩ := h.box e hold a ha
    exact ⟨lt_of_lt_of_le hlt hlater.next, m, (hmsgs hold hne ha).trans hm, hbox⟩
  · exact h.own e (hmem e he).1 e' (hmem e' he').1
  · exact hpotential ▸ h.direct
  · exact hpotential ▸ h.apart e (hmem e he).1
  · show t.inorder.Sublist _
    rw [hinorder]
    exact List.filter_sublist

theorem settles_removePotential (key : Neighbor) : Keeps Settles (removePotential key) := by
  intro w h
  obtain ⟨t, hsorted, hinorder, hafter⟩ := after_removePotential h.potential h.direct key
  rw [hafter]
  have hmem : ∀ e ∈ t.inorder, e ∈ w.potential.inorder := by
    intro e he
    rw [hinorder] at he
    exact ((mem_erase_iff entryPlace).mp he).1
  refine ⟨⟨h.neighbors, hsorted, h.box, h.own, fun e he => h.direct e (hmem e he), ?_⟩,
    List.Sublist.refl _⟩
  exact fun e he e' he' => h.apart e he e' (hmem e' he')

/-- The nodes after an insertion: old keys, and at most one new one. -/
theorem Added.origin {key : Neighbor} {val : Ident} {t t' : Tree} {lo hi : Nat} {rc : Int}
    (hadd : Added key val t lo hi t' rc) (h : t.Sorted) {e : NeighborPtr × Ident}
    (he : e ∈ t'.inorder) :
    (∃ e₀ ∈ t.inorder, e₀.1 = e.1) ∨
      (rc = 1 ∧ ∃ a, lo ≤ a ∧ e = ({ key with addr := a }, val)) := by
  rcases hadd.mem h he with ⟨he, -⟩ | ⟨hrc, -, a, hlo, -, rfl⟩ | ⟨-, e₀, he₀, -, rfl⟩
  · exact .inl ⟨e, he, rfl⟩
  · exact .inr ⟨hrc, a, hlo, rfl⟩
  · exact .inl ⟨e₀, he₀, rfl⟩

/-- A potential neighbour is nobody's neighbour. -/
theorem settles_addPotential {w : World} {key : Neighbor}
    (hkey : getIdent key w.neighbors = none) (val : Ident) :
    Settles w (after (addPotential key val) w) := by
  intro h
  have hadd := potentialAdded h.potential key val
  have habsent : ∀ e ∈ w.neighbors.inorder, entryPlace e ≠ key.place := by
    rw [getIdent_eq h.neighbors, Option.map_eq_none_iff] at hkey
    exact (lookup_eq_none_iff entryPlace).mp hkey
  refine ⟨⟨?_, hadd.tree.sorted h.potential, fun e he a ha => ?_, ?_, fun e he => ?_,
    fun e he e' he' => ?_⟩, ?_⟩
  · exact hadd.neighbors ▸ h.neighbors
  · rw [hadd.neighbors] at he
    obtain ⟨hlt, m, hm, hbox⟩ := h.box e he a ha
    exact ⟨lt_of_lt_of_le hlt hadd.next, m, hadd.msgs ▸ hm, hbox⟩
  · exact hadd.neighbors ▸ h.own
  · rcases hadd.tree.origin h.potential he with ⟨e₀, he₀, hkey⟩ | ⟨-, a, -, rfl⟩
    · rw [← hkey]
      exact h.direct e₀ he₀
    · rfl
  · rw [hadd.neighbors] at he
    rcases hadd.tree.origin h.potential he' with ⟨e₀, he₀, hkey⟩ | ⟨-, a, -, rfl⟩
    · have hplace : entryPlace e' = entryPlace e₀ := by rw [entryPlace, ← hkey]; rfl
      rw [hplace]
      exact h.apart e he e₀ he₀
    · exact habsent e he
  · rw [hadd.neighbors]

/-! ### Functions that remove neighbours -/

theorem settles_removeNeighborEverywhere (peer : NeighborPtr) :
    Keeps Settles (removeNeighborEverywhere peer) :=
  Settles.bind (Quiet.settles Quiet.get) fun _ =>
    Settles.bind (Boxes.toSettles (filer_boxes.keeps_removeFromFloods _ _)) fun _ =>
    Settles.bind (settles_removeNeighbor _) fun _ => Settles.pure _

theorem settles_goaway (tlv : Mem) (length : UInt8) (peer : Neighbor) :
    Keeps Settles (goaway tlv length peer) := by
  refine Settles.bind (Prints.settles (prints_note rfl)) fun _ => ?_
  refine Settles.bind (Prints.settles (prints_note rfl)) fun _ => ?_
  refine Settles.bind (Prints.settles (prints_writeText _ _)) fun _ => ?_
  exact Settles.bind (settles_removeNeighborEverywhere _) fun _ => Settles.pure _

theorem settles_handleInactive (sym : NeighborPtr) : Keeps Settles (handleInactive sym) := by
  refine Settles.bind (Quiet.settles quiet_uninit) fun mem => ?_
  refine Settles.bind (Quiet.settles (primitive_quiet.keeps_deref _)) fun key => ?_
  have hbuf := declared_inactive mem
  cases key with
  | none => exact Settles.pure _
  | some key =>
    refine Settles.bind (Quiet.settles Quiet.get) fun _ => ?_
    refine Settles.bind (Quiet.settles (quiet_note rfl)) fun _ => ?_
    refine Settles.bind (Boxes.toSettles (boxes_sendMessage ?_ _ _)) fun _ => ?_
    · exact le_trans (le_of_eq hbuf) (by decide)
    · exact Settles.bind (settles_removeNeighborEverywhere _) fun _ => Settles.pure _

theorem settles_expire (mem : Mem) (taille : Nat) (sym : NeighborPtr) :
    Keeps Settles (expire (goawayMessage mem) taille sym) := by
  refine Settles.bind (Quiet.settles (primitive_quiet.keeps_deref _)) fun key => ?_
  cases key with
  | none => exact Settles.pure _
  | some key =>
    refine Settles.bind (Quiet.settles Quiet.get) fun _ => ?_
    refine Settles.bind (Quiet.settles (quiet_note rfl)) fun _ => ?_
    refine Settles.bind (Boxes.toSettles (boxes_sendMessage ?_ _ _)) fun _ => ?_
    · exact le_trans (le_of_eq (declared_goaway mem)) (by decide)
    · exact Settles.bind (settles_removeNeighborEverywhere _) fun _ => Settles.pure _

theorem settles_floodTurn (flood : Nat) (currentTime : Int) (tmp : Nat) :
    Keeps Settles (floodTurn flood currentTime tmp) := by
  refine Settles.bind (Quiet.settles Quiet.get) fun w => ?_
  split
  · exact Settles.bind (Quiet.settles (quiet_note rfl)) fun _ => Settles.pure _
  split
  · exact Settles.bind (Quiet.settles (quiet_note rfl)) fun _ => Settles.pure _
  refine Keeps.ite (fun _ => ?_) fun _ => Keeps.ite (fun _ => ?_) fun _ => ?_
  · exact Settles.bind (settles_handleInactive _) fun _ => Settles.pure _
  · refine Settles.bind (Quiet.settles (primitive_quiet.keeps_deref _)) fun key => ?_
    cases key with
    | none => exact Settles.pure _
    | some key =>
      exact Settles.bind (Boxes.toSettles (boxes_sendData _ _)) fun i =>
        Keeps.ite (fun _ => Settles.pure _) fun _ =>
          Boxes.toSettles (filer_boxes.keeps_requeue _ _ _ _ _)
  · refine Settles.bind (Boxes.toSettles fun v => ?_) fun _ => Settles.pure _
    exact .of_same { Elapsed.refl v with id := rfl } rfl rfl rfl

theorem settles_neighbour (tlv : Mem) (length : UInt8) (peer : Neighbor) :
    Keeps Settles (neighbour tlv length peer) := by
  refine Settles.bind (Prints.settles (prints_note rfl)) fun _ => ?_
  refine Settles.bind (Prints.settles (prints_note rfl)) fun _ => ?_
  intro w
  simp only [after_bind, value_get, after_get]
  cases hkey : getIdent (keyAt tlv) w.neighbors with
  | some _ => exact Settles.refl _
  | none =>
    refine (Quiet.settles quiet_getSeconds w).trans ?_
    exact settles_addPotential (w := after getSeconds w) hkey _

/-! ### An accepted Hello -/

/-- An accepted Hello: behind `add_neighbor` and `remove_potential` the records
are in order, and a new one is greeted. -/
theorem acceptHello_cases {w : World} (h : w.Sound) (val : Ident) (peer : Neighbor) :
    ∃ t : Tree, { after (addNeighbor peer val) w with potential := t : World }.Sound ∧
      (after (acceptHello val peer) w = { after (addNeighbor peer val) w with potential := t } ∨
        after (acceptHello val peer) w =
          after (sendHelloEveryone (after (addNeighbor peer val) w).neighbors)
            { after (addNeighbor peer val) w with potential := t }) := by
  have hadd := neighborAdded h.neighbors peer val
  obtain ⟨msg, htree, -, hfresh⟩ := hadd.tree
  unfold acceptHello
  simp only [after_bind]
  generalize value (addNeighbor peer val) w = rc at hadd htree hfresh ⊢
  generalize after (addNeighbor peer val) w = v at hadd htree hfresh ⊢
  have hpotential : v.potential.Sorted := hadd.potential ▸ h.potential
  have hdirect : ∀ e ∈ v.potential.inorder, e.1.msg = none := hadd.potential ▸ h.direct
  have hsorted := htree.sorted h.neighbors
  have hbox : ∀ e ∈ v.neighbors.inorder, ∀ a, e.1.msg = some a →
      a < v.next ∧ ∃ m, v.msgs a = some m ∧ m.Box := by
    intro e he a ha
    rcases htree.origin h.neighbors he with ⟨e₀, he₀, hkey⟩ | ⟨hrc, b, -, rfl⟩
    · obtain ⟨hlt, m, hm, hb⟩ := h.box e₀ he₀ a (by rw [hkey]; exact ha)
      exact ⟨lt_of_lt_of_le hlt hadd.next, m, by rw [hadd.msgs a hlt, hm], hb⟩
    · obtain ⟨-, hlt, hempty⟩ := hfresh a ha
      obtain ⟨m, hm, hb, -⟩ := hempty hrc
      exact ⟨hlt, m, hm, hb⟩
  have hown : ∀ e ∈ v.neighbors.inorder, ∀ e' ∈ v.neighbors.inorder, ∀ a,
      e.1.msg = some a → e'.1.msg = some a → e.1 = e'.1 := by
    -- a new record has a new message
    intro e he e' he' a ha ha'
    rcases htree.origin h.neighbors he with ⟨e₀, he₀, hkey⟩ | ⟨hrc, b, hb, rfl⟩ <;>
      rcases htree.origin h.neighbors he' with ⟨e₁, he₁, hkey'⟩ | ⟨hrc', b', hb', rfl⟩
    · rw [← hkey, ← hkey',
        h.own e₀ he₀ e₁ he₁ a (by rw [hkey]; exact ha) (by rw [hkey']; exact ha')]
    · obtain ⟨hlt, -⟩ := h.box e₀ he₀ a (by rw [hkey]; exact ha)
      exact absurd (hfresh a ha').1 (by omega)
    · obtain ⟨hlt, -⟩ := h.box e₁ he₁ a (by rw [hkey']; exact ha')
      exact absurd (hfresh a ha).1 (by omega)
    · have hplace : entryPlace (({ ({ peer with msg := msg } : Neighbor) with addr := b } :
          NeighborPtr), val) = entryPlace (({ ({ peer with msg := msg } : Neighbor) with
          addr := b' } : NeighborPtr), val) := rfl
      rw [hsorted.eq_of_key_eq he he' hplace]
  have happart : ∀ e ∈ v.neighbors.inorder, (rc = 1 ∧ entryPlace e = peer.place) ∨
      ∀ e' ∈ w.potential.inorder, entryPlace e ≠ entryPlace e' := by
    intro e he
    rcases htree.origin h.neighbors he with ⟨e₀, he₀, hkey⟩ | ⟨hrc, b, -, rfl⟩
    · have hplace : entryPlace e = entryPlace e₀ := by rw [entryPlace, ← hkey]; rfl
      exact .inr fun e' he' => hplace ▸ h.apart e₀ he₀ e' he'
    · exact .inl ⟨hrc, rfl⟩
  have hsound : ∀ u : World, u.neighbors = v.neighbors → u.msgs = v.msgs → u.next = v.next →
      u.potential.Sorted → (∀ e ∈ u.potential.inorder, e ∈ w.potential.inorder ∧
        (rc = 1 → entryPlace e ≠ peer.place)) → u.Sound := by
    intro u hn hm hnext hp hmem
    refine ⟨hn ▸ hsorted, hp, by rw [hn, hm, hnext]; exact hbox, fun e he e' he' a ha ha' => ?_,
      fun e he => h.direct e (hmem e he).1, fun e he e' he' => ?_⟩
    · rw [hn] at he he'
      have hkey := hown e he e' he' a ha ha'
      exact hsorted.eq_of_key_eq he he' (by rw [entryPlace, hkey]; rfl)
    · rw [hn] at he
      obtain ⟨hold, hne⟩ := hmem e' he'
      rcases happart e he with ⟨hrc, hplace⟩ | hne'
      · exact fun heq => hne hrc (heq.symm.trans hplace)
      · exact hne' e' hold
  by_cases hrc : rc = 1
  · simp only [if_pos hrc, after_bind, value_get, after_get, after_pure]
    obtain ⟨t, hts, htin, hafter⟩ := after_removePotential hpotential hdirect peer
    rw [hafter]
    refine ⟨t, hsound _ rfl rfl rfl hts fun e he => ?_, .inr rfl⟩
    have he' : e ∈ t.inorder := he
    rw [htin, mem_erase_iff, hadd.potential] at he'
    exact ⟨he'.1, fun _ => he'.2⟩
  · simp only [if_neg hrc, after_pure]
    refine ⟨v.potential, hsound _ rfl rfl rfl hpotential fun e he => ?_, .inl rfl⟩
    have he' : e ∈ v.potential.inorder := he
    rw [hadd.potential] at he'
    exact ⟨he', fun h1 => absurd h1 hrc⟩

/-- The records after an accepted Hello: those after `add_neighbor`. -/
theorem sound_acceptHello {w : World} (h : w.Sound) (val : Ident) (peer : Neighbor) :
    (after (acceptHello val peer) w).Sound ∧
      (after (acceptHello val peer) w).neighbors = (after (addNeighbor peer val) w).neighbors := by
  obtain ⟨t, hsound, hafter | hafter⟩ := acceptHello_cases h val peer
  · rw [hafter]
    exact ⟨hsound, rfl⟩
  · have hsend := boxes_sendHelloEveryone (after (addNeighbor peer val) w).neighbors
      { after (addNeighbor peer val) w with potential := t }
    rw [hafter]
    exact ⟨hsound.of_boxes hsend, hsend.neighbors⟩

/-- The record that `hello` makes of a Hello read at the time `now`; `none` for
a long Hello to somebody else. -/
def helloIdent (id : UInt64) (tlv : Mem) (length : UInt8) (now : Int) : Option Ident :=
  if length = 16 then
    if u64At tlv 8 = id then
      some { id := u64At tlv 0, lastHello := now, lastHelloLong := now }
    else none
  else
    some { id := u64At tlv 0, lastHello := now, lastHelloLong := 0 }

/-- What `hello` reads. -/
def readHello (length : UInt8) : Peer Unit := do
  let _ ← getSeconds
  note (.valueRead 0 8)
  if length = 16 then note (.valueRead 8 8)

theorem prints_readHello (length : UInt8) : Keeps Prints (readHello length) :=
  Prints.bind (fun v => (quiet_getSeconds v).prints) fun _ =>
    Prints.bind (prints_note rfl) fun _ => Keeps.ite (fun _ => prints_note rfl) fun _ => Prints.refl

/-- Everything that `hello` can do. -/
theorem after_hello (tlv : Mem) (length : UInt8) (peer : Neighbor) (w : World) :
    after (hello tlv length peer) w =
      match helloIdent w.id tlv length w.clock.head with
      | none => after (readHello length) w
      | some val => after (acceptHello val peer) (after (readHello length) w) := by
  unfold hello helloIdent readHello
  simp only [after_bind, value_getSeconds]
  have hid : (after (note (.valueRead 0 8)) (after getSeconds w)).id = w.id := rfl
  generalize after (note (.valueRead 0 8)) (after getSeconds w) = u at hid ⊢
  by_cases h16 : length = 16
  · have hid' : (after (note (.valueRead 8 8)) u).id = w.id := hid
    simp only [if_pos h16, after_bind, value_get, after_get]
    generalize after (note (.valueRead 8 8)) u = v at hid' ⊢
    by_cases hdest : u64At tlv 8 = w.id
    · simp only [hid', if_pos hdest]
    · simp only [hid', if_neg hdest, after_pure]
  · simp only [if_neg h16, after_pure]

/-! ### Runs -/

/-- A move other than a Hello makes no new record. -/
theorem Move.Does.settles {m : Move} {w w' : World} (h : m.Does w w')
    (hm : ∀ buf length client, m ≠ .tlv 2 buf length client) : Settles w w' := by
  cases m with
  | idle => exact (Idle.boxes h).settles
  | tlv type buf length client =>
    rw [show w' = _ from h]
    have htype : type ≠ 2 := fun h2 => hm buf length client (by rw [h2])
    unfold handleTlv
    split
    · exact Settles.refl _
    · exact Settles.refl _
    · exact absurd rfl htype
    · exact settles_neighbour _ _ _ _
    · exact (boxes_data _ _ _ _).settles
    · exact (boxes_ack _ _ _ _).settles
    · exact settles_goaway _ _ _ _
    · exact (prints_warning _ _ _ _).idle.boxes.settles
  | say got =>
    rw [show w' = _ from h]
    exact (boxes_localMessage got w).settles
  | hellos =>
    rw [show w' = _ from h]
    exact (boxes_sendHelloEveryone _ w).settles
  | advertise =>
    rw [show w' = _ from h]
    exact (boxes_sendSymetricalEveryone _ w).settles
  | shortHellos =>
    rw [show w' = _ from h]
    exact (boxes_sendShorthelloEveryone _ w).settles
  | forget key =>
    rw [show w' = _ from h]
    exact settles_removePotential key w
  | expire mem sym =>
    rw [show w' = _ from h]
    exact settles_expire mem 7 sym w
  | turn flood currentTime tmp =>
    rw [show w' = _ from h]
    exact settles_floodTurn flood currentTime tmp w
  | flush =>
    rw [show w' = _ from h]
    exact (boxes_sendToEveryoneNow _ w).settles

/-- What a Hello does to the records. -/
theorem hello_cases {w : World} (h : w.Sound) (tlv : Mem) (length : UInt8) (peer : Neighbor) :
    (after (hello tlv length peer) w).Sound ∧
    match helloIdent w.id tlv length w.clock.head with
    | none => (after (hello tlv length peer) w).neighbors = w.neighbors
    | some val => ∃ u v rc, Prints w u ∧ NeighborAdded peer val u v rc ∧
        (after (hello tlv length peer) w).neighbors = v.neighbors := by
  have hu := prints_readHello length w
  have hsound : (after (readHello length) w).Sound := h.of_boxes hu.idle.boxes
  rw [after_hello]
  cases helloIdent w.id tlv length w.clock.head with
  | none => exact ⟨hsound, hu.neighbors⟩
  | some val =>
    obtain ⟨haccept, hneighbors⟩ := sound_acceptHello hsound val peer
    exact ⟨haccept, _, _, _, hu, neighborAdded hsound.neighbors peer val, hneighbors⟩

theorem sound_of_initial {w : World} (h : w.Initial) : w.Sound := by
  refine ⟨?_, ?_, fun e he => ?_, fun e he => ?_, fun e he => ?_, fun e he => ?_⟩
  · exact h.neighbors ▸ sorted_null
  · exact h.potential ▸ sorted_null
  all_goals simp [h.neighbors, h.potential] at he

theorem Move.Does.sound {m : Move} {w w' : World} (h : m.Does w w') (hw : w.Sound) :
    w'.Sound := by
  by_cases hm : ∃ buf length client, m = .tlv 2 buf length client
  · obtain ⟨buf, length, client, rfl⟩ := hm
    rw [show w' = after (hello buf length (sockaddr6ToNeighbor client)) w from h]
    exact (hello_cases hw _ _ _).1
  · exact (h.settles (fun buf length client heq => hm ⟨buf, length, client, heq⟩) hw).1

/-- The invariants of the records hold after every run. -/
theorem sound_of_run {w w' : World} {tr : List (World × Move)} (h : Run Move.Does w tr w')
    (hw : w.Sound) : w'.Sound :=
  h.invariant hw fun _ _ _ hv hmove => hmove.sound hv

/-- Every record has a message, as long as there is memory. -/
structure World.Boxed (w : World) : Prop where
  allocates : w.Allocates
  some : ∀ e ∈ w.neighbors.inorder, e.1.msg ≠ none

theorem Move.Does.boxed {m : Move} {w w' : World} (h : m.Does w w') (hw : w.Sound)
    (hb : w.Boxed) : w'.Boxed := by
  refine ⟨h.elapsed.allocates hb.allocates, ?_⟩
  by_cases hm : ∃ buf length client, m = .tlv 2 buf length client
  · obtain ⟨buf, length, client, rfl⟩ := hm
    rw [show w' = after (hello buf length (sockaddr6ToNeighbor client)) w from h]
    obtain ⟨-, hcases⟩ := hello_cases hw buf length (sockaddr6ToNeighbor client)
    cases hident : helloIdent w.id buf length w.clock.head with
    | none =>
      rw [hident] at hcases
      rw [hcases]
      exact hb.some
    | some val =>
      rw [hident] at hcases
      obtain ⟨u, v, rc, hu, hadd, hneighbors⟩ := hcases
      obtain ⟨msg, htree, hmsg, -⟩ := hadd.tree
      rw [hneighbors]
      intro e he
      have hsorted : u.neighbors.Sorted := hu.neighbors ▸ hw.neighbors
      rcases htree.origin hsorted he with ⟨e₀, he₀, hkey⟩ | ⟨-, a, -, rfl⟩
      · rw [hu.neighbors] at he₀
        exact hkey ▸ hb.some e₀ he₀
      · exact hmsg (hu.toHandled.elapsed.allocates hb.allocates)
  · have hsub := (h.settles (fun buf length client heq => hm ⟨buf, length, client, heq⟩) hw).2
    exact fun e he => hb.some e (hsub.subset he)

theorem boxed_of_run {w w' : World} {tr : List (World × Move)} (h : Run Move.Does w tr w')
    (hw : w.Sound) (hb : w.Boxed) : w'.Boxed :=
  (h.invariant (I := fun v => v.Sound ∧ v.Boxed) ⟨hw, hb⟩ fun _ _ _ hv hmove =>
    ⟨hmove.sound hv.1, hmove.boxed hv.1 hv.2⟩).2

end FloodPeer
