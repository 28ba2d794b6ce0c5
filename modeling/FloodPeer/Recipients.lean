/-
FloodPeer/Recipients.lean

What a move does to `DATAF`, and to whom.

A move either hands a value to `add_message_to_flood` (`Move.given`), or it
relists `DATAF` in one of four ways (`Relists`): nothing changes, the sender of
an Ack or of a known datum is taken out of one list, a neighbour is taken out
of every list, or a recipient that has been sent its datum is put back with a
new deadline.
-/
import FloodPeer.Filing
import FloodPeer.RoundTrip

namespace FloodPeer

open Octets StateLogic Runs SortedAssoc

/-! ### What a move is about -/

/-- The value and the length that the move gives to `add_message_to_flood`: those
of a Data TLV whose index is not in `DATAF`, or of the TLV for a local message. -/
def Move.given (m : Move) (w : World) : Option (Mem × UInt8) :=
  match m with
  | .tlv type buf length _ =>
    if type = 4 ∧ w.dataf.foundAt (indexAt buf) = none then some (buf, length) else none
  | .say got =>
    let r := value (composeText got) w
    some (fun i => r.1 (2 + i), r.1 1)
  | _ => none

/-- The neighbour that gets no copy of it. -/
def Move.source : Move → Option NeighborPtr
  | .tlv _ _ _ client => some (sockaddr6ToNeighbor client).ptr
  | _ => none

/-- The datum `flood`, in the cell `cell`, is sent to `recipient` at `time`. -/
structure Transmission where
  cell : Nat
  time : Int
  flood : FloodEntry
  recipient : NgbEntry

/-- What the move does to the lists of recipients. -/
inductive Effect where
  | nothing
  /-- The sender of an Ack or of a Data TLV shows that it has the datum. -/
  | answered (index : DataIndex) (peer : NeighborPtr)
  /-- A neighbour is given up. -/
  | gone (peer : NeighborPtr)
  | resent (t : Transmission)

/-- `send_data` does not fail: the length byte of the datum, read as a `char`,
is not less than `-2`. -/
def FloodEntry.Sendable (f : FloodEntry) : Prop := 0 ≤ toChar (f.data.getD 1 0) + 2

instance (f : FloodEntry) : Decidable f.Sendable := by
  unfold FloodEntry.Sendable; infer_instance

/-- The effect of a move, when no new entry comes into `DATAF`. -/
def Move.effect (m : Move) (w : World) : Effect :=
  match m with
  | .tlv type buf _ client =>
    if type = 4 ∨ type = 5 then .answered (indexAt buf) (sockaddr6ToNeighbor client).ptr
    else if type = 6 then .gone (sockaddr6ToNeighbor client).ptr
    else .nothing
  | .expire _ sym => if w.neighbors.owns sym then .gone sym else .nothing
  | .turn flood currentTime tmp =>
    match w.under flood tmp with
    | none => .nothing
    | some (f, nw) =>
      if ¬ w.neighbors.owns nw.sym then .nothing
      else if nw.timesSent = 5 then .gone nw.sym
      else if nw.waitTime ≤ currentTime ∧ f.Sendable then .resent ⟨flood, currentTime, f, nw⟩
      else .nothing
  | _ => .nothing

/-- A transmission is made in a turn of the flooding loop. -/
theorem effect_resent {m : Move} {w : World} {t : Transmission} (h : m.effect w = .resent t) :
    ∃ tmp, m = .turn t.cell t.time tmp ∧ w.under t.cell tmp = some (t.flood, t.recipient) ∧
      w.neighbors.owns t.recipient.sym ∧ t.recipient.timesSent ≠ 5 ∧
      t.recipient.waitTime ≤ t.time ∧ t.flood.Sendable := by
  unfold Move.effect at h
  cases m with
  | turn flood currentTime tmp =>
    dsimp only at h
    cases hunder : w.under flood tmp with
    | none =>
      rw [hunder] at h
      cases h
    | some p =>
      obtain ⟨f, nw⟩ := p
      rw [hunder] at h
      dsimp only at h
      split at h
      · cases h
      rename_i hown
      split at h
      · cases h
      rename_i hfive
      split at h
      · rename_i hdue
        obtain rfl := Effect.resent.inj h
        exact ⟨tmp, rfl, hunder, not_not.mp hown, hfive, hdue.1, hdue.2⟩
      · cases h
  | tlv type buf length client =>
    dsimp only at h
    split at h
    · cases h
    · split at h <;> cases h
  | expire mem sym =>
    dsimp only at h
    split at h <;> cases h
  | _ => cases h

theorem under_eq_some {w : World} {flood tmp : Nat} {f : FloodEntry} {nw : NgbEntry}
    (h : w.under flood tmp = some (f, nw)) :
    w.floodAt flood = some f ∧ nw ∈ f.symNeighbors.contents := by
  obtain ⟨f', hf', hcell⟩ := Option.bind_eq_some_iff.mp h
  obtain ⟨e, he, heq⟩ := Option.map_eq_some_iff.mp hcell
  obtain ⟨rfl, rfl⟩ := Prod.mk.injEq .. ▸ heq
  exact ⟨hf', List.mem_map_of_mem (addr_of_cell? he).2⟩

theorem foundAt_eq_none_iff {w : World} {index : DataIndex} :
    w.dataf.foundAt index = none ↔ ¬ w.Floods index := by
  unfold CList.foundAt
  rw [Option.map_eq_none_iff, get_eq_none_iff]

/-- The ways in which a move relists `DATAF`. -/
inductive Relists (m : Move) (w w' : World) : Prop
  | nothing (heffect : m.effect w = .nothing) (hdataf : w'.dataf = w.dataf)
      (howns : ∀ k, w.neighbors.owns k → w'.neighbors.owns k)
  | answered (index : DataIndex) (peer : NeighborPtr) (heffect : m.effect w = .answered index peer)
      (hdataf : w'.dataf = takeOut index peer w.dataf) (hsame : w'.neighbors = w.neighbors)
  | gone (peer : NeighborPtr) (heffect : m.effect w = .gone peer)
      (hdataf : w'.dataf = forgetPeer peer w.dataf)
      (howns : ∀ k, w'.neighbors.owns k ↔
        w.neighbors.owns k ∧ k.toNeighbor.place ≠ peer.toNeighbor.place)
  | resent (t : Transmission) (l : CList NgbEntry) (heffect : m.effect w = .resent t)
      (hdataf : w'.dataf = w.dataf.relist fun a f => if a = t.cell then l else f.symNeighbors)
      (hrequeued : Requeued w t.time t.recipient t.flood.symNeighbors l)
      (hlinked : l.Linked w'.next) (hsame : w'.neighbors = w.neighbors)

/-! ### Moves that leave `DATAF` alone -/

/-- What `remove_neighbor` leaves of `NEIGHBORS`. -/
theorem owns_removeNeighbor {w : World} (hw : w.Sound) (key : Neighbor) (k : NeighborPtr) :
    (after (removeNeighbor key) w).neighbors.owns k ↔
      w.neighbors.owns k ∧ k.toNeighbor.place ≠ key.place := by
  obtain ⟨t, -, hinorder, hafter⟩ := after_removeNeighbor hw.neighbors key
  rw [hafter]
  show k ∈ t.inorder.map Prod.fst ↔ k ∈ w.neighbors.inorder.map Prod.fst ∧ _
  rw [hinorder]
  constructor
  · intro hk
    obtain ⟨e, he, rfl⟩ := List.mem_map.mp hk
    obtain ⟨hold, hne⟩ := (mem_erase_iff entryPlace).mp he
    exact ⟨List.mem_map.mpr ⟨e, hold, rfl⟩, hne⟩
  · rintro ⟨hk, hne⟩
    obtain ⟨e, he, rfl⟩ := List.mem_map.mp hk
    exact List.mem_map.mpr ⟨e, (mem_erase_iff entryPlace).mpr ⟨he, hne⟩, rfl⟩

theorem owns_removeNeighborEverywhere {w : World} (hw : w.Sound) (peer k : NeighborPtr) :
    (after (removeNeighborEverywhere peer) w).neighbors.owns k ↔
      w.neighbors.owns k ∧ k.toNeighbor.place ≠ peer.toNeighbor.place := by
  have hboxes := filer_boxes.keeps_removeFromFloods peer w.dataf.contents w
  have hremove := owns_removeNeighbor (hw.of_boxes hboxes) peer.toNeighbor k
  rw [hboxes.neighbors] at hremove
  exact hremove

theorem owns_hello {w : World} (hw : w.Sound) (tlv : Mem) (length : UInt8) (peer : Neighbor)
    {k : NeighborPtr} (hk : w.neighbors.owns k) :
    (after (hello tlv length peer) w).neighbors.owns k := by
  obtain ⟨-, hcases⟩ := hello_cases hw tlv length peer
  cases hident : helloIdent w.id tlv length w.clock.head with
  | none =>
    rw [hident] at hcases
    rw [show (after (hello tlv length peer) w).neighbors = _ from hcases]
    exact hk
  | some val =>
    rw [hident] at hcases
    obtain ⟨u, v, rc, hu, hadd, hneighbors⟩ := hcases
    obtain ⟨msg, htree, -⟩ := hadd.tree
    rw [hneighbors]
    refine htree.owns (hu.neighbors ▸ hw.neighbors) ?_
    rw [hu.neighbors]
    exact hk

theorem neighbors_neighbour {w : World} (hw : w.Sound) (tlv : Mem) (length : UInt8)
    (peer : Neighbor) : (after (neighbour tlv length peer) w).neighbors = w.neighbors := by
  unfold neighbour
  simp only [after_bind, value_get, after_get]
  split
  · rfl
  · have hadded := @potentialAdded (after getSeconds (after (note (.valueRead 16 2))
      (after (note (.valueRead 0 16)) w))) hw.potential
    exact (hadded _ _).neighbors

theorem neighbors_removePotential {w : World} (hw : w.Sound) (key : Neighbor) :
    (after (removePotential key) w).neighbors = w.neighbors := by
  obtain ⟨t, -, -, hafter⟩ := after_removePotential hw.potential hw.direct key
  rw [hafter]

/-! ### The register is kept -/

theorem register_relist {w w' : World} (h : w.Register) (hnext : w.next ≤ w'.next)
    {g : Nat → FloodEntry → CList NgbEntry} (hdataf : w'.dataf = w.dataf.relist g)
    (hlists : ∀ cell f, w.floodAt cell = some f → (g cell f).Linked w'.next) : w'.Register where
  linked := hdataf ▸ (linked_relist h.linked).mono hnext
  counted := by
    rw [hdataf]
    show w.dataf.length = (w.dataf.entries.map _).length
    rw [List.length_map, h.counted]
  bounded := by
    rw [hdataf]
    show (w.dataf.entries.map _).length ≤ nbdata
    rw [List.length_map]
    exact h.bounded
  lists := fun cell f hf => by
    rw [floodAt_of_relist hdataf] at hf
    obtain ⟨f₀, hf₀, rfl⟩ := Option.map_eq_some_iff.mp hf
    exact hlists cell f₀ hf₀

theorem linked_withoutPeer {l : CList NgbEntry} {bound : Nat} (h : l.Linked bound)
    (peer : NeighborPtr) : (withoutPeer peer l).Linked bound := (removeElem_spec h _).2

theorem linked_iterate_withoutPeer {l : CList NgbEntry} {bound : Nat} (h : l.Linked bound)
    (peer : NeighborPtr) (n : Nat) : ((withoutPeer peer)^[n] l).Linked bound := by
  induction n generalizing l with
  | zero => exact h
  | succ n ih =>
    rw [Function.iterate_succ_apply]
    exact ih (linked_withoutPeer h peer)

/-- Relisting keeps the register. -/
theorem Relists.register {m : Move} {w w' : World} (h : Relists m w w') (hw : w.Register)
    (hnext : w.next ≤ w'.next) : w'.Register := by
  cases h with
  | nothing _ hdataf => exact Register.of_same hw hdataf hnext
  | answered index peer _ hdataf =>
    apply register_relist hw hnext hdataf
    intro cell f hf
    have hl := (hw.lists cell f hf).mono hnext
    split
    · exact linked_withoutPeer hl peer
    · exact hl
  | gone peer _ hdataf =>
    apply register_relist hw hnext hdataf
    intro cell f hf
    exact linked_iterate_withoutPeer ((hw.lists cell f hf).mono hnext) peer _
  | resent t l _ hdataf _ hlinked =>
    apply register_relist hw hnext hdataf
    intro cell f hf
    split
    · exact hlinked
    · exact (hw.lists cell f hf).mono hnext

/-! ### A Data TLV -/

theorem neighborToSockaddr6_sockaddr6ToNeighbor (client : Sockaddr) :
    neighborToSockaddr6 (sockaddr6ToNeighbor client) = client := by
  unfold neighborToSockaddr6 sockaddr6ToNeighbor
  simp only [swap16_swap16]

/-- An Ack is sent at once, in a datagram of its own. -/
theorem after_sendAck (index : DataIndex) (client : Sockaddr) (w : World) :
    after (sendAck index (sockaddr6ToNeighbor client)) w = { w with
      memory := w.memory.tail
      sendtos := w.sendtos.tail
      log := w.log ++ [.sendto client (datagram (Tlv.ack index.id index.nonce).bytes)] } := by
  have hbody := @tlvAck_spec w.memory.head 0 (pmtu - 4) index.id index.nonce
    (by decide : (0 : Int) < 14)
  have hbytes : (messageOf (tlvAck w.memory.head 0 (pmtu - 4) index.id index.nonce).1 14).bytes 18 =
      datagram (Tlv.ack index.id index.nonce).bytes := by
    have hlength : 14 = (Tlv.ack index.id index.nonce).bytes.length := by
      rw [Tlv.bytes_of_handled rfl]
      simp [Tlv.value, u64Bytes, u32Bytes]
    rw [hbody, ← read_write_eq w.memory.head 0 hlength]
    exact @bytes_messageOf _ 14 (by omega)
  show after (sendMessage (messageOf (tlvAck w.memory.head 0 (pmtu - 4) index.id index.nonce).1 14)
    18 (sockaddr6ToNeighbor client)) (after uninit w) = _
  rw [sendMessage_direct rfl, sendMessageNow, after_sendto,
    neighborToSockaddr6_sockaddr6ToNeighbor, hbytes]
  rfl

/-- The index `index` has been read and acknowledged to `client`. -/
structure Acked (index : DataIndex) (client : Sockaddr) (w u : World) : Prop where
  alike : Alike u w
  dataf : u.dataf = w.dataf
  neighbors : u.neighbors = w.neighbors
  potential : u.potential = w.potential
  msgs : u.msgs = w.msgs
  elapsed : Elapsed w u
  log : ∃ ext, (∀ o ∈ ext, o = Obs.fault) ∧ u.log = w.log ++ ([.valueRead 0 8, .valueRead 8 4,
    .sendto client (datagram (Tlv.ack index.id index.nonce).bytes)] ++ ext)

/-- A search in `DATAF` changes nothing; it may fault. -/
theorem after_getFlood (index : DataIndex) (w : World) :
    after (getFlood index) w = w ∨ after (getFlood index) w = after (note .fault) w := by
  by_cases hnull : none ∈ walked (fun c => compareFlood c (floodProbe index) = 0) w.dataf.contents
  · exact .inr (congrArg (fun m => after m w) (if_pos hnull))
  · exact .inl (congrArg (fun m => after m w) (if_neg hnull))

theorem Acked.getFlood {index : DataIndex} {client : Sockaddr} {w v : World}
    (h : Acked index client w v) : Acked index client w (after (getFlood index) v) := by
  rcases after_getFlood index v with hget | hget
  · rw [hget]
    exact h
  · rw [hget]
    obtain ⟨ext, hext, hlog⟩ := h.log
    exact
      { alike := ⟨h.alike.clock, h.alike.mallocs, h.alike.next⟩
        dataf := h.dataf
        neighbors := h.neighbors
        potential := h.potential
        msgs := h.msgs
        elapsed := h.elapsed.trans (elapsed_note _ v)
        log := ⟨ext ++ [.fault], fun o ho => (List.mem_append.mp ho).elim (hext o)
          List.mem_singleton.mp, by simp [hlog]⟩ }

theorem acked_sendAck (index : DataIndex) (client : Sockaddr) (w : World) :
    Acked index client w (after (sendAck index (sockaddr6ToNeighbor client))
      (after (note (.valueRead 8 4)) (after (note (.valueRead 0 8)) w))) := by
  rw [after_sendAck, after_note, after_note]
  have hlog : w.log ++ [Obs.valueRead 0 8] ++ [Obs.valueRead 8 4] ++
      [Obs.sendto client (datagram (Tlv.ack index.id index.nonce).bytes)] = w.log ++
        ([Obs.valueRead 0 8, Obs.valueRead 8 4, Obs.sendto client
          (datagram (Tlv.ack index.id index.nonce).bytes)] ++ []) := by simp
  exact
    { alike := ⟨rfl, rfl, rfl⟩
      dataf := rfl
      neighbors := rfl
      potential := rfl
      msgs := rfl
      elapsed := ⟨rfl, le_refl _, ⟨0, rfl⟩, ⟨0, rfl⟩, ⟨_, hlog.symm⟩⟩
      log := ⟨[], fun _ ho => absurd ho List.not_mem_nil, hlog⟩ }

/-- Everything that `goaway` does: it prints, and takes the sender out. -/
theorem after_goaway (tlv : Mem) (length : UInt8) (peer : Neighbor) (w : World) :
    ∃ u, Prints w u ∧ after (goaway tlv length peer) w =
      after (removeNeighborEverywhere peer.ptr) u := by
  have hprints : Keeps Prints (note (.valueRead 0 1) >>= fun _ =>
      note (.printf (codeAt tlv)) >>= fun _ => writeText tlv length) :=
    Prints.bind (prints_note rfl) fun _ => Prints.bind (prints_note rfl)
      fun _ => prints_writeText _ _
  refine ⟨_, hprints w, ?_⟩
  unfold goaway
  simp only [after_bind, after_pure]

/-- Everything that `data` does: an Ack in any case, and then one of two things. -/
theorem after_data_client (tlv : Mem) (length : UInt8) (client : Sockaddr) (w : World) :
    ∃ u, Acked (indexAt tlv) client w u ∧ after (data tlv length (sockaddr6ToNeighbor client)) w =
      if w.dataf.foundAt (indexAt tlv) = none then
        after (newData tlv length (sockaddr6ToNeighbor client)) u
      else after (removeNeighborFromFlood (indexAt tlv) (sockaddr6ToNeighbor client).ptr) u := by
  have hacked := acked_sendAck (indexAt tlv) client w
  refine ⟨_, hacked.getFlood, ?_⟩
  unfold data CList.foundAt
  simp only [after_bind, value_getFlood, hacked.dataf]
  cases hget : w.dataf.get compareFlood (floodProbe (indexAt tlv)) with
  | none => rfl
  | some ent =>
    rw [Option.map_some, if_neg (Option.some_ne_none _)]
    simp only [after_bind, after_pure]

/-! ### A local message -/

/-- Neither the clock nor the allocator has been asked. -/
def Instant (w w' : World) : Prop := Alike w' w

section Instant

variable {α β : Type}

theorem Instant.pure (a : α) : Keeps Instant (Pure.pure a : Peer α) := fun _ => ⟨rfl, rfl, rfl⟩

theorem Instant.bind {m : Peer α} {f : α → Peer β} (hm : Keeps Instant m)
    (hf : ∀ a, Keeps Instant (f a)) : Keeps Instant (m >>= f) := by
  intro w
  have h₁ : Alike (after m w) w := hm w
  have h₂ : Alike (after (f (value m w)) (after m w)) (after m w) := hf _ _
  exact ⟨h₂.clock.trans h₁.clock, h₂.mallocs.trans h₁.mallocs, h₂.next.trans h₁.next⟩

theorem instant_note (o : Obs) : Keeps Instant (note o) := fun _ => ⟨rfl, rfl, rfl⟩

theorem instant_uninit : Keeps Instant uninit := fun _ => ⟨rfl, rfl, rfl⟩

theorem instant_trim (c : UInt8) (buf : Mem) (tmp : UInt8) : Keeps Instant (trim c buf tmp) :=
  Keeps.ite (fun _ => Instant.bind (instant_note _) fun _ => Instant.bind instant_uninit fun _ =>
    Instant.pure _) fun _ => Instant.pure _

theorem instant_randomOnOctets (n : Nat) : Keeps Instant (randomOnOctets n) := by
  induction n with
  | zero => exact Instant.pure _
  | succ n ih =>
    have hrand : Keeps Instant rand := fun _ => ⟨rfl, rfl, rfl⟩
    exact Instant.bind hrand fun _ => Instant.bind ih fun _ => Instant.pure _

theorem instant_composeText (got : Option (List UInt8)) : Keeps Instant (composeText got) := by
  apply Instant.bind (Instant.bind (instant_trim _ _ _) fun _ => instant_trim _ _ _)
  intro tmp
  refine Instant.bind ?_ fun _ => Instant.pure _
  refine Keeps.ite (fun _ => Instant.bind (instant_note _) fun _ => ?_) fun _ => ?_
  all_goals
    apply Instant.bind instant_uninit
    intro v
    apply Instant.bind (fun _ => ⟨rfl, rfl, rfl⟩)
    intro w
    apply Instant.bind (Keeps.ite (fun _ => Instant.bind (instant_randomOnOctets _) fun _ =>
      Instant.pure _) fun _ => Instant.pure _)
    exact fun _ => Instant.pure _

end Instant

/-! ### Every move -/

/-- Steps around `add_message_to_flood` that leave `DATAF` alone. -/
theorem Files.widen {msgSend : Mem} {size : UInt8} {toDelete : Option NeighborPtr}
    {w u u' w' : World} (h : Files msgSend size toDelete u u') (halike : Alike u w)
    (hdataf : u.dataf = w.dataf) (hneighbors : u.neighbors = w.neighbors)
    (hafter : w'.dataf = u'.dataf) (hnext : u'.next ≤ w'.next) :
    Files msgSend size toDelete w w' := by
  have hmem : ¬ u.Allocates → ¬ w.Allocates := by
    unfold World.Allocates
    rw [halike.mallocs]
    exact id
  cases h with
  | nothing hsame hnot => exact .nothing (hafter.trans (hsame.trans hdataf)) (hmem hnot)
  | entry a content hlo hhi hentries hcontent =>
    refine .entry a content ?_ (lt_of_lt_of_le hhi hnext) ?_ ?_
    · rw [← halike.next]
      exact hlo
    · rw [hafter, hentries, hdataf]
    · rw [hneighbors, (agrees_getSymmetrical w.neighbors u w halike).1] at hcontent
      exact hcontent.imp_left (And.imp_right hmem)

/-- All that happens to `DATAF` is one call of `add_message_to_flood`. -/
structure Adds (msgSend : Mem) (size : UInt8) (toDelete : Option NeighborPtr) (w w' : World) :
    Prop where
  call : ∃ u, Alike u w ∧ u.dataf = w.dataf ∧ u.neighbors = w.neighbors ∧
    w'.dataf = (after (addMessageToFlood msgSend size toDelete) u).dataf ∧
    (after (addMessageToFlood msgSend size toDelete) u).next ≤ w'.next
  neighbors : w'.neighbors = w.neighbors

section Adds

variable {msgSend : Mem} {size : UInt8} {toDelete : Option NeighborPtr} {v w w' : World}

theorem Adds.files (h : Adds msgSend size toDelete w w') (hr : w.Register) :
    Files msgSend size toDelete w w' ∧ w'.Register := by
  obtain ⟨u, halike, hdataf, hneighbors, hafter, hnext⟩ := h.call
  have hu : u.Register := Register.of_same hr hdataf halike.next.ge
  obtain ⟨hfiles, hregister⟩ := files_addMessageToFlood hu msgSend size toDelete
  exact ⟨hfiles.widen halike hdataf hneighbors hafter hnext,
    Register.of_same hregister hafter hnext⟩

/-- Steps in front of the call. -/
theorem Adds.prepend (h : Adds msgSend size toDelete v w') (halike : Alike v w)
    (hdataf : v.dataf = w.dataf) (hneighbors : v.neighbors = w.neighbors) :
    Adds msgSend size toDelete w w' where
  call := by
    obtain ⟨u, hu, hudataf, huneighbors, hafter⟩ := h.call
    exact ⟨u, ⟨hu.clock.trans halike.clock, hu.mallocs.trans halike.mallocs,
      hu.next.trans halike.next⟩, hudataf.trans hdataf, huneighbors.trans hneighbors, hafter⟩
  neighbors := h.neighbors.trans hneighbors

/-- What the branch of `data` for a new index does. -/
theorem adds_newData (tlv : Mem) (length : UInt8) (peer : Neighbor) (w : World) :
    Adds tlv length (some peer.ptr) w (after (newData tlv length peer) w) := by
  have hboxes := boxes_addMessageToFlood tlv length (some peer.ptr)
    (after (note (.count length.toNat)) w)
  -- what is printed afterwards does not matter
  have hprints : Prints (after (addMessageToFlood tlv length (some peer.ptr))
      (after (note (.count length.toNat)) w)) (after (newData tlv length peer) w) := by
    have hrest : Keeps Prints (do
        note (.valueRead 12 1)
        let size := typeAt tlv
        if size = 0 then
          note (.count ((length.toNat : Int) - 13))
          printOnScreen tlv 13 (toSize ((length.toNat : Int) - 13)) : Peer Unit) :=
      Prints.bind (prints_note rfl) fun _ => Keeps.ite (fun _ => Prints.bind (prints_note rfl)
        fun _ => prints_printOnScreen _ _ _) fun _ => fun v => Prints.refl v
    unfold newData
    rw [after_bind, after_bind]
    exact hrest _
  exact ⟨⟨after (note (.count length.toNat)) w, ⟨rfl, rfl, rfl⟩, rfl, rfl,
      hprints.dataf, hprints.next⟩,
    hprints.neighbors.trans hboxes.neighbors⟩

/-- What a local message does. -/
theorem adds_localMessage (got : Option (List UInt8)) (w : World) :
    Adds (fun i => (value (composeText got) w).1 (2 + i)) ((value (composeText got) w).1 1) none w
      (after (localMessage got) w) := by
  have hquiet := primitive_quiet.keeps_composeText got w
  have hboxes := boxes_addMessageToFlood (fun i => (value (composeText got) w).1 (2 + i))
    ((value (composeText got) w).1 1) none (after (composeText got) w)
  rw [localMessage_eq]
  simp only [after_bind]
  have hprints := prints_printOnScreen (ofBytes ((got.getD []).take 242)) 0
    (value (composeText got) w).2.toNat (after (addMessageToFlood
      (fun i => (value (composeText got) w).1 (2 + i)) ((value (composeText got) w).1 1) none)
        (after (composeText got) w))
  exact ⟨⟨_, instant_composeText got w, hquiet.dataf, hquiet.neighbors, hprints.dataf,
    hprints.next⟩, hprints.neighbors.trans (hboxes.neighbors.trans hquiet.neighbors)⟩

end Adds

/-- Every move that is given a value adds it. -/
theorem Move.Does.adds {m : Move} {w w' : World} (h : m.Does w w') {msgSend : Mem} {size : UInt8}
    (hgiven : m.given w = some (msgSend, size)) : Adds msgSend size m.source w w' := by
  cases m with
  | tlv type buf length client =>
    obtain ⟨⟨rfl, hfound⟩, hvalue⟩ := Option.ite_none_right_eq_some.mp hgiven
    obtain ⟨rfl, rfl⟩ := Prod.mk.injEq .. ▸ Option.some.inj hvalue
    obtain ⟨u, hacked, hafter⟩ := after_data_client buf length client w
    have hadds := adds_newData buf length (sockaddr6ToNeighbor client) u
    rw [if_pos hfound] at hafter
    rw [← hafter] at hadds
    rw [show w' = _ from h]
    exact hadds.prepend hacked.alike hacked.dataf hacked.neighbors
  | say got =>
    obtain ⟨rfl, rfl⟩ := Prod.mk.injEq .. ▸ Option.some.inj hgiven
    rw [show w' = _ from h]
    exact adds_localMessage got w
  | _ => cases hgiven

/-- A move without effect, that leaves `DATAF` and the neighbours alone. -/
theorem relists_nothing {m : Move} {w w' : World} (heffect : m.effect w = .nothing)
    (hdataf : w'.dataf = w.dataf) (hneighbors : w'.neighbors = w.neighbors) : Relists m w w' :=
  .nothing heffect hdataf fun k hk => by
    rw [hneighbors]
    exact hk

/-- What the handler of a TLV that is not a new datum does to `DATAF`. -/
theorem relists_tlv {w : World} (hw : w.Sound) (hr : w.Register) (type : UInt8) (buf : Mem)
    (length : UInt8) (client : Sockaddr)
    (hgiven : ¬ (type = 4 ∧ w.dataf.foundAt (indexAt buf) = none)) :
    Relists (.tlv type buf length client) w
      (after (handleTlv type buf length (sockaddr6ToNeighbor client)) w) := by
  unfold handleTlv
  split
  · exact relists_nothing rfl rfl rfl
  · exact relists_nothing rfl rfl rfl
  · exact .nothing rfl (beside_hello _ _ _ w) fun k hk => owns_hello hw _ _ _ hk
  · exact relists_nothing rfl (beside_neighbour _ _ _ w) (neighbors_neighbour hw _ _ _)
  · -- a datum that is being flooded
    obtain ⟨u, hacked, hafter⟩ := after_data_client buf length client w
    rw [hafter, if_neg fun h => hgiven ⟨rfl, h⟩]
    refine .answered (indexAt buf) _ rfl ?_ ?_
    · rw [dataf_removeNeighborFromFlood (hacked.dataf ▸ hr.linked), hacked.dataf]
    · exact (filer_boxes.keeps_removeNeighborFromFlood _ _ u).neighbors.trans hacked.neighbors
  · -- an Ack
    refine .answered (indexAt buf) _ rfl ?_ ?_
    · exact @dataf_removeNeighborFromFlood (after (note (.valueRead 8 4))
        (after (note (.valueRead 0 8)) w)) _ hr.linked (indexAt buf) _
    · exact (boxes_ack buf length (sockaddr6ToNeighbor client) w).neighbors
  · -- a GoAway: its text is printed before the sender is taken out
    obtain ⟨u, hprints, hafter⟩ := after_goaway buf length (sockaddr6ToNeighbor client) w
    have hboxes := Idle.boxes hprints.idle
    rw [hafter]
    refine .gone (sockaddr6ToNeighbor client).ptr rfl ?_ fun k => ?_
    · rw [← hprints.dataf]
      exact dataf_removeNeighborEverywhere (hprints.dataf ▸ hr.linked) _
    · rw [← hprints.neighbors]
      exact owns_removeNeighborEverywhere (hw.of_boxes hboxes) _ k
  · rename_i h0 h1 h2 h3 h4 h5 h6
    have heffect : (Move.tlv type buf length client).effect w = .nothing := by
      unfold Move.effect
      dsimp only
      rw [if_neg fun h => h.elim h4 h5, if_neg h6]
    exact relists_nothing heffect (prints_warning _ _ _ w).dataf (prints_warning _ _ _ w).neighbors

/-- A turn of a loop that gives up a neighbour, in a state `u` like `w`. -/
theorem relists_expire {m : Move} {w u : World} {sym : NeighborPtr}
    (heffect : m.effect w = if w.neighbors.owns sym then .gone sym else .nothing) (hw : w.Sound)
    (hr : w.Register) (hu : Boxes w u) (hdataf : u.dataf = w.dataf) {msg : MessageH}
    (hmsg : msg.declared ≤ pmtu - 4) (taille : Nat) :
    Relists m w (after (expire msg taille sym) u) := by
  have hlinked : u.dataf.Linked w.next := hdataf ▸ hr.linked
  rw [← hu.neighbors] at heffect
  by_cases hown : u.neighbors.owns sym
  · rw [if_pos hown] at heffect
    refine .gone sym heffect ?_ fun k => ?_
    · rw [dataf_expire hlinked, if_pos hown, hdataf]
    · have hnote : Boxes u (after (note (.dropping sym (u.pending sym.toNeighbor))) u) :=
        (idle_note _ u).boxes
      have hsend := (hu.trans hnote).trans (boxes_sendMessage hmsg taille sym.toNeighbor _)
      have howns := owns_removeNeighborEverywhere (hw.of_boxes hsend) sym k
      rw [after_expire, if_pos hown, howns, hsend.neighbors]
  · rw [if_neg hown] at heffect
    rw [after_expire, if_neg hown]
    exact relists_nothing heffect hdataf hu.neighbors

/-- `send_data` succeeds when the length is not read as a negative number. -/
theorem value_sendData_iff (f : FloodEntry) (key : Neighbor) (w : World) :
    value (sendData f.data key) w ≠ 0 ↔ f.Sendable := by
  have hsend : ∀ buf taille v, value (sendMessage buf taille key) v = 1 := by
    intro buf taille v
    unfold sendMessage
    cases key.msg with
    | none => rfl
    | some a =>
      simp only [value_bind, value_get, after_get]
      cases v.msgs a with
      | none => rfl
      | some msg => rfl
  unfold sendData FloodEntry.Sendable
  extract_lets bodyLength
  by_cases hneg : bodyLength < 0
  · rw [if_pos hneg]
    exact iff_of_false (fun h => h rfl) (not_le.mpr hneg)
  · rw [if_neg hneg, value_bind]
    extract_lets
    rw [hsend]
    exact iff_of_true one_ne_zero (not_lt.mp hneg)

/-- `send_message` only writes to the messages and to the log. -/
theorem after_sendMessage_eq (buf : MessageH) (taille : Nat) (key : Neighbor) (w : World) :
    ∃ msgs sendtos log, after (sendMessage buf taille key) w =
      { w with msgs := msgs, sendtos := sendtos, log := log } := by
  have hnow : ∀ (msg : MessageH) (n : Nat) (v : World), ∃ sendtos log,
      after (sendMessageNow msg n key) v = { v with sendtos := sendtos, log := log } :=
    fun _ _ _ => ⟨_, _, rfl⟩
  unfold sendMessage
  cases key.msg with
  | none =>
    obtain ⟨sendtos, log, h⟩ := hnow buf taille w
    exact ⟨w.msgs, sendtos, log, h⟩
  | some a =>
    simp only [after_bind, value_get, after_get]
    cases w.msgs a with
    | none => exact ⟨w.msgs, w.sendtos, _, rfl⟩
    | some msg =>
      unfold gather makeRoom
      simp only [after_bind, after_pure, after_ite, after_putMsg]
      split <;> split <;> exact ⟨_, _, _, rfl⟩

theorem after_sendData_eq (tlv : List UInt8) (key : Neighbor) (w : World) :
    ∃ msgs sendtos memory log, after (sendData tlv key) w =
      { w with msgs := msgs, sendtos := sendtos, memory := memory, log := log } := by
  have hsend : ∀ buf taille, ∃ msgs sendtos memory log,
      after (sendMessage buf taille key) { w with memory := w.memory.tail } =
        { w with msgs := msgs, sendtos := sendtos, memory := memory, log := log } := by
    intro buf taille
    obtain ⟨msgs, sendtos, log, h⟩ :=
      after_sendMessage_eq buf taille key { w with memory := w.memory.tail }
    exact ⟨msgs, sendtos, w.memory.tail, log, h⟩
  unfold sendData
  extract_lets bodyLength
  split
  · exact ⟨w.msgs, w.sendtos, w.memory, _, rfl⟩
  · rw [after_bind, after_uninit]
    extract_lets
    exact hsend _ _

theorem Requeued.rebase {w u : World} {currentTime : Int} {nw : NgbEntry} {l l' : CList NgbEntry}
    (h : Requeued u currentTime nw l l') (hrands : u.rands = w.rands) (helapsed : Elapsed w u) :
    Requeued w currentTime nw l l' := by
  cases h with
  | absent hl hsame => exact .absent hl hsame
  | back n rest found rc hremoves hinserts hfound =>
    rw [hrands] at hinserts
    exact .back n rest found rc hremoves hinserts fun halloc => hfound (helapsed.allocates halloc)

/-- The effect of a turn, when there is a recipient under the cursor. -/
theorem effect_turn {w : World} {flood tmp : Nat} {f : FloodEntry} {nw : NgbEntry}
    (hunder : w.under flood tmp = some (f, nw)) {currentTime : Int} :
    (Move.turn flood currentTime tmp).effect w =
      if ¬ w.neighbors.owns nw.sym then .nothing
      else if nw.timesSent = 5 then .gone nw.sym
      else if nw.waitTime ≤ currentTime ∧ f.Sendable then .resent ⟨flood, currentTime, f, nw⟩
      else .nothing := by
  simp only [Move.effect, hunder]

/-- A turn of the flooding loop. -/
theorem relists_turn {w : World} (hw : w.Sound) (hr : w.Register) (flood : Nat)
    (currentTime : Int) (tmp : Nat) : Relists (.turn flood currentTime tmp) w
      (after (floodTurn flood currentTime tmp) w) := by
  have hcases := floodTurn_cases flood currentTime tmp w
  generalize hv : after (floodTurn flood currentTime tmp) w = w' at hcases ⊢
  cases hcases with
  | absent hnone hw' =>
    rw [hw']
    exact relists_nothing (by simp only [Move.effect, hnone]) rfl rfl
  | inactive f nw hsome hfive hw' =>
    have huninit : Boxes w (after uninit w) := (quiet_uninit w).idle.boxes
    have hdeclared : (inactiveMessage w.memory.head).declared ≤ pmtu - 4 :=
      le_trans (le_of_eq (declared_inactive w.memory.head)) (by decide)
    rw [hw', after_handleInactive]
    refine relists_expire ?_ hw hr huninit rfl hdeclared 31
    rw [effect_turn hsome, if_pos hfive, ite_not]
  | dangling f nw hsome _ _ hown hw' =>
    rw [hw']
    exact relists_nothing (by rw [effect_turn hsome, if_pos hown]) rfl rfl
  | refused f nw hsome hfive hdue hown hzero hw' =>
    have hsend := sends_sendData f.data nw.sym.toNeighbor w
    have hlong : ¬ f.Sendable := fun h => (value_sendData_iff f nw.sym.toNeighbor w).mpr h hzero
    rw [hw']
    refine relists_nothing ?_ hsend.dataf hsend.neighbors
    rw [effect_turn hsome, if_neg (not_not.mpr hown), if_neg hfive, if_neg fun h => hlong h.2]
  | sent f nw hsome hfive hdue hown hone hw' =>
    have hsend := sends_sendData f.data nw.sym.toNeighbor w
    have hrands : (after (sendData f.data nw.sym.toNeighbor) w).rands = w.rands := by
      obtain ⟨_, _, _, _, heq⟩ := after_sendData_eq f.data nw.sym.toNeighbor w
      rw [heq]
    have hshort := (value_sendData_iff f nw.sym.toNeighbor w).mp hone
    rw [hw']
    generalize after (sendData f.data nw.sym.toNeighbor) w = u at hsend hrands ⊢
    obtain ⟨f', hf', hcell⟩ := Option.bind_eq_some_iff.mp hsome
    obtain ⟨e, he, heq⟩ := Option.map_eq_some_iff.mp hcell
    obtain ⟨rfl, rfl⟩ := Prod.mk.injEq .. ▸ heq
    have hlinked := (hr.lists flood f' hf').mono hsend.next
    obtain ⟨l', found, hdataf, hback, hfound, hlinked'⟩ :=
      dataf_requeue hlinked flood currentTime tmp e.content
    -- only a failed allocation keeps the recipient from coming back
    have hrequeued := hback.requeued fun halloc hnone =>
      Bool.false_ne_true ((hfound.mp hnone).symm.trans (halloc 0))
    refine .resent ⟨flood, currentTime, f', e.content⟩ l' ?_ ?_ ?_ hlinked' ?_
    · rw [effect_turn hsome, if_neg (not_not.mpr hown), if_neg hfive,
        if_pos ⟨hdue, hshort⟩]
    · rw [hdataf, hsend.dataf]
    · exact hrequeued.rebase hrands hsend.toLater.elapsed
    · rw [(filer_boxes.keeps_requeue _ _ _ _ _ u).neighbors, hsend.neighbors]
  | early f nw hsome hfive hearly hw' =>
    rw [hw']
    refine relists_nothing ?_ rfl rfl
    have hlate : ¬ (nw.waitTime ≤ currentTime ∧ f.Sendable) :=
      fun h => absurd h.1 (not_le.mpr hearly)
    rw [effect_turn hsome, if_neg hfive, if_neg hlate, ite_self]

/-- What a move does to `DATAF`. -/
theorem Move.Does.files {m : Move} {w w' : World} (h : m.Does w w') (hw : w.Sound)
    (hr : w.Register) : w'.Register ∧
    match m.given w with
    | none => Relists m w w'
    | some (msgSend, size) => Files msgSend size m.source w w' ∧ w'.neighbors = w.neighbors := by
  have hnext := h.elapsed.next
  -- it is enough to know how the move relists
  have hrelists : Relists m w w' → m.given w = none → w'.Register ∧ match m.given w with
      | none => Relists m w w'
      | some (msgSend, size) =>
        Files msgSend size m.source w w' ∧ w'.neighbors = w.neighbors := by
    intro hrel hnone
    rw [hnone]
    exact ⟨hrel.register hr hnext, hrel⟩
  have hsends : Sends w w' → m.effect w = .nothing → m.given w = none → w'.Register ∧
      match m.given w with
      | none => Relists m w w'
      | some (msgSend, size) =>
        Files msgSend size m.source w w' ∧ w'.neighbors = w.neighbors := fun hs heffect =>
    hrelists (relists_nothing heffect hs.dataf hs.neighbors)
  have hadds : ∀ {v}, m.given w = some v → w'.Register ∧ match m.given w with
      | none => Relists m w w'
      | some (msgSend, size) =>
        Files msgSend size m.source w w' ∧ w'.neighbors = w.neighbors := by
    intro v hgiven
    obtain ⟨hfiles, hregister⟩ := (h.adds hgiven).files hr
    rw [hgiven]
    exact ⟨hregister, hfiles, (h.adds hgiven).neighbors⟩
  cases m with
  | idle => exact hrelists (relists_nothing rfl (Idle.dataf h) (Idle.neighbors h)) rfl
  | tlv type buf length client =>
    by_cases hnew : type = 4 ∧ w.dataf.foundAt (indexAt buf) = none
    · have hgiven : (Move.tlv type buf length client).given w = some (buf, length) := if_pos hnew
      exact hadds hgiven
    · rw [show w' = _ from h] at hrelists ⊢
      exact hrelists (relists_tlv hw hr type buf length client hnew) (if_neg hnew)
  | say got => exact hadds rfl
  | hellos =>
    rw [show w' = _ from h] at hsends ⊢
    exact hsends (sends_sendHelloEveryone _ w) rfl rfl
  | advertise =>
    rw [show w' = _ from h] at hsends ⊢
    exact hsends (sends_sendSymetricalEveryone _ w) rfl rfl
  | shortHellos =>
    rw [show w' = _ from h] at hsends ⊢
    exact hsends (sends_sendShorthelloEveryone _ w) rfl rfl
  | forget key =>
    rw [show w' = _ from h] at hrelists ⊢
    exact hrelists (relists_nothing rfl (registrar_beside.keeps_removePotential key w)
      (neighbors_removePotential hw key)) rfl
  | expire mem sym =>
    have hdeclared : (goawayMessage mem).declared ≤ pmtu - 4 :=
      le_trans (le_of_eq (declared_goaway mem)) (by decide)
    rw [show w' = _ from h] at hrelists ⊢
    exact hrelists (relists_expire rfl hw hr (Boxes.refl w) rfl hdeclared 7) rfl
  | turn flood currentTime tmp =>
    rw [show w' = _ from h] at hrelists ⊢
    exact hrelists (relists_turn hw hr flood currentTime tmp) rfl
  | flush =>
    rw [show w' = _ from h] at hsends ⊢
    exact hsends (sends_sendToEveryoneNow _ w) rfl rfl

/-- `DATAF` is in order after every run. -/
theorem register_of_initial {w : World} (h : w.Initial) : w.Register where
  linked := h.dataf ▸ linked_initList _
  counted := by rw [h.dataf]; rfl
  bounded := by rw [h.dataf]; exact Nat.zero_le _
  lists := fun cell f hf => by
    unfold World.floodAt at hf
    rw [h.dataf] at hf
    exact absurd hf nofun

theorem register_of_run {w w' : World} {tr : List (World × Move)} (h : Run Move.Does w tr w')
    (hw : w.Sound) (hr : w.Register) : w'.Sound ∧ w'.Register :=
  Run.invariant (I := fun v => v.Sound ∧ v.Register) h ⟨hw, hr⟩ fun _ _ _ hv hmove =>
    ⟨hmove.sound hv.1, (hmove.files hv.1 hv.2).1⟩

/-! ### The entries afterwards -/

theorem floodAt_lt {w : World} (hr : w.Register) {a : Nat} {f : FloodEntry}
    (hf : w.floodAt a = some f) : a < w.next :=
  hr.linked.below _ ((floodAt_eq_some_iff hr.linked).mp hf)

/-- An entry of `DATAF` after a new one has come in. -/
theorem Files.floodAt {msgSend : Mem} {size : UInt8} {toDelete : Option NeighborPtr}
    {w w' : World} (h : Files msgSend size toDelete w w') (hr : w.Register) (hr' : w'.Register)
    {a : Nat} {f : FloodEntry} (hf : w'.floodAt a = some f) : w.floodAt a = some f ∨
      w.next ≤ a ∧ ∃ l, value (getSymmetrical w.neighbors) w = some l ∧
        f = newEntry msgSend size (firstRecipients toDelete l) := by
  cases h with
  | nothing hsame =>
    refine .inl ?_
    rw [← hf]
    unfold World.floodAt
    rw [hsame]
  | entry c content hlo _ hentries hcontent =>
    have hmem := (floodAt_eq_some_iff hr'.linked).mp hf
    rw [hentries] at hmem
    rcases List.mem_append.mp ((recent_sublist _).subset hmem) with hold | hnew
    · exact .inl ((floodAt_eq_some_iff hr.linked).mpr hold)
    · obtain ⟨rfl, rfl⟩ := ListEntry.mk.injEq .. ▸ List.mem_singleton.mp hnew
      rcases hcontent with ⟨hnone, -⟩ | ⟨l, hl, hcontent⟩
      · cases hnone
      · exact .inr ⟨hlo, l, hl, Option.some.inj hcontent⟩

end FloodPeer
