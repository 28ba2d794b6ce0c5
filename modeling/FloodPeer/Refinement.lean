/-
FloodPeer/Refinement.lean

The peer as a node of a gossip protocol.

`World.node` forgets how the peer keeps what it knows: the two trees become maps
from addresses to records, and the flood list with its lists of recipients becomes
the store of a `Gossip.Node`.  With memory to spare, every move that nothing
confuses is the one step of the protocol that `Move.event` names (`follows_of_does`),
so that what holds of every run of the protocol holds of the peer.
-/
import FloodPeer.Flooding
import FloodPeer.Directory
import FloodPeer.Shortage
import FloodPeer.Lib.Gossip

namespace FloodPeer

open Octets StateLogic SortedAssoc Runs Gossip

/-! ### Trees as maps -/

/-- The records of a tree, by address. -/
def Tree.directory (t : Tree) : Directory := fun p => (lookup entryPlace p t.inorder).map Prod.snd

theorem directory_eq_some_iff {t : Tree} (h : t.Sorted) {p : List Nat ×ₗ Nat} {v : Ident} :
    t.directory p = some v ↔ ∃ e ∈ t.inorder, entryPlace e = p ∧ e.2 = v := by
  unfold Tree.directory
  rw [Option.map_eq_some_iff]
  constructor
  · rintro ⟨e, hlookup, rfl⟩
    obtain ⟨he, hplace⟩ := (lookup_eq_some_iff entryPlace h).mp hlookup
    exact ⟨e, he, hplace, rfl⟩
  · rintro ⟨e, he, hplace, rfl⟩
    exact ⟨e, (lookup_eq_some_iff entryPlace h).mpr ⟨he, hplace⟩, rfl⟩

theorem directory_eq_none_iff {t : Tree} {p : List Nat ×ₗ Nat} :
    t.directory p = none ↔ ∀ e ∈ t.inorder, entryPlace e ≠ p := by
  unfold Tree.directory
  rw [Option.map_eq_none_iff, lookup_eq_none_iff]

/-- Two trees give the same record for an address when they have the same entries
there. -/
theorem directory_congr {t t' : Tree} (h : t.Sorted) (h' : t'.Sorted) {p : List Nat ×ₗ Nat}
    (hmem : ∀ e, entryPlace e = p → (e ∈ t'.inorder ↔ e ∈ t.inorder)) :
    t'.directory p = t.directory p := by
  ext v
  constructor
  · intro hv
    obtain ⟨e, he, hplace, hrecord⟩ := (directory_eq_some_iff h').mp hv
    exact (directory_eq_some_iff h).mpr ⟨e, (hmem e hplace).mp he, hplace, hrecord⟩
  · intro hv
    obtain ⟨e, he, hplace, hrecord⟩ := (directory_eq_some_iff h).mp hv
    exact (directory_eq_some_iff h').mpr ⟨e, (hmem e hplace).mpr he, hplace, hrecord⟩

/-- Where there is memory for it, the record of `key` is renewed. -/
theorem Added.directory {key : Neighbor} {val : Ident} {t t' : Tree} {lo hi : Nat} {rc : Int}
    (hadd : Added key val t lo hi t' rc) (h : t.Sorted) (hrc : rc ≠ 0) :
    t'.directory = Function.update t.directory key.place
      (some (recordAfter val (t.directory key.place))) := by
  have h' := hadd.sorted h
  funext p
  by_cases hp : p = key.place
  · subst hp
    rw [Function.update_self]
    apply (directory_eq_some_iff h').mpr
    cases hadd with
    | failed => exact absurd rfl hrc
    | added a hlo hhi habsent hinorder =>
      rw [directory_eq_none_iff.mpr habsent, hinorder]
      exact ⟨_, (mem_upsert_iff entryPlace h).mpr (.inr (.inr ⟨habsent, rfl⟩)), rfl, rfl⟩
    | updated e he hplace hinorder =>
      rw [(directory_eq_some_iff h).mpr ⟨e, he, hplace, rfl⟩, hinorder (touchEntry val e)]
      exact ⟨_, (mem_upsert_iff entryPlace h).mpr (.inr (.inl ⟨e, he, hplace, rfl⟩)), hplace, rfl⟩
  · rw [Function.update_of_ne hp]
    refine directory_congr h h' fun e he => ⟨fun hmem => ?_, fun hmem => ?_⟩
    · rcases hadd.mem h hmem with ⟨hold, -⟩ | ⟨-, -, a, -, -, rfl⟩ | ⟨-, e₀, -, hplace, rfl⟩
      · exact hold
      · exact absurd he.symm hp
      · exact absurd (he.symm.trans hplace) hp
    · rcases hadd.mem_of_mem h hmem with ⟨hnew, -⟩ | ⟨-, hplace, -⟩
      · exact hnew
      · exact absurd (he.symm.trans hplace) hp

theorem directory_erase {t t' : Tree} (h : t.Sorted) (h' : t'.Sorted) {p : List Nat ×ₗ Nat}
    (hinorder : t'.inorder = erase entryPlace p t.inorder) :
    t'.directory = Function.update t.directory p none := by
  funext q
  by_cases hq : q = p
  · subst hq
    rw [Function.update_self]
    apply directory_eq_none_iff.mpr
    intro e he
    rw [hinorder] at he
    exact ((mem_erase_iff entryPlace).mp he).2
  · rw [Function.update_of_ne hq]
    refine directory_congr h h' fun e he => ?_
    rw [hinorder, mem_erase_iff]
    exact and_iff_left (he ▸ hq)

/-! ### Moves and the two maps -/

theorem addNeighbor_rc {w : World} (h : w.neighbors.Sorted) (halloc : w.Allocates)
    (key : Neighbor) (val : Ident) : value (addNeighbor key val) w ≠ 0 := by
  rw [(addNeighbor_eq h key val).2]
  have halloc' : (after (emptyMsg (value malloc w)) (after malloc w)).Allocates := by
    have hmalloc := (quiet_malloc w).toLater.elapsed.allocates halloc
    cases value malloc w with
    | none => exact hmalloc
    | some a => exact hmalloc
  have hrc := @insertRecord_rc { key with msg := value malloc w } val
    (after (emptyMsg (value malloc w)) (after malloc w)).neighbors _ halloc'
  unfold recordNeighbor
  simp only [value_bind, value_get, after_get, value_ite, value_pure, ite_self]
  exact hrc

theorem addPotential_rc {w : World} (halloc : w.Allocates) (key : Neighbor) (val : Ident) :
    value (addPotential key val) w ≠ 0 := by
  rw [show value (addPotential key val) w = _ from congrArg Prod.snd (addPotential_eq key val w)]
  exact insertRecord_rc _ val w.potential halloc

/-- An accepted Hello makes a neighbour of the sender. -/
theorem directory_acceptHello {w : World} (hw : w.Sound) (halloc : w.Allocates) (val : Ident)
    (peer : Neighbor) :
    (after (acceptHello val peer) w).neighbors.directory =
        Function.update w.neighbors.directory peer.place
          (some (recordAfter val (w.neighbors.directory peer.place))) ∧
      (after (acceptHello val peer) w).potential.directory =
        Function.update w.potential.directory peer.place none := by
  have hadd := neighborAdded hw.neighbors peer val
  have hrc := addNeighbor_rc hw.neighbors halloc peer val
  obtain ⟨msg, htree, -⟩ := hadd.tree
  constructor
  · rw [(sound_acceptHello hw val peer).2]
    exact htree.directory hw.neighbors hrc
  unfold acceptHello
  simp only [after_bind]
  generalize value (addNeighbor peer val) w = rc at hadd htree hrc ⊢
  generalize after (addNeighbor peer val) w = v at hadd htree ⊢
  have hpotential : v.potential.Sorted := hadd.potential ▸ hw.potential
  have hdirect : ∀ e ∈ v.potential.inorder, e.1.msg = none := hadd.potential ▸ hw.direct
  by_cases hone : rc = 1
  · rw [if_pos hone]
    simp only [after_bind, value_get, after_get, after_pure]
    obtain ⟨t, hsorted, hinorder, hafter⟩ := after_removePotential hpotential hdirect peer
    rw [hafter, (boxes_sendHelloEveryone _ _).potential, ← hadd.potential]
    exact directory_erase hpotential hsorted hinorder
  · -- the sender has a record, so that it is no potential neighbour
    rw [if_neg hone, after_pure, hadd.potential, eq_comm, Function.update_eq_self_iff, eq_comm]
    generalize v.neighbors = t at htree
    cases htree with
    | failed => exact absurd rfl hrc
    | added => exact absurd rfl hone
    | updated e he hplace =>
      exact directory_eq_none_iff.mpr fun e' he' heq =>
        hw.apart e he e' he' (hplace.trans heq.symm)

/-! ### The peer as a node -/

/-- An entry of `DATAF`. -/
def FloodEntry.item (f : FloodEntry) : Item (List Nat ×ₗ Nat) DataIndex (List UInt8) where
  key := f.index
  value := f.data
  waiting := (f.waiting.map fun k => k.toNeighbor.place).toFinset

/-- What the peer is as a node. -/
def World.node (w : World) : Node (List Nat ×ₗ Nat) DataIndex (List UInt8) Ident where
  known := w.neighbors.directory
  rumoured := w.potential.directory
  store := w.floods.map FloodEntry.item

/-- What the peer is as a step. -/
abbrev PeerEvent := Event (List Nat ×ₗ Nat) DataIndex (List UInt8) Ident

/-- What a move does to the addresses that the peer has only been told of. -/
def Move.mention (m : Move) (w : World) : PeerEvent :=
  match m with
  | .tlv type buf _ _ =>
    if type = 3 then
      .told (keyAt buf).place { id := 0, lastHello := w.clock.head, lastHelloLong := 0 }
    else .quiet
  | .forget key => .forgot key.place
  | _ => .quiet

/-- What a move is for the node. -/
def Move.event (m : Move) (w : World) : PeerEvent :=
  match m.given w with
  | some v =>
    match value (getSymmetrical w.neighbors) w with
    | none => .quiet
    | some l => .filed (newEntry v.1 v.2 (firstRecipients m.source l)).item
  | none =>
    match m.effect w with
    | .answered index peer => .answered index peer.toNeighbor.place
    | .gone peer => .left peer.toNeighbor.place
    | .resent _ => .quiet
    | .nothing =>
      match heardBy w m with
      | some h => .heard h.place h.ident
      | none => m.mention w

section Events

variable {m : Move} {w : World}

theorem mention_tlv (type : UInt8) (buf : Mem) (length : UInt8) (client : Sockaddr) :
    (Move.tlv type buf length client).mention w = if type = 3 then
      .told (keyAt buf).place { id := 0, lastHello := w.clock.head, lastHelloLong := 0 }
    else .quiet := rfl

/-- An address that is only mentioned changes nothing but the rumours. -/
theorem mention_cases (m : Move) (w : World) : m.mention w = .quiet ∨
    (∃ p r, m.mention w = .told p r) ∨ ∃ p, m.mention w = .forgot p := by
  cases m with
  | tlv type buf length client =>
    rw [mention_tlv]
    split
    · exact .inr (.inl ⟨_, _, rfl⟩)
    · exact .inl rfl
  | forget key => exact .inr (.inr ⟨_, rfl⟩)
  | _ => exact .inl rfl

theorem event_of_given {v : Mem × UInt8} (hgiven : m.given w = some v) {l : CList NgbEntry}
    (hl : value (getSymmetrical w.neighbors) w = some l) :
    m.event w = .filed (newEntry v.1 v.2 (firstRecipients m.source l)).item := by
  unfold Move.event
  rw [hgiven, hl]

theorem event_of_effect (hgiven : m.given w = none) : m.event w =
    match m.effect w with
    | .answered index peer => .answered index peer.toNeighbor.place
    | .gone peer => .left peer.toNeighbor.place
    | .resent _ => .quiet
    | .nothing =>
      match heardBy w m with
      | some h => .heard h.place h.ident
      | none => m.mention w := by
  unfold Move.event
  rw [hgiven]

theorem event_of_nothing (hgiven : m.given w = none) (heffect : m.effect w = .nothing)
    (hheard : heardBy w m = none) : m.event w = m.mention w := by
  rw [event_of_effect hgiven, heffect, hheard]

theorem event_of_answered (hgiven : m.given w = none) {index : DataIndex} {peer : NeighborPtr}
    (heffect : m.effect w = .answered index peer) :
    m.event w = .answered index peer.toNeighbor.place := by
  rw [event_of_effect hgiven, heffect]

theorem event_of_gone (hgiven : m.given w = none) {peer : NeighborPtr}
    (heffect : m.effect w = .gone peer) : m.event w = .left peer.toNeighbor.place := by
  rw [event_of_effect hgiven, heffect]

theorem event_of_resent (hgiven : m.given w = none) {t : Transmission}
    (heffect : m.effect w = .resent t) : m.event w = .quiet := by
  rw [event_of_effect hgiven, heffect]

theorem event_of_heard (hgiven : m.given w = none) (heffect : m.effect w = .nothing) {h : Heard}
    (hheard : heardBy w m = some h) : m.event w = .heard h.place h.ident := by
  rw [event_of_effect hgiven, heffect, hheard]

theorem given_tlv {type : UInt8} (htype : type ≠ 4) (buf : Mem) (length : UInt8)
    (client : Sockaddr) : (Move.tlv type buf length client).given w = none :=
  if_neg fun h => htype h.1

theorem effect_other {type : UInt8} (h4 : type ≠ 4) (h5 : type ≠ 5) (h6 : type ≠ 6) (buf : Mem)
    (length : UInt8) (client : Sockaddr) : (Move.tlv type buf length client).effect w = .nothing :=
  (if_neg (not_or.mpr ⟨h4, h5⟩)).trans (if_neg h6)

theorem heardBy_other {type : UInt8} (h2 : type ≠ 2) (buf : Mem) (length : UInt8)
    (client : Sockaddr) : heardBy w (.tlv type buf length client) = none :=
  if_neg fun h => h2 h.1

theorem event_ne_filed (hgiven : m.given w = none)
    (i : Item (List Nat ×ₗ Nat) DataIndex (List UInt8)) : m.event w ≠ .filed i := by
  intro hfiled
  cases heffect : m.effect w with
  | answered index peer =>
    rw [event_of_answered hgiven heffect] at hfiled
    cases hfiled
  | gone peer =>
    rw [event_of_gone hgiven heffect] at hfiled
    cases hfiled
  | resent t =>
    rw [event_of_resent hgiven heffect] at hfiled
    cases hfiled
  | nothing =>
    cases hheard : heardBy w m with
    | some h =>
      rw [event_of_heard hgiven heffect hheard] at hfiled
      cases hfiled
    | none =>
      rw [event_of_nothing hgiven heffect hheard] at hfiled
      rcases mention_cases m w with hmention | ⟨p, r, hmention⟩ | ⟨p, hmention⟩ <;>
        · rw [hmention] at hfiled
          cases hfiled

/-- An address is told of in a Neighbour TLV. -/
theorem told_of_event {p : List Nat ×ₗ Nat} {r : Ident} (h : m.event w = .told p r) :
    ∃ buf length client, m = .tlv 3 buf length client ∧ (keyAt buf).place = p := by
  cases hgiven : m.given w with
  | some v =>
    unfold Move.event at h
    rw [hgiven] at h
    cases hl : value (getSymmetrical w.neighbors) w with
    | none =>
      rw [hl] at h
      cases h
    | some l =>
      rw [hl] at h
      cases h
  | none =>
    cases heffect : m.effect w with
    | answered index peer =>
      rw [event_of_answered hgiven heffect] at h
      cases h
    | gone peer =>
      rw [event_of_gone hgiven heffect] at h
      cases h
    | resent t =>
      rw [event_of_resent hgiven heffect] at h
      cases h
    | nothing =>
      cases hheard : heardBy w m with
      | some hd =>
        rw [event_of_heard hgiven heffect hheard] at h
        cases h
      | none =>
        rw [event_of_nothing hgiven heffect hheard] at h
        cases m with
        | tlv type buf length client =>
          rw [mention_tlv] at h
          split at h
          · rename_i htype
            obtain ⟨rfl, -⟩ := Event.told.inj h
            exact ⟨buf, length, client, htype ▸ rfl, rfl⟩
          · cases h
        | _ => cases h

/-- The value of a Data TLV is filed, or its sender has answered. -/
theorem event_data (buf : Mem) (length : UInt8) (client : Sockaddr) :
    (∃ i, (Move.tlv 4 buf length client).event w = .filed i) ∨
      (Move.tlv 4 buf length client).event w = .quiet ∨
      (Move.tlv 4 buf length client).event w =
        .answered (indexAt buf) (sockaddr6ToNeighbor client).place := by
  cases hgiven : (Move.tlv 4 buf length client).given w with
  | none => exact .inr (.inr (event_of_answered hgiven rfl))
  | some v =>
    cases hl : value (getSymmetrical w.neighbors) w with
    | none =>
      refine .inr (.inl ?_)
      unfold Move.event
      rw [hgiven, hl]
    | some l => exact .inl ⟨_, event_of_given hgiven hl⟩

theorem event_say (got : Option (List UInt8)) :
    (∃ i, (Move.say got).event w = .filed i) ∨ (Move.say got).event w = .quiet := by
  have hgiven : (Move.say got).given w = some (fun i => (value (composeText got) w).1 (2 + i),
    (value (composeText got) w).1 1) := rfl
  cases hl : value (getSymmetrical w.neighbors) w with
  | none =>
    refine .inr ?_
    unfold Move.event
    rw [hgiven, hl]
  | some l => exact .inl ⟨_, event_of_given hgiven hl⟩

end Events

/-! ### Records -/

/-- What a step of the protocol says about the two maps. -/
def Maps (w : World) (e : PeerEvent) (w' : World) : Prop :=
  w'.neighbors.directory = (w.node.step recordAfter nbdata e).known ∧
    w'.potential.directory = (w.node.step recordAfter nbdata e).rumoured

section Records

variable {w w' : World}

theorem Maps.quiet (hn : w'.neighbors = w.neighbors) (hp : w'.potential = w.potential) :
    Maps w .quiet w' := ⟨congrArg Tree.directory hn, congrArg Tree.directory hp⟩

theorem Maps.filed (hn : w'.neighbors = w.neighbors) (hp : w'.potential = w.potential)
    (i : Item (List Nat ×ₗ Nat) DataIndex (List UInt8)) : Maps w (.filed i) w' :=
  ⟨congrArg Tree.directory hn, congrArg Tree.directory hp⟩

theorem Maps.answered (hn : w'.neighbors = w.neighbors) (hp : w'.potential = w.potential)
    (index : DataIndex) (p : List Nat ×ₗ Nat) : Maps w (.answered index p) w' :=
  ⟨congrArg Tree.directory hn, congrArg Tree.directory hp⟩

theorem maps_hello (hw : w.Sound) (halloc : w.Allocates) (buf : Mem) (length : UInt8)
    (client : Sockaddr) : Maps w ((Move.tlv 2 buf length client).event w)
      (after (hello buf length (sockaddr6ToNeighbor client)) w) := by
  have hgiven : (Move.tlv 2 buf length client).given w = none :=
    given_tlv (by decide) buf length client
  have hread := prints_readHello length w
  rw [after_hello, helloIdent_eq]
  cases hheard : heardBy w (.tlv 2 buf length client) with
  | none =>
    rw [event_of_nothing hgiven rfl hheard]
    exact Maps.quiet hread.neighbors hread.potential
  | some h =>
    rw [event_of_heard hgiven rfl hheard, place_of_heardBy hheard]
    have haccept := directory_acceptHello (hw.of_boxes hread.idle.boxes)
      (hread.idle.toElapsed.allocates halloc) h.ident (sockaddr6ToNeighbor client)
    rw [hread.neighbors, hread.potential] at haccept
    exact haccept

theorem getIdent_eq_directory {t : Tree} (h : t.Sorted) (key : Neighbor) :
    getIdent key t = t.directory key.place := getIdent_eq h key

theorem maps_neighbour (hw : w.Sound) (halloc : w.Allocates) (buf : Mem) (length : UInt8)
    (client : Sockaddr) : Maps w ((Move.tlv 3 buf length client).event w)
      (after (neighbour buf length (sockaddr6ToNeighbor client)) w) := by
  have hevent : (Move.tlv 3 buf length client).event w = .told (keyAt buf).place
      { id := 0, lastHello := w.clock.head, lastHelloLong := 0 } :=
    event_of_nothing (given_tlv (by decide) buf length client) rfl
      (heardBy_other (by decide) buf length client)
  have hdirectory : w.node.known (keyAt buf).place = getIdent (keyAt buf) w.neighbors :=
    (getIdent_eq_directory hw.neighbors _).symm
  rw [hevent, Maps, step_told, hdirectory]
  unfold neighbour
  simp only [after_bind, value_get, after_get]
  cases hkey : getIdent (keyAt buf) w.neighbors with
  | some v =>
    rw [if_neg (Option.some_ne_none v)]
    have hget : getIdent (keyAt buf)
        (after (note (.valueRead 16 2)) (after (note (.valueRead 0 16)) w)).neighbors = some v :=
      hkey
    rw [hget]
    exact ⟨rfl, rfl⟩
  | none =>
    rw [if_pos rfl]
    have hget : getIdent (keyAt buf)
        (after (note (.valueRead 16 2)) (after (note (.valueRead 0 16)) w)).neighbors = none := hkey
    rw [hget]
    -- only the clock has been read, so that there is still memory
    obtain ⟨u, hu⟩ : ∃ u, after getSeconds (after (note (.valueRead 16 2))
        (after (note (.valueRead 0 16)) w)) = u := ⟨_, rfl⟩
    have halloc' : u.Allocates := hu ▸ halloc
    have hsame : u.neighbors = w.neighbors ∧ u.potential = w.potential := hu ▸ ⟨rfl, rfl⟩
    have hsorted : u.potential.Sorted := hsame.2 ▸ hw.potential
    simp only [after_bind, after_pure]
    rw [hu]
    have hadd := potentialAdded hsorted (keyAt buf)
      { id := 0, lastHello := w.clock.head, lastHelloLong := 0 }
    have hrc := addPotential_rc halloc' (keyAt buf)
      { id := 0, lastHello := w.clock.head, lastHelloLong := 0 }
    have htree := hadd.tree.directory hsorted hrc
    rw [hsame.2] at htree
    exact ⟨congrArg Tree.directory (hadd.neighbors.trans hsame.1), htree⟩

theorem maps_removeNeighborEverywhere {u : World} (hu : u.Sound)
    (hn : u.neighbors = w.neighbors) (hp : u.potential = w.potential) (peer : NeighborPtr) :
    Maps w (.left peer.toNeighbor.place) (after (removeNeighborEverywhere peer) u) := by
  have hboxes := filer_boxes.keeps_removeFromFloods peer u.dataf.contents u
  have hv := hu.of_boxes hboxes
  have hsame := hboxes.neighbors.trans hn
  obtain ⟨t, hsorted, hinorder, hafter⟩ := after_removeNeighbor hv.neighbors peer.toNeighbor
  have hdirectory := directory_erase hv.neighbors hsorted hinorder
  rw [hsame] at hdirectory
  have hpotential := (freeIfSet_same ((Tree.find? (after (removeFromFloods peer u.dataf.contents)
    u).neighbors peer.toNeighbor).bind fun e => e.1.msg)
    (after (removeFromFloods peer u.dataf.contents) u)).2.2.1
  have hremove : after (removeNeighborEverywhere peer) u = after (removeNeighbor peer.toNeighbor)
      (after (removeFromFloods peer u.dataf.contents) u) := rfl
  rw [hremove, hafter]
  exact ⟨hdirectory, congrArg Tree.directory (hpotential.trans (hboxes.potential.trans hp))⟩

theorem maps_expire (hw : w.Sound) {u : World} (hu : Boxes w u) {msg : MessageH}
    (hmsg : msg.declared ≤ pmtu - 4) (taille : Nat) (sym : NeighborPtr) :
    Maps w (if w.neighbors.owns sym then .left sym.toNeighbor.place else .quiet)
      (after (expire msg taille sym) u) := by
  rw [after_expire, hu.neighbors]
  split
  · have hnote := hu.trans (idle_note (.dropping sym (u.pending sym.toNeighbor)) u).boxes
    have hsend := hnote.trans (boxes_sendMessage hmsg taille sym.toNeighbor _)
    exact maps_removeNeighborEverywhere (hw.of_boxes hsend) hsend.neighbors hsend.potential sym
  · exact Maps.quiet hu.neighbors hu.potential

theorem event_turn {flood tmp : Nat} {currentTime : Int} {f : FloodEntry} {nw : NgbEntry}
    (hunder : w.under flood tmp = some (f, nw)) :
    (Move.turn flood currentTime tmp).event w =
      if w.neighbors.owns nw.sym ∧ nw.timesSent = 5 then .left nw.sym.toNeighbor.place
      else .quiet := by
  have heffect := @effect_turn w flood tmp f nw hunder currentTime
  by_cases hown : w.neighbors.owns nw.sym
  · rw [if_neg (not_not.mpr hown)] at heffect
    by_cases hfive : nw.timesSent = 5
    · rw [if_pos hfive] at heffect
      rw [event_of_gone rfl heffect, if_pos ⟨hown, hfive⟩]
    · rw [if_neg hfive] at heffect
      rw [if_neg fun h => hfive h.2]
      by_cases hdue : nw.waitTime ≤ currentTime ∧ f.Sendable
      · rw [if_pos hdue] at heffect
        exact event_of_resent rfl heffect
      · rw [if_neg hdue] at heffect
        exact event_of_nothing rfl heffect rfl
  · rw [if_pos hown] at heffect
    rw [if_neg fun h => hown h.1]
    exact event_of_nothing rfl heffect rfl

theorem event_expire (mem : Mem) (sym : NeighborPtr) : (Move.expire mem sym).event w =
    if w.neighbors.owns sym then .left sym.toNeighbor.place else .quiet := by
  have heffect : (Move.expire mem sym).effect w =
      if w.neighbors.owns sym then .gone sym else .nothing := rfl
  by_cases hown : w.neighbors.owns sym
  · rw [if_pos hown] at heffect
    rw [event_of_gone rfl heffect, if_pos hown]
  · rw [if_neg hown] at heffect
    rw [if_neg hown]
    exact event_of_nothing rfl heffect rfl

theorem maps_turn (hw : w.Sound) (flood : Nat) (currentTime : Int) (tmp : Nat) :
    Maps w ((Move.turn flood currentTime tmp).event w)
      (after (floodTurn flood currentTime tmp) w) := by
  cases floodTurn_cases flood currentTime tmp w with
  | absent hunder hafter =>
    have heffect : (Move.turn flood currentTime tmp).effect w = .nothing := by
      simp only [Move.effect, hunder]
    rw [event_of_nothing rfl heffect rfl, hafter]
    exact Maps.quiet rfl rfl
  | inactive f nw hunder hfive hafter =>
    have hexpire := maps_expire hw (Quiet.boxes quiet_uninit w)
      (le_of_eq_of_le (declared_inactive w.memory.head) (by decide)) 31 nw.sym
    rw [event_turn hunder, hafter, after_handleInactive]
    simp only [hfive, and_true]
    exact hexpire
  | dangling f nw hunder hfive hdue hown hafter =>
    rw [event_turn hunder, if_neg fun h => hown h.1, hafter]
    exact Maps.quiet rfl rfl
  | refused f nw hunder hfive hdue hown hzero hafter =>
    have hboxes := boxes_sendData f.data nw.sym.toNeighbor w
    rw [event_turn hunder, if_neg fun h => hfive h.2, hafter]
    exact Maps.quiet hboxes.neighbors hboxes.potential
  | sent f nw hunder hfive hdue hown hone hafter =>
    have hsend := boxes_sendData f.data nw.sym.toNeighbor w
    have hboxes := hsend.trans (filer_boxes.keeps_requeue flood currentTime f.symNeighbors tmp nw _)
    rw [event_turn hunder, if_neg fun h => hfive h.2, hafter]
    exact Maps.quiet hboxes.neighbors hboxes.potential
  | early f nw hunder hfive hearly hafter =>
    rw [event_turn hunder, if_neg fun h => hfive h.2, hafter]
    exact Maps.quiet rfl rfl

/-- **The records** change as the protocol says. -/
theorem Move.Does.maps {m : Move} (h : m.Does w w') (hw : w.Sound) (halloc : w.Allocates) :
    Maps w (m.event w) w' := by
  have hquiet : ∀ {m : Move}, m.event w = .quiet → Boxes w w' → Maps w (m.event w) w' := by
    intro m hevent hboxes
    rw [hevent]
    exact Maps.quiet hboxes.neighbors hboxes.potential
  cases m with
  | idle => exact hquiet rfl (Idle.boxes h)
  | tlv type buf length client =>
    rw [show w' = _ from h]
    have hsame : ∀ {type : UInt8}, (Move.tlv type buf length client).event w = .quiet →
        ∀ u, Boxes w u → Maps w ((Move.tlv type buf length client).event w) u := by
      intro type hevent u hboxes
      rw [hevent]
      exact Maps.quiet hboxes.neighbors hboxes.potential
    unfold handleTlv
    split
    · exact hsame rfl _ (Boxes.refl w)
    · exact hsame rfl _ (Boxes.refl w)
    · exact maps_hello hw halloc buf length client
    · exact maps_neighbour hw halloc buf length client
    · have hboxes := boxes_data buf length (sockaddr6ToNeighbor client) w
      rcases @event_data w buf length client with ⟨i, hevent⟩ | hevent | hevent
      · rw [hevent]
        exact Maps.filed hboxes.neighbors hboxes.potential i
      · exact hsame hevent _ hboxes
      · rw [hevent]
        exact Maps.answered hboxes.neighbors hboxes.potential _ _
    · have hboxes := boxes_ack buf length (sockaddr6ToNeighbor client) w
      exact Maps.answered hboxes.neighbors hboxes.potential _ _
    · obtain ⟨u, hprints, hafter⟩ := after_goaway buf length (sockaddr6ToNeighbor client) w
      rw [show after (goaway buf length (sockaddr6ToNeighbor client)) w = _ from hafter]
      exact maps_removeNeighborEverywhere (hw.of_boxes hprints.idle.boxes) hprints.neighbors
        hprints.potential _
    · rename_i h0 h1 h2 h3 h4 h5 h6
      have hevent : (Move.tlv type buf length client).event w = .quiet := by
        rw [event_of_nothing (given_tlv h4 buf length client)
          (effect_other h4 h5 h6 buf length client) (heardBy_other h2 buf length client)]
        exact if_neg h3
      exact hsame hevent _ (prints_warning _ _ _ _).idle.boxes
  | say got =>
    have hboxes : Boxes w w' := (show w' = _ from h) ▸ boxes_localMessage got w
    rcases @event_say w got with ⟨i, hevent⟩ | hevent
    · rw [hevent]
      exact Maps.filed hboxes.neighbors hboxes.potential i
    · exact hquiet hevent hboxes
  | hellos => exact hquiet rfl ((show w' = _ from h) ▸ boxes_sendHelloEveryone _ w)
  | advertise => exact hquiet rfl ((show w' = _ from h) ▸ boxes_sendSymetricalEveryone _ w)
  | shortHellos => exact hquiet rfl ((show w' = _ from h) ▸ boxes_sendShorthelloEveryone _ w)
  | forget key =>
    obtain ⟨t, hsorted, hinorder, hafter⟩ := after_removePotential hw.potential hw.direct key
    rw [show w' = _ from h, hafter]
    exact ⟨rfl, directory_erase hw.potential hsorted hinorder⟩
  | expire mem sym =>
    rw [show w' = _ from h, event_expire]
    exact maps_expire hw (Boxes.refl w) (le_of_eq_of_le (declared_goaway mem) (by decide)) 7 sym
  | turn flood currentTime tmp =>
    rw [show w' = _ from h]
    exact maps_turn hw flood currentTime tmp
  | flush => exact hquiet rfl ((show w' = _ from h) ▸ boxes_sendToEveryoneNow _ w)

end Records

/-! ### The store -/

section Store

variable {α : Type}

theorem reduceOption_map_some (l : List α) : (l.map some).reduceOption = l := by
  unfold List.reduceOption
  rw [List.filterMap_map]
  exact List.filterMap_some

theorem map_reduceOption {l : List (Option α)} (h : none ∉ l) : l.reduceOption.map some = l := by
  induction l with
  | nil => rfl
  | cons c rest ih =>
    obtain ⟨hc, hrest⟩ := not_or.mp (mt List.mem_cons.mpr h)
    obtain ⟨f, rfl⟩ := Option.ne_none_iff_exists'.mp (Ne.symm hc)
    rw [List.reduceOption_cons_of_some, List.map_cons, ih hrest]

theorem store_eq (w : World) : w.node.store =
    (w.dataf.entries.map fun e => e.content.map FloodEntry.item).reduceOption := by
  have hcontents : (w.dataf.entries.map fun e => e.content.map FloodEntry.item) =
      w.dataf.contents.map (Option.map FloodEntry.item) := by
    unfold CList.contents
    rw [List.map_map]
    rfl
  rw [hcontents, List.reduceOption_map]
  rfl

variable {w w' : World}

/-- New lists of recipients. -/
theorem store_relist (hr : w.Register) {g : Nat → FloodEntry → CList NgbEntry}
    (hdataf : w'.dataf = w.dataf.relist g)
    {F : Item (List Nat ×ₗ Nat) DataIndex (List UInt8) →
      Item (List Nat ×ₗ Nat) DataIndex (List UInt8)}
    (hitem : ∀ a f, w.floodAt a = some f →
      ({ f with symNeighbors := g a f } : FloodEntry).item = F f.item) :
    w'.node.store = w.node.store.map F := by
  rw [store_eq, store_eq, ← List.reduceOption_map, List.map_map, hdataf]
  unfold CList.relist
  rw [List.map_map]
  congr 1
  apply List.map_congr_left
  rintro ⟨a, content⟩ he
  cases content with
  | none => rfl
  | some f => exact congrArg some (hitem a f ((floodAt_eq_some_iff hr.linked).mpr he))

/-- A new entry. -/
theorem store_filed (hfilled : none ∉ w.dataf.contents) {a : Nat} {f : FloodEntry}
    (hentries : w'.dataf.entries =
      recent (w.dataf.entries ++ [{ addr := a, content := some f }])) :
    w'.node.store = newest nbdata (w.node.store ++ [f.item]) := by
  have hsome : none ∉ w.dataf.entries.map fun e => e.content.map FloodEntry.item := by
    intro hmem
    obtain ⟨e, he, hnone⟩ := List.mem_map.mp hmem
    exact hfilled (List.mem_map.mpr ⟨e, he, Option.map_eq_none_iff.mp hnone⟩)
  have hnew : w.dataf.entries.map (fun e => e.content.map FloodEntry.item) ++ [some f.item] =
      (w.node.store ++ [f.item]).map some := by
    rw [List.map_append, store_eq, map_reduceOption hsome]
    rfl
  rw [store_eq, hentries, map_recent, List.map_append, List.map_singleton]
  show (recent (_ ++ [some f.item])).reduceOption = _
  rw [hnew, ← map_recent, reduceOption_map_some]
  rfl

/-- Who is waited for, without those at a place. -/
theorem item_filter {f : FloodEntry} {l : CList NgbEntry} {p : List Nat ×ₗ Nat}
    (h : (l.contents.map (·.sym)).Perm (f.waiting.filter fun k => ¬ k.toNeighbor.place = p)) :
    ({ f with symNeighbors := l } : FloodEntry).item = f.item.without p := by
  refine Item.ext rfl rfl ?_
  ext q
  show q ∈ ((l.contents.map (·.sym)).map fun k => k.toNeighbor.place).toFinset ↔
    q ∈ (f.waiting.map fun k => k.toNeighbor.place).toFinset.erase p
  rw [List.mem_toFinset, (h.map _).mem_iff, Finset.mem_erase, List.mem_toFinset, List.mem_map,
    List.mem_map]
  constructor
  · rintro ⟨k, hk, rfl⟩
    obtain ⟨hmem, hne⟩ := List.mem_filter.mp hk
    exact ⟨of_decide_eq_true hne, k, hmem, rfl⟩
  · rintro ⟨hne, k, hk, rfl⟩
    exact ⟨k, List.mem_filter.mpr ⟨hk, decide_eq_true hne⟩, rfl⟩

theorem item_perm {f : FloodEntry} {l : CList NgbEntry}
    (h : (l.contents.map (·.sym)).Perm f.waiting) :
    ({ f with symNeighbors := l } : FloodEntry).item = f.item := by
  refine Item.ext rfl rfl ?_
  ext q
  show q ∈ ((l.contents.map (·.sym)).map fun k => k.toNeighbor.place).toFinset ↔
    q ∈ (f.waiting.map fun k => k.toNeighbor.place).toFinset
  rw [List.mem_toFinset, (h.map _).mem_iff, List.mem_toFinset]

/-- What a move does to the recipients of one entry. -/
def Effect.onItem (e : Effect) (i : Item (List Nat ×ₗ Nat) DataIndex (List UInt8)) :
    Item (List Nat ×ₗ Nat) DataIndex (List UInt8) :=
  match e with
  | .answered index peer => i.answered index peer.toNeighbor.place
  | .gone peer => i.without peer.toNeighbor.place
  | _ => i

theorem item_onItem {e : Effect} {f : FloodEntry} {l : CList NgbEntry}
    (h : (l.contents.map (·.sym)).Perm (f.waiting.filter fun k => ¬ e.drops f.index k)) :
    ({ f with symNeighbors := l } : FloodEntry).item = e.onItem f.item := by
  have hnobody : (∀ k, ¬ e.drops f.index k) → ({ f with symNeighbors := l } : FloodEntry).item =
      f.item := by
    intro hnone
    rw [List.filter_eq_self.mpr fun k _ => decide_eq_true (hnone k)] at h
    exact item_perm h
  cases e with
  | nothing => exact hnobody fun _ => id
  | resent t => exact hnobody fun _ => id
  | gone peer => exact item_filter h
  | answered index peer =>
    show _ = f.item.answered index peer.toNeighbor.place
    unfold Item.answered
    by_cases hindex : f.index = index
    · rw [if_pos (show f.item.key = index from hindex)]
      refine item_filter (h.trans (List.Perm.of_eq (List.filter_congr fun k _ => ?_)))
      exact decide_eq_decide.mpr (not_congr (and_iff_right hindex.symm))
    · rw [if_neg (show ¬ f.item.key = index from hindex)]
      exact hnobody fun k hdrops => hindex hdrops.1.symm

/-- A move that files nothing takes from the recipients. -/
theorem store_of_relists {m : Move} (h : Relists m w w') (hw : w.Steady) (hclear : Clear w m) :
    w'.node.store = w.node.store.map (m.effect w).onItem := by
  obtain ⟨g, hdataf, hperm⟩ := h.refines hw.register hw.served hw.allocates hclear
  exact store_relist hw.register hdataf fun a f hf => item_onItem (hperm a f hf)

theorem keys_store (w : World) : w.node.store.map Item.key = indices w.dataf.contents := by
  show (w.floods.map FloodEntry.item).map Item.key = _
  rw [List.map_map]
  unfold World.floods indices List.reduceOption
  rw [List.map_filterMap]
  rfl

/-- What the step does to the store, when nothing is filed. -/
theorem store_step {m : Move} (hgiven : m.given w = none) (n : Node (List Nat ×ₗ Nat) DataIndex
    (List UInt8) Ident) : (n.step recordAfter nbdata (m.event w)).store =
      n.store.map (m.effect w).onItem := by
  cases heffect : m.effect w with
  | answered index peer =>
    rw [event_of_answered hgiven heffect]
    rfl
  | gone peer =>
    rw [event_of_gone hgiven heffect]
    rfl
  | resent t =>
    rw [event_of_resent hgiven heffect]
    exact (List.map_id n.store).symm
  | nothing =>
    have hsame : (n.step recordAfter nbdata (m.event w)).store = n.store := by
      cases hheard : heardBy w m with
      | some h =>
        rw [event_of_heard hgiven heffect hheard]
        rfl
      | none =>
        rw [event_of_nothing hgiven heffect hheard]
        rcases mention_cases m w with hmention | ⟨p, r, hmention⟩ | ⟨p, hmention⟩
        · rw [hmention]
          rfl
        · rw [hmention, step_told]
          split <;> rfl
        · rw [hmention]
          rfl
    rw [hsame]
    exact (List.map_id n.store).symm

end Store

/-! ### The simulation -/

/-- **One move is one step.**  With memory to spare, and when it confuses nobody, a
move of the peer is the step of the protocol that its event names. -/
theorem follows_of_does {m : Move} {w w' : World} (h : m.Does w w') (hw : w.Steady)
    (hclear : Clear w m) : Follows recordAfter nbdata (m.event w) w.node w'.node := by
  have hmaps := h.maps hw.sound hw.allocates
  obtain ⟨-, hfiles⟩ := h.files hw.sound hw.register
  cases hgiven : m.given w with
  | none =>
    rw [hgiven] at hfiles
    have hstore := (store_of_relists hfiles hw hclear).trans (store_step hgiven w.node).symm
    exact ⟨admits_of_ne (event_ne_filed hgiven), Node.ext hmaps.1 hmaps.2 hstore⟩
  | some v =>
    rw [hgiven] at hfiles
    cases hfiles.1 with
    | nothing _ hmem => exact absurd hw.allocates hmem
    | entry a content hlo hhi hentries hcontent =>
      rcases hcontent with ⟨-, hmem⟩ | ⟨l, hl, rfl⟩
      · exact absurd hw.allocates hmem
      have hstore := store_filed hw.served.filled hentries
      rw [event_of_given hgiven hl] at hmaps ⊢
      refine ⟨⟨?_, ?_⟩, Node.ext hmaps.1 hmaps.2 hstore⟩
      · rw [← hstore, keys_store]
        exact (h.served hw.sound hw.register hw.served hw.allocates hclear).distinct
      · intro p hp
        obtain ⟨k, hk, rfl⟩ := List.mem_map.mp (List.mem_toFinset.mp hp)
        obtain ⟨x, hx, rfl⟩ := List.mem_map.mp hk
        have hown := ((first_recipients hw.sound hclear hgiven hl).2 x hx).1
        obtain ⟨e, he, hkey⟩ := List.mem_map.mp hown
        intro hnone
        exact directory_eq_none_iff.mp hnone e he (congrArg (fun k => k.toNeighbor.place) hkey)

/-- The steps of the protocol that a run makes. -/
def protocol (tr : List (World × Move)) :
    List (Node (List Nat ×ₗ Nat) DataIndex (List UInt8) Ident × PeerEvent) :=
  tr.map fun x => (x.1.node, x.2.event x.1)

theorem node_of_initial {w : World} (h : w.Initial) : w.node = Node.empty := by
  unfold World.node World.floods
  rw [h.neighbors, h.potential, h.dataf]
  rfl

theorem follows_of_run {w w' : World} {tr : List (World × Move)} (hrun : Run Move.Does w tr w')
    (hw : w.Steady) (hclear : ∀ x ∈ tr, Clear x.1 x.2) :
    Run (Follows recordAfter nbdata) w.node (protocol tr) w'.node := by
  induction hrun with
  | nil => exact .nil
  | @snoc tr u v m hrun hmove ih =>
    have hbefore : ∀ x ∈ tr, Clear x.1 x.2 := fun x hx => hclear x (List.mem_append_left _ hx)
    have hlast := hclear (u, m) (List.mem_append_right _ (List.mem_singleton_self _))
    unfold protocol
    rw [List.map_append]
    exact (ih hbefore).snoc (follows_of_does hmove (steady_of_run hrun hw hbefore) hlast)

/-- The records change as the protocol says, whatever happens to the flood list. -/
theorem spreads_of_run {w w' : World} {tr : List (World × Move)} (hrun : Run Move.Does w tr w')
    (hw : w.Sound) (halloc : w.Allocates) :
    Run (Spreads recordAfter nbdata) w.node (protocol tr) w'.node := by
  induction hrun with
  | nil => exact .nil
  | @snoc tr u v m hrun hmove ih =>
    unfold protocol
    rw [List.map_append]
    refine ih.snoc ?_
    exact hmove.maps (sound_of_run hrun hw) ((elapsed_of_run hrun).allocates halloc)

/-- **The peer refines the protocol.**  With memory to spare, every run of the peer
in which nothing is confused is, move by move, a run of the protocol from the node
that knows nobody, and ends in a sane node. -/
theorem protocol_of_run {w₀ w : World} {tr : List (World × Move)} (hinit : w₀.Initial)
    (halloc : w₀.Allocates) (hrun : Run Move.Does w₀ tr w) (hclear : ∀ x ∈ tr, Clear x.1 x.2) :
    Run (Follows recordAfter nbdata) Node.empty (protocol tr) w.node ∧ w.node.Sane nbdata := by
  have hfollows := follows_of_run hrun (steady_of_initial hinit halloc) hclear
  rw [node_of_initial hinit] at hfollows
  exact ⟨hfollows, sane_of_run (sane_empty nbdata) hfollows⟩

/-- A turn that does not give the recipient up. -/
theorem clear_turn {w : World} {flood tmp : Nat} {f : FloodEntry} {nw : NgbEntry}
    {currentTime : Int} (hunder : w.under flood tmp = some (f, nw)) (hfive : nw.timesSent ≠ 5)
    (hrequeues : Requeues f.symNeighbors.contents nw w.rands.head currentTime) :
    Clear w (.turn flood currentTime tmp) where
  fresh := fun _ hsay => Move.noConfusion hsay
  filed := by
    intro _ _ _ _ hsome
    cases hsome
  answered := by
    intro _ _ heffect
    cases source_of_answered heffect
  gone := by
    intro _ heffect
    rw [effect_turn hunder, if_neg hfive] at heffect
    split at heffect
    · cases heffect
    · split at heffect <;> cases heffect
  resent := by
    intro t heffect
    obtain ⟨_, hm, hunder', -⟩ := effect_resent heffect
    obtain ⟨rfl, rfl, rfl⟩ := Move.turn.inj hm
    obtain ⟨rfl, rfl⟩ := Prod.mk.inj (Option.some.inj (hunder.symm.trans hunder'))
    exact hrequeues

/-- The second of two recipients answers, and the first is sent the datum. -/
def answeredByOther : List Move := twoRecipients ++ [ackFrom other]

theorem clear_firstSent : Clear (actAll answeredByOther (bootAt 0)) (.turn 16 10 11) := by
  obtain ⟨⟨f, nw⟩, hunder⟩ : ∃ p, (actAll answeredByOther (bootAt 0)).under 16 11 = some p :=
    Option.isSome_iff_exists.mp (by decide +kernel)
  have hp : ∀ p ∈ (actAll answeredByOther (bootAt 0)).under 16 11, p.2.timesSent ≠ 5 ∧
      Requeues p.1.symNeighbors.contents p.2 (actAll answeredByOther (bootAt 0)).rands.head 10 := by
    decide +kernel
  exact clear_turn hunder (hp _ hunder).1 (hp _ hunder).2

theorem clear_answeredByOther :
    ∀ x ∈ actHistory answeredByOther (bootAt 0) ++
      [(actAll answeredByOther (bootAt 0), .turn 16 10 11)], Clear x.1 x.2 := by
  intro x hx
  rcases List.mem_append.mp hx with hx | hx
  · rcases List.mem_cons.mp hx with rfl | hx
    · exact clear_of_nothing rfl rfl
    rcases List.mem_cons.mp hx with rfl | hx
    · exact clear_of_nothing rfl rfl
    rcases List.mem_cons.mp hx with rfl | hx
    · exact clear_say fun got _ => by decide +kernel
    · obtain rfl := List.mem_singleton.mp hx
      exact clear_ack (by decide +kernel)
  · obtain rfl := List.mem_singleton.mp hx
    dsimp only
    exact clear_firstSent

theorem run_answeredByOther : Run Move.Does (bootAt 0)
    (actHistory answeredByOther (bootAt 0) ++
      [(actAll answeredByOther (bootAt 0), .turn 16 10 11)])
    ((Move.turn 16 10 11).act (actAll answeredByOther (bootAt 0))) :=
  (run_actAll _ _).snoc (Move.does_act _ _)

theorem protocol_answeredByOther :
    let w := (Move.turn 16 10 11).act (actAll answeredByOther (bootAt 0))
    Run (Follows recordAfter nbdata) Node.empty (protocol
      (actHistory answeredByOther (bootAt 0) ++
        [(actAll answeredByOther (bootAt 0), .turn 16 10 11)])) w.node ∧ w.node.Sane nbdata :=
  protocol_of_run (initial_boot _) (fun _ => rfl) run_answeredByOther clear_answeredByOther

/-! ### Answers -/

/-- The recipient of a transmission is waited for. -/
theorem waiting_of_resent {w : World} (hr : w.Register) {m : Move} {t : Transmission}
    (h : m.effect w = .resent t) : t.flood.item ∈ w.node.store ∧
      t.recipient.sym.toNeighbor.place ∈ t.flood.item.waiting := by
  obtain ⟨tmp, -, hunder, -⟩ := effect_resent h
  obtain ⟨hflood, hrecipient⟩ := under_eq_some hunder
  refine ⟨List.mem_map_of_mem (mem_floods hr.linked hflood), ?_⟩
  apply List.mem_toFinset.mpr
  exact List.mem_map_of_mem (List.mem_map_of_mem hrecipient)

/-- The sender of a datum is not among its recipients. -/
theorem sender_not_waiting {w : World} (hw : w.Steady) {buf : Mem} {length : UInt8}
    {client : Sockaddr} (hclear : Clear w (.tlv 4 buf length client))
    {i : Item (List Nat ×ₗ Nat) DataIndex (List UInt8)}
    (hevent : (Move.tlv 4 buf length client).event w = .filed i) :
    i.key = indexAt buf ∧ (sockaddr6ToNeighbor client).place ∉ i.waiting := by
  cases hgiven : (Move.tlv 4 buf length client).given w with
  | none => exact absurd hevent (event_ne_filed hgiven i)
  | some v =>
    obtain ⟨-, hv⟩ := Option.ite_none_right_eq_some.mp hgiven
    obtain rfl := Option.some.inj hv
    cases hl : value (getSymmetrical w.neighbors) w with
    | none =>
      unfold Move.event at hevent
      rw [hgiven, hl] at hevent
      cases hevent
    | some l =>
      rw [event_of_given hgiven hl] at hevent
      obtain rfl := Event.filed.inj hevent
      refine ⟨rfl, fun hmem => ?_⟩
      obtain ⟨k, hk, hplace⟩ := List.mem_map.mp (List.mem_toFinset.mp hmem)
      obtain ⟨x, hx, rfl⟩ := List.mem_map.mp hk
      exact ((first_recipients hw.sound hclear hgiven hl).2 x hx).2 _ rfl hplace

/-- After a Data TLV or an Ack from `client`, and until the datum is filed anew, its
recipients have other addresses. -/
theorem recipient_ne_of_shown {w₀ w : World} {past later : List (World × Move)} {u : World}
    {type : UInt8} {buf : Mem} {length : UInt8} {client : Sockaddr} (hinit : w₀.Initial)
    (halloc : w₀.Allocates)
    (hrun : Run Move.Does w₀ (past ++ (u, .tlv type buf length client) :: later) w)
    (hclear : ∀ x ∈ past ++ (u, .tlv type buf length client) :: later, Clear x.1 x.2)
    (htype : type = 4 ∨ type = 5)
    (hold : ∀ x ∈ later, ∀ v, x.2.given x.1 = some v → indexAt v.1 ≠ indexAt buf)
    {x : World × Move} (hx : x ∈ later) {t : Transmission} (hresent : x.2.effect x.1 = .resent t)
    (hindex : t.flood.index = indexAt buf) :
    neighborToSockaddr6 t.recipient.sym.toNeighbor ≠ client := by
  obtain ⟨l₁, l₂, rfl⟩ := List.append_of_mem hx
  rw [← List.cons_append, ← List.append_assoc] at hrun hclear
  -- the run up to the transmission
  obtain ⟨hbefore, -⟩ := hrun.split_cons
  have hclear' : ∀ y ∈ past ++ (u, .tlv type buf length client) :: l₁, Clear y.1 y.2 :=
    fun y hy => hclear y (List.mem_append_left _ hy)
  have hsteady := steady_of_initial hinit halloc
  have hfollows := follows_of_run hbefore hsteady hclear'
  have hprotocol : protocol (past ++ (u, .tlv type buf length client) :: l₁) = protocol past ++
      (u.node, (Move.tlv type buf length client).event u) :: protocol l₁ := by
    unfold protocol
    rw [List.map_append, List.map_cons]
  rw [hprotocol] at hfollows
  have hkeep : ∀ y ∈ protocol l₁, ∀ j, y.2 = .filed j → j.key ≠ indexAt buf := by
    intro y hy j hj
    obtain ⟨z, hz, rfl⟩ := List.mem_map.mp hy
    cases hgiven : z.2.given z.1 with
    | none => exact absurd hj (event_ne_filed hgiven j)
    | some v =>
      have hne := hold z (List.mem_append_left _ hz) v hgiven
      cases hl : value (getSymmetrical z.1.neighbors) z.1 with
      | none =>
        have hquiet : z.2.event z.1 = .quiet := by
          unfold Move.event
          rw [hgiven, hl]
        cases hquiet.symm.trans hj
      | some l =>
        obtain rfl := Event.filed.inj ((event_of_given hgiven hl).symm.trans hj)
        exact hne
  obtain ⟨hstore, hwaiting⟩ :=
    waiting_of_resent (steady_of_run hbefore hsteady hclear').register hresent
  -- the sender of the TLV is not waited for from then on
  have hnot : (sockaddr6ToNeighbor client).place ∉ t.flood.item.waiting := by
    obtain ⟨hpast, -⟩ := hbefore.split_cons
    have hu := steady_of_run hpast hsteady fun y hy => hclear' y (List.mem_append_left _ hy)
    have hclearu := hclear' _ (List.mem_append_right _ List.mem_cons_self)
    cases hgiven : (Move.tlv type buf length client).given u with
    | none =>
      have heffect : (Move.tlv type buf length client).effect u =
          .answered (indexAt buf) (sockaddr6ToNeighbor client).ptr := if_pos htype
      rw [event_of_answered hgiven heffect] at hfollows
      exact not_waiting_of_answered hfollows hkeep hstore hindex
    | some v =>
      obtain ⟨⟨rfl, -⟩, -⟩ := Option.ite_none_right_eq_some.mp hgiven
      cases hl : value (getSymmetrical u.neighbors) u with
      | none =>
        have hsome := value_getSymmetrical_isSome u.neighbors u
        have hhead : u.mallocs.head = true := hu.allocates 0
        rw [hl, hhead] at hsome
        cases hsome
      | some l =>
        have hevent := event_of_given hgiven hl
        obtain ⟨hkey, hsender⟩ := sender_not_waiting hu hclearu hevent
        rw [hevent] at hfollows
        rw [← hkey] at hkeep hindex
        exact not_waiting_of_filed hfollows hkeep hsender hstore hindex
  intro heq
  rw [← neighborToSockaddr6_sockaddr6ToNeighbor client, neighborToSockaddr6_eq_iff] at heq
  exact hnot (heq ▸ hwaiting)

/-- **Who has shown that it has a datum is not sent it.**  After a Data TLV or an Ack
from `client`, and until the datum is filed anew, the turns for it give nothing to a
neighbour with the address `client`, as long as it is one. -/
theorem quiet_after_shown {w₀ w : World} {past later : List (World × Move)} {u v : World}
    {type : UInt8} {buf : Mem} {length : UInt8} {client : Sockaddr} (hinit : w₀.Initial)
    (halloc : w₀.Allocates)
    (hrun : Run Move.Does w₀ (past ++ (u, .tlv type buf length client) :: later) w)
    (hclear : ∀ x ∈ past ++ (u, .tlv type buf length client) :: later, Clear x.1 x.2)
    (htype : type = 4 ∨ type = 5)
    (hold : ∀ x ∈ later, ∀ v, x.2.given x.1 = some v → indexAt v.1 ≠ indexAt buf)
    {a tmp : Nat} {now : Int} (hx : (v, .turn a now tmp) ∈ later)
    (hindex : ∀ f ∈ v.floodAt a, f.index = indexAt buf) {k : NeighborPtr}
    (hk : neighborToSockaddr6 k.toNeighbor = client)
    (hown : ((Move.turn a now tmp).act v).neighbors.owns k) :
    Takes k [] v ((Move.turn a now tmp).act v) := by
  obtain ⟨l₁, l₂, hl⟩ := List.append_of_mem (List.mem_append_right past (List.mem_cons_of_mem _ hx))
  obtain ⟨hbefore, -⟩ := (hl ▸ hrun).split_cons
  obtain ⟨hsound, -, hwhole⟩ := whole_of_run hinit hbefore
  rcases takes_or_resent hsound hwhole hown with htakes | ⟨t, hresent, rfl, -, rfl⟩
  · exact htakes
  · obtain ⟨tmp', -, hunder, -⟩ := effect_resent hresent
    exact absurd hk (recipient_ne_of_shown hinit halloc hrun hclear htype hold hx hresent
      (hindex t.flood (under_eq_some hunder).1))

/-- After the answer nothing goes to the neighbour that has answered. -/
theorem quiet_answeredByOther :
    Takes { sockaddr6ToNeighbor other with msg := some 5, addr := 8 } []
      (actAll answeredByOther (bootAt 0))
      ((Move.turn 16 10 11).act (actAll answeredByOther (bootAt 0))) := by
  have hhistory : actHistory answeredByOther (bootAt 0) ++
      [(actAll answeredByOther (bootAt 0), .turn 16 10 11)] =
        actHistory twoRecipients (bootAt 0) ++ (actAll twoRecipients (bootAt 0), ackFrom other) ::
          [(actAll answeredByOther (bootAt 0), .turn 16 10 11)] := by
    unfold answeredByOther
    rw [actHistory_concat, List.append_assoc]
    rfl
  have hrun := run_answeredByOther
  have hclear := clear_answeredByOther
  rw [hhistory] at hrun hclear
  refine quiet_after_shown (initial_boot _) (fun _ => rfl) hrun hclear (.inr rfl) ?_
    (List.mem_singleton_self _) (by decide +kernel) rfl
    (by decide +kernel)
  intro x hx v hgiven
  obtain rfl := List.mem_singleton.mp hx
  cases hgiven

end FloodPeer
