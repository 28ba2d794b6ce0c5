/-
FloodPeer/Farewell.lean

What a neighbour that is given up still gets.

`handle_inactive` and `send_goaway_asymetrical` queue a GoAway and then remove
the record, and with it the message in which the GoAway waits.  All that can
still leave is what was waiting before, when there was no room for the GoAway
behind it.  Nothing else in the same turn of the main loop sends to that
address: `Closes` says so of each piece of the second half of the turn.
-/
import FloodPeer.Filing
import FloodPeer.Transmissions

namespace FloodPeer

open Octets StateLogic SortedAssoc Runs

/-! ### Absence -/

/-- Nobody at the address `p` is known. -/
structure Gone (p : List Nat ×ₗ Nat) (w : World) : Prop where
  neighbors : ∀ e ∈ w.neighbors.inorder, entryPlace e ≠ p
  potential : ∀ e ∈ w.potential.inorder, entryPlace e ≠ p

/-- No record is new. -/
def Shrinks (w w' : World) : Prop :=
  w.Sound → w'.Sound ∧ w'.neighbors.inorder.Sublist w.neighbors.inorder ∧
    w'.potential.inorder.Sublist w.potential.inorder

theorem Boxes.shrinks {w w' : World} (h : Boxes w w') : Shrinks w w' := fun hw =>
  ⟨hw.of_boxes h, by rw [h.neighbors], by rw [h.potential]⟩

theorem shrinks_removePotential (key : Neighbor) : Keeps Shrinks (removePotential key) := by
  intro w hw
  obtain ⟨hsound, hsub⟩ := settles_removePotential key w hw
  obtain ⟨t, -, hinorder, hafter⟩ := after_removePotential hw.potential hw.direct key
  refine ⟨hsound, hsub, ?_⟩
  rw [hafter]
  show t.inorder.Sublist _
  rw [hinorder]
  exact List.filter_sublist

/-- What `remove_neighbor` leaves behind. -/
theorem removed_removeNeighbor {w : World} (hw : w.Sound) (key : Neighbor) :
    (after (removeNeighbor key) w).potential = w.potential ∧
      ∀ e ∈ (after (removeNeighbor key) w).neighbors.inorder, entryPlace e ≠ key.place := by
  obtain ⟨t, -, hinorder, hafter⟩ := after_removeNeighbor hw.neighbors key
  obtain ⟨-, -, hpotential, -⟩ := freeIfSet_same ((w.neighbors.find? key).bind fun e => e.1.msg) w
  rw [hafter]
  refine ⟨hpotential, fun e he => ?_⟩
  have he : e ∈ t.inorder := he
  rw [hinorder] at he
  exact ((mem_erase_iff entryPlace).mp he).2

/-- What `remove_neighbor_everywhere` leaves behind. -/
theorem removed_removeNeighborEverywhere {w : World} (hw : w.Sound) (peer : NeighborPtr) :
    (after (removeNeighborEverywhere peer) w).potential = w.potential ∧
      ∀ e ∈ (after (removeNeighborEverywhere peer) w).neighbors.inorder,
        entryPlace e ≠ peer.toNeighbor.place := by
  have hboxes := filer_boxes.keeps_removeFromFloods peer w.dataf.contents w
  obtain ⟨hpotential, hgone⟩ := removed_removeNeighbor (hw.of_boxes hboxes) peer.toNeighbor
  exact ⟨hpotential.trans hboxes.potential, hgone⟩

/-! ### What the second half of a turn does -/

/-- All that was waiting for `sym`, and a GoAway with code 2 behind it, is among
what has been sent to its address. -/
def Told (sym : NeighborPtr) (pend : List UInt8) (post : List Obs) : Prop :=
  ∃ (text : List UInt8) (h : text.length ≤ 254),
    (pend ++ (Tlv.goaway 2 text h).bytes).Sublist
      ((sentTo (neighborToSockaddr6 sym.toNeighbor) post).map (·.drop 4)).flatten

/-- Nothing more is sent to the address of `sym` than what was waiting for it. -/
def Abandoned (sym : NeighborPtr) (pend : List UInt8) (post : List Obs) : Prop :=
  sentTo (neighborToSockaddr6 sym.toNeighbor) post = [] ∨
    sentTo (neighborToSockaddr6 sym.toNeighbor) post = [datagram pend]

/-- There is no room for a GoAway in what was waiting. -/
theorem Abandoned.not_told {sym : NeighborPtr} {pend : List UInt8} {post : List Obs}
    (h : Abandoned sym pend post) : ¬ Told sym pend post := by
  rintro ⟨text, hlen, htold⟩
  have hpos : 0 < (Tlv.goaway 2 text hlen).bytes.length := by
    rw [Tlv.bytes_of_handled rfl]
    simp
  have hle := htold.length_le
  rw [List.length_append] at hle
  rcases h with hsent | hsent <;> rw [hsent] at hle
  · simp only [List.map_nil, List.flatten_nil, List.length_nil] at hle
    omega
  · simp only [List.map_cons, drop_datagram, List.map_nil, List.flatten_singleton] at hle
    omega

/-- The observations `ext` are made on the way from `w` to `w'`: nothing is sent
to an absent peer, and a neighbour that is given up is absent from then on. -/
structure Closing (w w' : World) (ext : List Obs) : Prop where
  sound : w'.Sound
  boxed : w'.Boxed
  log : w'.log = w.log ++ ext
  gone : ∀ key : Neighbor, Gone key.place w →
    Gone key.place w' ∧ sentTo (neighborToSockaddr6 key) ext = []
  dropped : ∀ pre sym pend post, ext = pre ++ .dropping sym pend :: post →
    Gone sym.toNeighbor.place w' ∧ Abandoned sym pend post

def Closes (w w' : World) : Prop := w.Sound → w.Boxed → ∃ ext, Closing w w' ext

theorem Closes.trans {u v w : World} (h₁ : Closes u v) (h₂ : Closes v w) : Closes u w := by
  intro hu hb
  obtain ⟨e₁, c₁⟩ := h₁ hu hb
  obtain ⟨e₂, c₂⟩ := h₂ c₁.sound c₁.boxed
  refine ⟨e₁ ++ e₂, c₂.sound, c₂.boxed, ?_, fun key hgone => ?_, fun pre sym pend post heq => ?_⟩
  · rw [c₂.log, c₁.log, List.append_assoc]
  · obtain ⟨hgone₁, hnone₁⟩ := c₁.gone key hgone
    obtain ⟨hgone₂, hnone₂⟩ := c₂.gone key hgone₁
    exact ⟨hgone₂, by rw [sentTo_append, hnone₁, hnone₂, List.append_nil]⟩
  · rcases List.append_eq_append_iff.mp heq with ⟨pre', rfl, hpost⟩ | ⟨post', rfl, hpost⟩
    · -- in the second part
      exact c₂.dropped pre' sym pend post hpost
    · cases post' with
      | nil =>
        rw [List.nil_append] at hpost
        exact c₂.dropped [] sym pend post hpost.symm
      | cons o rest =>
        -- in the first part: the second sends nothing more
        obtain ⟨rfl, rfl⟩ := List.cons.inj hpost
        obtain ⟨hgone, hsent⟩ := c₁.dropped pre sym pend rest rfl
        obtain ⟨hgone', hnone⟩ := c₂.gone sym.toNeighbor hgone
        refine ⟨hgone', ?_⟩
        unfold Abandoned
        rwa [show rest.append e₂ = rest ++ e₂ from rfl, sentTo_append, hnone, List.append_nil]

/-- Somebody absent is not addressed when only known peers are. -/
theorem sentTo_of_known {w : World} {ext : List Obs} {key : Neighbor} (hgone : Gone key.place w)
    (hall : ∀ o ∈ ext, o.To fun s => w.neighbors.addresses s ∨ w.potential.addresses s) :
    sentTo (neighborToSockaddr6 key) ext = [] := by
  refine List.filterMap_eq_nil_iff.mpr fun o ho => ?_
  have hto := hall o ho
  cases o with
  | sendto server bytes =>
    refine if_neg fun heq => ?_
    rcases (show _ ∨ _ from hto) with ⟨e, he, hs⟩ | ⟨e, he, hs⟩
    · exact hgone.neighbors e he (neighborToSockaddr6_eq_iff.mp (hs.symm.trans heq))
    · exact hgone.potential e he (neighborToSockaddr6_eq_iff.mp (hs.symm.trans heq))
  | _ => rfl

/-- A piece of the turn that gives up nobody and writes to known peers only. -/
theorem closes_of_hands {w w' : World} (hshrinks : Shrinks w w') (helapsed : Elapsed w w')
    (hhands : Hands (fun s => w.neighbors.addresses s ∨ w.potential.addresses s) w w') :
    Closes w w' := by
  intro hw hb
  obtain ⟨hsound, hn, hp⟩ := hshrinks hw
  obtain ⟨ext, hext, hall⟩ := hhands
  refine ⟨ext, hsound, ⟨helapsed.allocates hb.allocates, fun e he => hb.some e (hn.subset he)⟩,
    hext, fun key hgone => ⟨⟨fun e he => hgone.neighbors e (hn.subset he),
      fun e he => hgone.potential e (hp.subset he)⟩, sentTo_of_known hgone hall⟩, ?_⟩
  intro pre sym pend post heq
  exact absurd (hall (.dropping sym pend) (by simp [heq])) id

theorem primitive_closes : Primitive Closes := by
  have hquiet : ∀ {α : Type} {m : Peer α}, Keeps Quiet m → Keeps (Hands fun _ => False) m →
      Keeps Closes m := fun hq hh w =>
    closes_of_hands (Boxes.shrinks (Quiet.boxes hq w)) (hq w).toLater.elapsed
      ((hh w).mono fun _ => False.elim)
  have hh := primitive_hands fun _ => False
  exact
    { refl := fun w => closes_of_hands (Boxes.refl w).shrinks (Elapsed.refl w) (hands_of_log rfl)
      trans := Closes.trans
      onMalloc := hquiet quiet_malloc hh.onMalloc
      onGetSeconds := hquiet quiet_getSeconds hh.onGetSeconds
      onRand := hquiet quiet_rand hh.onRand
      onUninit := hquiet quiet_uninit hh.onUninit
      onFault := hquiet (quiet_note rfl) hh.onFault }

section Rules

variable {α β : Type}

theorem Closes.bind {m : Peer α} {f : α → Peer β} (hm : Keeps Closes m)
    (hf : ∀ a, Keeps Closes (f a)) : Keeps Closes (m >>= f) := primitive_closes.bind hm hf

theorem Closes.pure (a : α) : Keeps Closes (Pure.pure a : Peer α) := primitive_closes.pure a

/-- A program that starts from a component of the current state. -/
theorem Closes.get_bind {m : World → Peer α} {f : α → Peer β}
    (hm : ∀ w, Closes w (after (m w) w)) (hf : ∀ a, Keeps Closes (f a)) :
    Keeps Closes (MonadState.get >>= fun w => m w >>= f) := fun w => (hm w).trans (hf _ _)

/-- A message to neighbours. -/
theorem closes_of_boxes {m : Peer α} {w : World} (hm : Keeps Boxes m)
    (hhands : Hands w.neighbors.addresses w (after m w)) : Closes w (after m w) :=
  closes_of_hands (hm w).shrinks (hm w).toElapsed (hhands.mono fun _ => Or.inl)

end Rules

/-! ### Giving up a neighbour -/

/-- What is sent to the record by the `send_message` that queues its GoAway: at
most what was waiting before. -/
theorem sentTo_sendMessage {w : World} (hw : w.Sound) {sym : NeighborPtr}
    (hown : w.neighbors.owns sym) (hboxed : w.Boxed) {buf : MessageH}
    (hbuf : buf.declared ≤ pmtu - 4) (taille : Nat) :
    ∃ ext, (after (sendMessage buf taille sym.toNeighbor) w).log = w.log ++ ext ∧
      (sentTo (neighborToSockaddr6 sym.toNeighbor) ext = [] ∨
        sentTo (neighborToSockaddr6 sym.toNeighbor) ext =
          [datagram (w.pending sym.toNeighbor)]) := by
  obtain ⟨e, he, rfl⟩ := List.mem_map.mp hown
  obtain ⟨a, ha⟩ := Option.ne_none_iff_exists'.mp (hboxed.some e he)
  obtain ⟨-, m, hm, hbox⟩ := hw.box e he a ha
  have hpending := pending_of_content ha hm
  by_cases hfull : m.declared + buf.declared > pmtu - 4
  · rw [sendMessage_flush ha hm hfull hbuf]
    refine ⟨_, rfl, .inr ?_⟩
    rw [bytes_eq_datagram hbox.magic hbox.version, hpending]
    simp [sentTo]
  · rw [sendMessage_append ha hm (Nat.not_lt.mp hfull)]
    exact ⟨_, rfl, .inl (by simp [sentTo])⟩

/-- Giving up a neighbour: it gets neither the GoAway nor, with it, what was
waiting. -/
theorem closes_drop {sym : NeighborPtr} {w : World} (hown : w.neighbors.owns sym) {buf : MessageH}
    (hbuf : buf.declared ≤ pmtu - 4) (taille : Nat) :
    Closes w (after (do
      note (.dropping sym (w.pending sym.toNeighbor))
      let _ ← sendMessage buf taille sym.toNeighbor
      let _ ← removeNeighborEverywhere sym : Peer Unit) w) := by
  intro hw hb
  simp only [after_bind, after_pure]
  -- the note, the message and the removal, one after the other
  obtain ⟨v, hv⟩ : ∃ v, after (note (.dropping sym (w.pending sym.toNeighbor))) w = v := ⟨_, rfl⟩
  have hvboxes : Boxes w v := hv ▸ Quiet.boxes (quiet_note rfl) w
  have hvlog : v.log = w.log ++ [.dropping sym (w.pending sym.toNeighbor)] := hv ▸ rfl
  have hvpend : v.pending sym.toNeighbor = w.pending sym.toNeighbor := hv ▸ rfl
  have hvb : v.Boxed := ⟨hvboxes.toElapsed.allocates hb.allocates, hvboxes.neighbors ▸ hb.some⟩
  have hvs := hw.of_boxes hvboxes
  rw [hv]
  obtain ⟨e₁, hlog₁, hsent₁⟩ := sentTo_sendMessage hvs (hvboxes.neighbors ▸ hown) hvb hbuf taille
  have huboxes := boxes_sendMessage hbuf taille sym.toNeighbor v
  have huhands := hands_sendMessage buf taille sym.toNeighbor v
  generalize after (sendMessage buf taille sym.toNeighbor) v = u at *
  have hus := hvs.of_boxes huboxes
  obtain ⟨hpotential, hgone⟩ := removed_removeNeighborEverywhere hus sym
  obtain ⟨hsound, hsub⟩ := settles_removeNeighborEverywhere sym u hus
  have helapsed := (later_removeNeighborEverywhere sym u).elapsed
  obtain ⟨e₂, hlog₂, hnone₂⟩ := @hands_removeNeighborEverywhere (fun _ => False) sym u
  generalize after (removeNeighborEverywhere sym) u = w' at *
  obtain ⟨e₁', hlog₁', hto⟩ := huhands
  obtain rfl : e₁ = e₁' := List.append_cancel_left (hlog₁.symm.trans hlog₁')
  have hneighbors : u.neighbors = w.neighbors := huboxes.neighbors.trans hvboxes.neighbors
  have hpotential' : w'.potential = w.potential :=
    hpotential.trans (huboxes.potential.trans hvboxes.potential)
  have hsub' : w'.neighbors.inorder.Sublist w.neighbors.inorder := hneighbors ▸ hsub
  have hnone : ∀ s, sentTo s e₂ = [] := by
    refine fun s => List.filterMap_eq_nil_iff.mpr fun o ho => ?_
    cases o with
    | sendto server bytes => exact absurd (hnone₂ _ ho) id
    | _ => rfl
  obtain ⟨e, he, rfl⟩ := List.mem_map.mp hown
  refine ⟨[.dropping e.1 (w.pending e.1.toNeighbor)] ++ e₁ ++ e₂, hsound, ⟨?_, ?_⟩, ?_,
    fun key hkey => ⟨⟨?_, ?_⟩, ?_⟩, fun pre sym pend post heq => ?_⟩
  · exact (hvboxes.toElapsed.trans (huboxes.toElapsed.trans helapsed)).allocates hb.allocates
  · exact fun e he => hb.some e (hsub'.subset he)
  · rw [hlog₂, hlog₁, hvlog]
    simp
  · exact fun e he => hkey.neighbors e (hsub'.subset he)
  · exact hpotential' ▸ hkey.potential
  · -- the record is not at the address of the absent peer
    have hother : sentTo (neighborToSockaddr6 key) e₁ = [] := by
      refine List.filterMap_eq_nil_iff.mpr fun o ho => ?_
      have hto := hto o ho
      cases o with
      | sendto server bytes =>
        refine if_neg fun heq => hkey.neighbors e he ?_
        exact neighborToSockaddr6_eq_iff.mp ((show server = _ from hto).symm.trans heq)
      | _ => rfl
    rw [sentTo_append, sentTo_append, hother, hnone]
    rfl
  · -- there is only one neighbour that is given up
    cases pre with
    | cons o pre =>
      rw [List.append_assoc] at heq
      obtain ⟨-, hrest⟩ := List.cons.inj heq
      have hmem : Obs.dropping sym pend ∈ e₁ ++ e₂ := by
        rw [show e₁ ++ e₂ = _ from hrest]
        simp
      rcases List.mem_append.mp hmem with hmem | hmem
      · exact absurd (hto _ hmem) id
      · exact absurd (hnone₂ _ hmem) id
    | nil =>
      rw [List.append_assoc] at heq
      obtain ⟨hhead, hrest⟩ := List.cons.inj heq
      obtain ⟨rfl, rfl⟩ := Obs.dropping.inj hhead
      obtain rfl : e₁ ++ e₂ = post := hrest
      refine ⟨⟨hgone, fun e' he' => ?_⟩, ?_⟩
      · rw [hpotential'] at he'
        exact (hw.apart e he e' he').symm
      · unfold Abandoned
        rwa [sentTo_append, hnone, List.append_nil, ← hvpend]

/-- A pointer is followed, or it dangles. -/
theorem closes_handleInactive (sym : NeighborPtr) : Keeps Closes (handleInactive sym) := by
  refine Closes.bind primitive_closes.onUninit fun mem => ?_
  intro w
  rw [after_bind]
  rcases deref_cases sym w with ⟨hown, hvalue, hafter⟩ | ⟨-, hvalue, hafter⟩
  · rw [hvalue, hafter]
    exact closes_drop hown (le_trans (le_of_eq (declared_inactive mem)) (by decide)) _
  · rw [hvalue, hafter]
    exact primitive_closes.onFault w

theorem closes_expire (mem : Mem) (taille : Nat) (sym : NeighborPtr) :
    Keeps Closes (expire (goawayMessage mem) taille sym) := by
  intro w
  unfold expire
  rw [after_bind]
  rcases deref_cases sym w with ⟨hown, hvalue, hafter⟩ | ⟨-, hvalue, hafter⟩
  · rw [hvalue, hafter]
    exact closes_drop hown (le_trans (le_of_eq (declared_goaway mem)) (by decide)) _
  · rw [hvalue, hafter]
    exact primitive_closes.onFault w

/-! ### The rest of the turn -/

theorem closes_floodTurn (flood : Nat) (currentTime : Int) (tmp : Nat) :
    Keeps Closes (floodTurn flood currentTime tmp) := by
  refine Closes.bind primitive_closes.get fun w => ?_
  split
  · exact Closes.bind primitive_closes.onFault fun _ => Closes.pure _
  split
  · exact Closes.bind primitive_closes.onFault fun _ => Closes.pure _
  rename_i f hf _ _ nw hnw
  refine Keeps.ite (fun _ => ?_) fun _ => Keeps.ite (fun _ => ?_) fun _ => ?_
  · exact Closes.bind (closes_handleInactive _) fun _ => Closes.pure _
  · intro v
    rw [after_bind]
    rcases deref_cases nw.sym v with ⟨hown, hvalue, hafter⟩ | ⟨-, hvalue, hafter⟩
    · rw [hvalue, hafter]
      -- the datum goes to a neighbour
      obtain ⟨e, he, hkey⟩ := List.mem_map.mp hown
      have hsend : Closes v (after (sendData f.data nw.sym.toNeighbor) v) :=
        closes_of_boxes (boxes_sendData _ _) ((hands_sendData _ _ v).mono fun s hs =>
          ⟨e, he, hkey ▸ hs⟩)
      have hrequeue : Keeps Closes (requeue flood currentTime f.symNeighbors tmp nw) := fun u =>
        closes_of_boxes (filer_boxes.keeps_requeue _ _ _ _ _)
          ((filer_hands _).keeps_requeue _ _ _ _ _ u)
      simp only [after_bind, after_ite, after_pure]
      split
      · exact hsend
      · exact hsend.trans (hrequeue _)
    · rw [hvalue, hafter]
      exact primitive_closes.onFault v
  · refine Closes.bind (fun v => ?_) fun _ => Closes.pure _
    have helapsed : Elapsed v { v with nexttime := min v.nexttime nw.waitTime } :=
      { Elapsed.refl v with id := rfl }
    exact closes_of_hands (Boxes.of_same helapsed rfl rfl rfl).shrinks helapsed (hands_of_log rfl)

theorem closes_floodLoop (flood : Nat) (currentTime : Int) (fuel : Nat) (tmp : Option Nat) :
    Keeps Closes (floodLoop flood currentTime fuel tmp) := by
  have hstuck : Keeps Closes (note .stuck) := fun w =>
    closes_of_hands (Idle.boxes (idle_note .stuck w)).shrinks (elapsed_note .stuck w)
      (@hands_note _ .stuck trivial w)
  induction fuel generalizing tmp with
  | zero =>
    cases tmp with
    | none => exact Closes.pure _
    | some tmp => exact hstuck
  | succ fuel ih =>
    cases tmp with
    | none => exact Closes.pure _
    | some tmp =>
      refine Closes.bind (closes_floodTurn flood currentTime tmp) fun turn => ?_
      cases turn with
      | stop => exact Closes.pure _
      | goto tmp => exact ih tmp

theorem closes_floodMessages : Keeps Closes floodMessages := by
  have hcells : ∀ l : List Nat, Keeps Closes (floodCells l) := by
    intro l
    induction l with
    | nil => exact Closes.pure _
    | cons cell rest ih =>
      refine Closes.bind ?_ fun _ => ih
      refine Closes.bind primitive_closes.onGetSeconds fun currentTime => ?_
      refine Closes.bind primitive_closes.get fun w => ?_
      cases w.floodAt cell with
      | none => exact primitive_closes.onFault
      | some f => exact closes_floodLoop _ _ _ _
  exact Closes.bind primitive_closes.get fun _ => hcells _

theorem closes_sendGoawayAsymetrical : Keeps Closes sendGoawayAsymetrical := by
  have hloop : ∀ (mem : Mem) (l : List NgbEntry) (count : Int),
      Keeps Closes (goawayLoop (goawayMessage mem) 7 l count) := by
    intro mem l
    induction l with
    | nil => exact fun _ => Closes.pure _
    | cons ent rest ih => exact fun _ => Closes.bind (closes_expire mem 7 _) fun _ => ih _
  refine Closes.bind primitive_closes.get fun _ => Keeps.ite (fun _ => Closes.pure _) fun _ => ?_
  refine Closes.bind primitive_closes.get fun _ => ?_
  refine Closes.bind (primitive_closes.keeps_findBy primitive_closes.keeps_isOld _) fun sym => ?_
  refine Closes.bind primitive_closes.onUninit fun mem => ?_
  cases sym with
  | none => exact Closes.bind primitive_closes.onFault fun _ => Closes.pure _
  | some sym => exact hloop mem sym.contents 0

theorem closes_removeOldPotential : Keeps Closes removeOldPotential := by
  have hforget : ∀ key : Neighbor, Keeps Closes (removePotential key) := fun key w =>
    closes_of_hands (shrinks_removePotential key w)
      (registrar_later.keeps_removePotential key w).elapsed
      ((registrar_hands _).keeps_removePotential key w)
  have hloop : ∀ l : List NgbEntry, Keeps Closes (potentialLoop l) := by
    intro l
    induction l with
    | nil => exact Closes.pure _
    | cons ent rest ih => exact Closes.bind (hforget _) fun _ => ih
  refine Closes.bind primitive_closes.get fun _ => Keeps.ite (fun _ => Closes.pure _) fun _ => ?_
  refine Closes.bind primitive_closes.get fun _ => ?_
  refine Closes.bind (primitive_closes.keeps_findBy primitive_closes.keeps_isOld _) fun sym => ?_
  cases sym with
  | none => exact primitive_closes.onFault
  | some sym => exact hloop _

theorem closes_helloTimer (nexthello : Int) : Keeps Closes (helloTimer nexthello) := by
  refine Closes.bind primitive_closes.onGetSeconds fun _ => Keeps.ite (fun _ => ?_) fun _ =>
    Closes.pure _
  refine Closes.get_bind (fun w => ?_) fun _ => ?_
  · exact closes_of_boxes (boxes_sendHelloEveryone _) (hands_sendHelloEveryone _ w)
  refine Closes.get_bind (fun w => ?_) fun _ => ?_
  · exact closes_of_boxes (boxes_sendSymetricalEveryone _) (hands_sendSymetricalEveryone _ w)
  refine Closes.bind primitive_closes.onGetSeconds fun _ => ?_
  refine Closes.bind closes_sendGoawayAsymetrical fun _ => ?_
  refine Closes.bind closes_removeOldPotential fun _ => ?_
  refine Closes.bind primitive_closes.get fun _ => Keeps.ite (fun _ => ?_) fun _ => Closes.pure _
  refine Closes.get_bind (fun w => ?_) fun _ => Closes.pure _
  exact closes_of_hands (boxes_sendShorthelloEveryone _ w).shrinks
    (boxes_sendShorthelloEveryone _ w).toElapsed
    ((hands_sendShorthelloEveryone _ w).mono fun _ => Or.inr)

theorem closes_closing (m : MainState) : Keeps Closes (closing m) := by
  refine Closes.bind (closes_helloTimer _) fun _ => Closes.bind closes_floodMessages fun _ => ?_
  refine Closes.get_bind (fun w => ?_) fun _ => Closes.pure _
  exact closes_of_boxes (boxes_sendToEveryoneNow _) (hands_sendToEveryoneNow _ w)

/-- Nobody is given up in the first half. -/
theorem hands_opening (wake : Wake) (m : MainState) :
    Keeps (Hands anybody) (opening wake m) := by
  refine Hands.bind (hands_modify fun _ => rfl) fun _ => ?_
  refine Hands.bind (primitive_hands _).onGetSeconds fun _ => Hands.bind Hands.get fun _ => ?_
  refine Hands.bind (hands_note trivial) fun _ => Hands.bind (hands_modify fun _ => rfl) fun _ => ?_
  exact hands_readDescriptors wake m

/-! ### Farewells -/

/-- In every turn of the main loop, a neighbour that is given up is not told:
from the decision to the end of the turn it gets at most what was waiting for
it, and never the GoAway that is queued behind. -/
theorem never_told {w₀ w : World} {tr : List (World × Move)} (hinit : w₀.Initial)
    (halloc : w₀.Allocates) (hrun : Run Move.Does w₀ tr w) (wake : Wake) (m : MainState)
    {pre post : List Obs} {sym : NeighborPtr} {pend : List UInt8}
    (hlog : (after (iteration wake m) w).log = w.log ++ (pre ++ .dropping sym pend :: post)) :
    Abandoned sym pend post ∧ ¬ Told sym pend post := by
  have hsound₀ := sound_of_initial hinit
  have hboxed₀ : w₀.Boxed := ⟨halloc, fun e he => by simp [hinit.neighbors] at he⟩
  -- the state between the two halves is still one that a run leads to
  obtain ⟨tr', hopen⟩ := (plays_opening (allowsWake_any m wake) w).run
  have hmid := hrun.trans hopen
  obtain ⟨e₁, hlog₁, hnone⟩ := hands_opening wake m w
  obtain ⟨e₂, hclosing⟩ := closes_closing (value (opening wake m) w) _
    (sound_of_run hmid hsound₀) (boxed_of_run hmid hsound₀ hboxed₀)
  rw [after_iteration, hclosing.log, hlog₁, List.append_assoc] at hlog
  have heq := List.append_cancel_left hlog
  have habandoned : Abandoned sym pend post := by
    rcases List.append_eq_append_iff.mp heq with ⟨pre', -, hpost⟩ | ⟨rest, hpre, hpost⟩
    · exact (hclosing.dropped pre' sym pend post hpost).2
    · cases rest with
      | nil =>
        rw [List.nil_append] at hpost
        exact (hclosing.dropped [] sym pend post hpost.symm).2
      | cons o rest =>
        obtain rfl := (List.cons.inj hpost).1
        exact absurd (hnone (.dropping sym pend) (by simp [hpre])) id
  exact ⟨habandoned, habandoned.not_told⟩

/-- A clock that shows `0`, and then `200` for ever. -/
def longSilence : Stream' Nat := fun k => if k = 0 then 0 else 200

/-- The state after a Hello at `0`; the answer is waiting. -/
def silentSince : World := actAll [shortHello 7] (World.boot longSilence)

/-- Two Hellos wait for the other peer when it is given up. -/
def waitingHellos : List UInt8 := (Tlv.longHello 1 7).bytes ++ (Tlv.longHello 1 7).bytes

/-- What that turn records: a Hello and the GoAway are queued, and nothing is
sent. -/
def silentTurn : List Obs :=
  [.select 0, .queued 1 (Tlv.longHello 1 7).bytes] ++
    .dropping remoteKey waitingHellos :: [.queued 1 [6, 1, 2]]

theorem never_told_after_silence :
    Abandoned remoteKey waitingHellos [.queued 1 [6, 1, 2]] ∧
      ¬ Told remoteKey waitingHellos [.queued 1 [6, 1, 2]] := by
  have hlog : (after (iteration idleWake dueState) silentSince).log =
      silentSince.log ++ silentTurn := by decide +kernel
  exact never_told (initial_boot longSilence) (fun _ => rfl) (run_actAll [shortHello 7] _)
    idleWake dueState hlog

/-- The other peer is removed after its silence, and gets nothing. -/
theorem not_told_after_silence :
    Run Move.Does (World.boot longSilence) (actHistory [shortHello 7] (World.boot longSilence))
        silentSince ∧
      (after (iteration idleWake dueState) silentSince).log = silentSince.log ++ silentTurn ∧
      ¬ (after (iteration idleWake dueState) silentSince).neighbors.owns remoteKey ∧
      sentTo (neighborToSockaddr6 remoteKey.toNeighbor) silentTurn = [] ∧
      ¬ Told remoteKey waitingHellos [.queued 1 [6, 1, 2]] := by
  refine ⟨run_actAll _ _, by decide +kernel, by decide +kernel, by decide +kernel, ?_⟩
  rintro ⟨text, hlen, htold⟩
  have hnone : sentTo (neighborToSockaddr6 remoteKey.toNeighbor) [.queued 1 [6, 1, 2]] = [] := rfl
  rw [hnone] at htold
  have hle := htold.length_le
  rw [List.length_append] at hle
  simp only [List.map_nil, List.flatten_nil, List.length_nil] at hle
  have hwaiting : waitingHellos.length = 36 := by decide +kernel
  omega

end FloodPeer
