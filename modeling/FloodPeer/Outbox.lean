/-
FloodPeer/Outbox.lean

What waits for a neighbour goes out.

A neighbour that is in `NEIGHBORS` at two times of a run has kept its message in
between.  So what waited for it at the first time, with what was queued behind it,
still waits at the second, or has been sent to it at the front of one datagram
(`forwarded_of_run`).  A Hello from a new address is answered in this way
(`greeted_of_run`).
-/
import FloodPeer.Actions
import FloodPeer.Batching
import FloodPeer.Flooding
import FloodPeer.Refinement

namespace FloodPeer

open Octets StateLogic SortedAssoc Runs

/-- What waits for the record `k`, or was sent to it when the log was longer than `l`,
begins with `p`. -/
def Forwarded (k : NeighborPtr) (p : List UInt8) (l : List Obs) (w : World) : Prop :=
  ∃ more, w.pending k.toNeighbor = p ++ more ∨ (p ++ more).length ≤ pmtu - 4 ∧
    .sendto (neighborToSockaddr6 k.toNeighbor) (datagram (p ++ more)) ∈ w.log.drop l.length

/-- As long as the record `k`, with the message at `a`, is there, `p` is on its way. -/
structure Promised (k : NeighborPtr) (a : Nat) (p : List UInt8) (l : List Obs) (w : World) :
    Prop where
  sound : w.Sound
  born : a < w.next
  log : l <+: w.log
  forwarded : w.neighbors.owns k → Forwarded k p l w

/-! ### Messages of others -/

section Others

variable {w : World} {a : Nat}

theorem msgs_gather {b : Nat} (m : MessageH) (actSize : Nat) (bytes : List UInt8) (hne : a ≠ b) :
    (after (gather b m actSize bytes) w).msgs a = w.msgs a := by
  unfold gather
  by_cases hbig : actSize + bytes.length > maxSize
  · simp only [if_pos hbig]
    exact if_neg hne
  · simp only [if_neg hbig]
    exact if_neg hne

/-- `send_message` touches no message but that of its addressee. -/
theorem msgs_sendMessage (buf : MessageH) (taille : Nat) {rcpt : Neighbor}
    (ha : rcpt.msg ≠ some a) : (after (sendMessage buf taille rcpt) w).msgs a = w.msgs a := by
  unfold sendMessage
  cases hmsg : rcpt.msg with
  | none => rfl
  | some b =>
    have hne : a ≠ b := fun heq => ha (heq ▸ hmsg)
    simp only [after_bind, value_get, after_get]
    cases w.msgs b with
    | none => rfl
    | some m =>
      have hquiet : Quiet w (after (do
          note (.queued b (Octets.read buf.body 0 (swap16 buf.bodyLength).toNat))
          makeRoom m (swap16 m.bodyLength).toNat (swap16 buf.bodyLength).toNat rcpt) w) :=
        Quiet.bind (quiet_note rfl) (fun _ => quiet_makeRoom _ _ _ _) w
      exact (msgs_gather _ _ _ hne).trans (congrFun hquiet.msgs a)

theorem msgs_flushNeighbor {key : Neighbor} (ha : key.msg ≠ some a) :
    (after (flushNeighbor key) w).msgs a = w.msgs a := by
  unfold flushNeighbor
  cases hmsg : key.msg with
  | none => rfl
  | some b =>
    have hne : a ≠ b := fun heq => ha (heq ▸ hmsg)
    simp only [after_bind, value_get, after_get]
    cases w.msgs b with
    | none => rfl
    | some m =>
      by_cases hlen : m.bodyLength ≠ 0
      · simp only [if_pos hlen]
        exact if_neg hne
      · simp only [if_neg hlen]
        rfl

end Others

/-! ### What each action does to the promise -/

section Promise

variable {k : NeighborPtr} {a : Nat} {p : List UInt8} {l : List Obs} {w w' : World}

theorem pending_congr (hk : k.msg = some a) (h : w'.msgs a = w.msgs a) :
    w'.pending k.toNeighbor = w.pending k.toNeighbor := by
  unfold World.pending
  rw [hk, Option.bind_some, Option.bind_some, h]

/-- What has been sent stays so. -/
theorem mem_drop_of_log {o : Obs} {l l₁ l₂ : List Obs} (h : l₁ <+: l₂)
    (ho : o ∈ l₁.drop l.length) : o ∈ l₂.drop l.length := by
  obtain ⟨ext, rfl⟩ := h
  exact (List.Sublist.drop (List.sublist_append_left l₁ ext) l.length).subset ho

/-- Something happens that leaves the message alone. -/
theorem Promised.aside (h : Promised k a p l w) (hk : k.msg = some a) (hsound : w'.Sound)
    (hpassed : Elapsed w w') (howns : w'.neighbors.owns k → w.neighbors.owns k)
    (hmsgs : w'.neighbors.owns k → w'.msgs a = w.msgs a) : Promised k a p l w' := by
  refine ⟨hsound, lt_of_lt_of_le h.born hpassed.next, h.log.trans hpassed.log, fun hown => ?_⟩
  obtain ⟨more, hmore⟩ := h.forwarded (howns hown)
  refine ⟨more, hmore.imp (fun hwaits => ?_) (And.imp_right (mem_drop_of_log hpassed.log))⟩
  rw [pending_congr hk (hmsgs hown)]
  exact hwaits

/-- Something is queued for the record, or it is flushed: what waited is in front of
what waits now, or it has gone out. -/
theorem Promised.next (h : Promised k a p l w) (hboxes : Boxes w w')
    (hroom : (w.pending k.toNeighbor).length ≤ pmtu - 4)
    (hnext : (∃ more, w'.pending k.toNeighbor = w.pending k.toNeighbor ++ more) ∨
      ∃ ext, w'.log = w.log ++ ext ∧ .sendto (neighborToSockaddr6 k.toNeighbor)
        (datagram (w.pending k.toNeighbor)) ∈ ext) : Promised k a p l w' := by
  refine ⟨h.sound.of_boxes hboxes, lt_of_lt_of_le h.born hboxes.next, h.log.trans hboxes.log,
    fun hown => ?_⟩
  obtain ⟨more, hwaits | hsent⟩ := h.forwarded (hboxes.neighbors ▸ hown)
  · rw [hwaits] at hroom hnext
    rcases hnext with ⟨more', hmore⟩ | ⟨ext, hlog, hext⟩
    · exact ⟨more ++ more', .inl (by rw [hmore, List.append_assoc])⟩
    · refine ⟨more, .inr ⟨hroom, ?_⟩⟩
      rw [hlog, List.drop_append_of_le_length h.log.length_le]
      exact List.mem_append_right _ hext
  · exact ⟨more, .inr (hsent.imp_right (mem_drop_of_log hboxes.log))⟩

/-- The message of a record that is there. -/
theorem World.Sound.message (hw : w.Sound) (hown : w.neighbors.owns k) (hk : k.msg = some a) :
    ∃ m, w.msgs a = some m ∧ m.Box ∧ w.pending k.toNeighbor = m.content ∧
      (w.pending k.toNeighbor).length ≤ pmtu - 4 := by
  obtain ⟨e, he, rfl⟩ := List.mem_map.mp hown
  obtain ⟨-, m, hm, hbox⟩ := hw.box e he a hk
  have hpending := pending_of_content hk hm
  exact ⟨m, hm, hbox, hpending, by rw [hpending, length_content]; exact hbox.room⟩

theorem Promised.sendMessage (h : Promised k a p l w) (hk : k.msg = some a) {buf : MessageH}
    (taille : Nat) (hbuf : buf.declared ≤ pmtu - 4) {rcpt : Neighbor} (hto : w.Addressable rcpt) :
    Promised k a p l (after (FloodPeer.sendMessage buf taille rcpt) w) := by
  have hp := pmtu_eq
  have hboxes := boxes_sendMessage hbuf taille rcpt w
  by_cases hmine : w.neighbors.owns k ∧ rcpt = k.toNeighbor
  · obtain ⟨hown, rfl⟩ := hmine
    obtain ⟨m, hm, hbox, hpending, hroom⟩ := h.sound.message hown hk
    refine h.next hboxes hroom ?_
    rw [hpending]
    by_cases hfull : m.declared + buf.declared > pmtu - 4
    · right
      rw [sendMessage_flush hk hm hfull hbuf]
      refine ⟨_, rfl, ?_⟩
      rw [bytes_eq_datagram hbox.magic hbox.version]
      simp
    · left
      refine ⟨buf.content, ?_⟩
      rw [sendMessage_append hk hm (Nat.not_lt.mp hfull), pending_of_content hk (if_pos rfl),
        content_put_append m (by rw [length_content]; omega)]
  · refine h.aside hk (h.sound.of_boxes hboxes) hboxes.toElapsed
      (fun hown => hboxes.neighbors ▸ hown) fun hown => msgs_sendMessage buf taille ?_
    rcases hto with hnone | ⟨e, he, rfl⟩
    · simp [hnone]
    · rw [hboxes.neighbors] at hown
      have hne : e.1 ≠ k := fun heq => hmine ⟨hown, by rw [heq]⟩
      exact fun hmsg => (h.sound.apart_of_ne (List.mem_map_of_mem he) hown hne).2 a hmsg hk

theorem Promised.flushNeighbor (h : Promised k a p l w) (hk : k.msg = some a)
    {e : NeighborPtr × Ident} (he : e ∈ w.neighbors.inorder) :
    Promised k a p l (after (FloodPeer.flushNeighbor e.1.toNeighbor) w) := by
  have hboxes := boxes_flushNeighbor e.1.toNeighbor w
  by_cases hmine : e.1 = k
  · obtain rfl := hmine
    obtain ⟨m, hm, hbox, hpending, hroom⟩ := h.sound.message (List.mem_map_of_mem he) hk
    by_cases hempty : m.declared = 0
    · rw [flushNeighbor_empty hk hm hempty]
      exact h
    · refine h.next hboxes hroom (.inr ?_)
      rw [flushNeighbor_some hk hm hempty, hpending]
      refine ⟨_, rfl, ?_⟩
      rw [bytes_eq_datagram hbox.magic hbox.version]
      simp
  · refine h.aside hk (h.sound.of_boxes hboxes) hboxes.toElapsed
      (fun hown => hboxes.neighbors ▸ hown) fun hown => msgs_flushNeighbor ?_
    rw [hboxes.neighbors] at hown
    exact fun hmsg => (h.sound.apart_of_ne (List.mem_map_of_mem he) hown hmine).2 a hmsg hk

/-- A record that goes takes no other message with it. -/
theorem Promised.removeNeighbor (h : Promised k a p l w) (hk : k.msg = some a) (key : Neighbor) :
    Promised k a p l (after (FloodPeer.removeNeighbor key) w) := by
  have hlater := registrar_later.keeps_removeNeighbor key w
  have howns := owns_removeNeighbor h.sound key k
  refine h.aside hk (settles_removeNeighbor key w h.sound).1 hlater.elapsed
    (fun hown => (howns.mp hown).1) fun hown => ?_
  obtain ⟨hold, hne⟩ := howns.mp hown
  obtain ⟨e, he, rfl⟩ := List.mem_map.mp hold
  exact msgs_removeNeighbor h.sound key he hne hk

theorem Promised.removePotential (h : Promised k a p l w) (hk : k.msg = some a) (key : Neighbor) :
    Promised k a p l (after (FloodPeer.removePotential key) w) := by
  obtain ⟨t, -, -, hafter⟩ := after_removePotential h.sound.potential h.sound.direct key
  have hsettles := settles_removePotential key w h.sound
  have hlater := registrar_later.keeps_removePotential key w
  rw [hafter] at hsettles hlater ⊢
  exact h.aside hk hsettles.1 hlater.elapsed id fun _ => rfl

theorem Promised.addPotential (h : Promised k a p l w) (hk : k.msg = some a) {key : Neighbor}
    (hkey : getIdent key w.neighbors = none) (val : Ident) :
    Promised k a p l (after (FloodPeer.addPotential key val) w) := by
  have hadd := potentialAdded h.sound.potential key val
  exact h.aside hk (settles_addPotential hkey val h.sound).1 hadd.toLater.elapsed
    (fun hown => hadd.neighbors ▸ hown) fun _ => congrFun hadd.msgs a

theorem Promised.quiet (h : Promised k a p l w) (hk : k.msg = some a) (hquiet : Quiet w w') :
    Promised k a p l w' :=
  h.aside hk (h.sound.of_boxes hquiet.idle.boxes) hquiet.toLater.elapsed
    (fun hown => hquiet.neighbors ▸ hown) fun _ => congrFun hquiet.msgs a

/-- The promise to `k` is kept. -/
def Honours (k : NeighborPtr) (a : Nat) (p : List UInt8) (l : List Obs) (w w' : World) : Prop :=
  Promised k a p l w → Promised k a p l w'

/-- Variables of the peer are written, and nothing else. -/
theorem Promised.set (h : Promised k a p l w) (hk : k.msg = some a)
    (hpassed : Elapsed w w') (hp : w'.potential = w.potential) (hn : w'.neighbors = w.neighbors)
    (hm : w'.msgs = w.msgs) : Promised k a p l w' :=
  h.aside hk (h.sound.of_boxes (.of_same hpassed hp hn hm)) hpassed (fun hown => hn ▸ hown)
    fun _ => congrFun hm a

theorem acts_honours (hk : k.msg = some a) : Acts (Honours k a p l) where
  refl := fun _ h => h
  trans := fun h₁ h₂ h => h₂ (h₁ h)
  onMalloc := fun w h => h.quiet hk (quiet_malloc w)
  onGetSeconds := fun w h => h.quiet hk (quiet_getSeconds w)
  onRand := fun w h => h.quiet hk (quiet_rand w)
  onUninit := fun w h => h.quiet hk (quiet_uninit w)
  onFault := fun w h => h.set hk (elapsed_note _ w) rfl rfl rfl
  onSetSyms := fun _ _ w h => h.set hk { Elapsed.refl w with id := rfl } rfl rfl rfl
  onRemark := fun _ w h => h.set hk (elapsed_note _ w) rfl rfl rfl
  onSet := fun w _ _ _ h => h.set hk { Elapsed.refl w with id := rfl } rfl rfl rfl
  onSend := fun taille hbuf hto h => h.sendMessage hk taille hbuf hto
  onFlush := fun he h => h.flushNeighbor hk he
  onRemoveNeighbor := fun key _ h => h.removeNeighbor hk key
  onRemovePotential := fun key _ h => h.removePotential hk key
  onAddPotential := fun val hkey h => h.addPotential hk hkey val

/-- A new record has a new message, so it is another one. -/
theorem honours_acceptHello (hk : k.msg = some a) (val : Ident) (peer : Neighbor) :
    Keeps (Honours k a p l) (acceptHello val peer) := by
  intro w h
  have hadd := neighborAdded h.sound.neighbors peer val
  obtain ⟨msg, htree, -, hfresh⟩ := hadd.tree
  obtain ⟨t, hsound, hcases⟩ := acceptHello_cases h.sound val peer
  have hpassed := hadd.toLater.elapsed
  have hpotential : Elapsed w { after (addNeighbor peer val) w with potential := t } :=
    { hpassed with id := hpassed.id }
  have hrecord : Promised k a p l { after (addNeighbor peer val) w with potential := t } := by
    refine h.aside hk hsound hpotential (fun hown => ?_) fun _ => hadd.msgs a h.born
    obtain ⟨e, he, rfl⟩ := List.mem_map.mp hown
    rcases htree.origin h.sound.neighbors he with ⟨e₀, he₀, hkey⟩ | ⟨-, b, -, rfl⟩
    · exact List.mem_map.mpr ⟨e₀, he₀, hkey⟩
    · exact absurd (hfresh a hk).1 (not_le.mpr h.born)
  rcases hcases with hafter | hafter
  · rw [hafter]
    exact hrecord
  · rw [hafter]
    exact (acts_honours hk).sendHelloEveryone _ (fun e he => .inr ⟨e, he, rfl⟩) hrecord

theorem Move.Does.honours {m : Move} (h : m.Does w w') (hw : w.Sound) (hk : k.msg = some a) :
    Honours k a p l w w' := by
  refine (acts_honours hk).does h hw (honours_acceptHello hk) ?_
  rintro rfl hpromised
  have hidle : Idle w w' := h
  exact hpromised.set hk hidle.toElapsed hidle.potential hidle.neighbors hidle.msgs

/-- The promise is kept through a run. -/
theorem Promised.of_run {tr : List (World × Move)} (h : Promised k a p l w) (hk : k.msg = some a)
    (hrun : Run Move.Does w tr w') : Promised k a p l w' :=
  hrun.invariant h fun _ _ _ hv hmove => hmove.honours hv.sound hk hv

end Promise

/-! ### Runs -/

/-- The flush leaves nothing waiting. -/
theorem pending_sendToEveryoneNow {w : World} (hw : w.Sound) {k : NeighborPtr}
    (hown : w.neighbors.owns k) :
    (after (sendToEveryoneNow w.neighbors) w).pending k.toNeighbor = [] := by
  cases hk : k.msg with
  | none =>
    unfold World.pending
    rw [hk]
    rfl
  | some a =>
    obtain ⟨m, hm, -⟩ := hw.message hown hk
    have hstart : Holds k a w w ⟨[], [m.content]⟩ :=
      ⟨hw, hown, rfl, ⟨m, hm, by simp⟩, [], by simp, rfl⟩
    obtain ⟨m', hm', hcontent⟩ := (hstart.sendToEveryoneNow hk).pending
    rw [pending_of_content hk hm', hcontent, ← List.length_eq_zero_iff, ← Batcher.total_length]
    exact Batcher.total_pending_flush _ _

/-- **What waits is not lost.**  Between two times of a run at which a record is there,
what waited for it still waits, or has gone out in one piece. -/
theorem forwarded_of_run {w₀ u w : World} {past tr : List (World × Move)} (hinit : w₀.Initial)
    (hpast : Run Move.Does w₀ past u) (hrun : Run Move.Does u tr w) {k : NeighborPtr}
    (hu : u.neighbors.owns k) (hw : w.neighbors.owns k) :
    ∃ more, w.pending k.toNeighbor = u.pending k.toNeighbor ++ more ∨
      (u.pending k.toNeighbor ++ more).length ≤ pmtu - 4 ∧
        .sendto (neighborToSockaddr6 k.toNeighbor)
          (datagram (u.pending k.toNeighbor ++ more)) ∈ u.since w := by
  have hsound := sound_of_run hpast (sound_of_initial hinit)
  cases hk : k.msg with
  | none =>
    refine ⟨[], .inl ?_⟩
    unfold World.pending
    rw [hk]
    rfl
  | some a =>
    obtain ⟨e, he, rfl⟩ := List.mem_map.mp hu
    have hstart : Promised e.1 a (u.pending e.1.toNeighbor) u.log u :=
      ⟨hsound, (hsound.box e he a hk).1, List.prefix_refl _, fun _ => ⟨[], .inl (by simp)⟩⟩
    exact (hstart.of_run hk hrun).forwarded hw

/-- What waits for the other peer, when another Hello is queued and the flush comes. -/
theorem forwarded_metRemote :
    let w := actAll [.hellos, .flush] metRemote
    (metRemote.pending remoteKey.toNeighbor = (Tlv.longHello 1 7).bytes ∧
        w.pending remoteKey.toNeighbor = []) ∧
      ∃ more, w.pending remoteKey.toNeighbor = metRemote.pending remoteKey.toNeighbor ++ more ∨
        (metRemote.pending remoteKey.toNeighbor ++ more).length ≤ pmtu - 4 ∧
          .sendto (neighborToSockaddr6 remoteKey.toNeighbor)
            (datagram (metRemote.pending remoteKey.toNeighbor ++ more)) ∈ metRemote.since w := by
  intro w
  refine ⟨by decide +kernel, ?_⟩
  exact forwarded_of_run (initial_boot _) (run_actAll [shortHello 7] (bootAt 0))
    (run_actAll [.hellos, .flush] metRemote) (by decide +kernel) (by decide +kernel)

/-! ### The answer to a Hello -/

/-- Sending puts no records in order. -/
theorem Boxes.sound_of_after {u w : World} (h : Boxes u w) (hw : w.Sound)
    (hbox : ∀ e ∈ u.neighbors.inorder, ∀ a, e.1.msg = some a →
      a < u.next ∧ ∃ m, u.msgs a = some m ∧ m.Box) : u.Sound := by
  obtain ⟨hneighbors, hpotential, -, hown, hdirect, hapart⟩ := hw
  rw [h.neighbors] at hneighbors hown hapart
  rw [h.potential] at hpotential hdirect hapart
  exact ⟨hneighbors, hpotential, hbox, hown, hdirect, hapart⟩

/-- A new neighbour is greeted: a long Hello waits for it, and nothing else. -/
theorem greeted_acceptHello {w : World} (hw : w.Sound) (halloc : w.Allocates) {peer : Neighbor}
    (hnew : getIdent peer w.neighbors = none) (val : Ident) :
    ∃ (k : NeighborPtr) (a : Nat), k.msg = some a ∧ k.toNeighbor.place = peer.place ∧
      (after (acceptHello val peer) w).neighbors.owns k ∧
      (after (acceptHello val peer) w).pending k.toNeighbor =
        (Tlv.longHello w.id val.id).bytes := by
  have hadd := neighborAdded hw.neighbors peer val
  have hrc := addNeighbor_rc hw.neighbors halloc peer val
  have hfinal := (sound_acceptHello hw val peer).1
  obtain ⟨t₀, hsound, -⟩ := acceptHello_cases hw val peer
  obtain ⟨msg, htree, hmsg, hfresh⟩ := hadd.tree
  have hid := hadd.toLater.elapsed.id
  unfold acceptHello at hfinal ⊢
  simp only [after_bind] at hfinal ⊢
  generalize value (addNeighbor peer val) w = rc at hadd htree hfresh hrc hfinal ⊢
  generalize after (addNeighbor peer val) w = v at hadd htree hfresh hsound hid hfinal ⊢
  have hone : rc = 1 ∧ ∃ k : NeighborPtr, (k, val) ∈ v.neighbors.inorder ∧
      k.toNeighbor.place = peer.place ∧ k.msg = msg := by
    rw [getIdent_eq_none_iff hw.neighbors] at hnew
    generalize v.neighbors = t at htree
    cases htree with
    | failed => exact absurd rfl hrc
    | added b _ _ habsent hinorder =>
      refine ⟨rfl, { ({ peer with msg := msg } : Neighbor) with addr := b }, ?_, rfl, rfl⟩
      rw [hinorder]
      exact (mem_upsert_iff entryPlace hw.neighbors).mpr (.inr (.inr ⟨habsent, rfl⟩))
    | updated e he hplace => exact absurd hplace (hnew e he)
  obtain ⟨rfl, k, hmem, hplace, hkmsg⟩ := hone
  obtain ⟨a, ha⟩ := Option.ne_none_iff_exists'.mp (hmsg halloc)
  obtain ⟨m, hm, -, hempty⟩ := (hfresh a ha).2.2 rfl
  have hpotential : v.potential.Sorted := hadd.potential ▸ hw.potential
  have hdirect : ∀ e ∈ v.potential.inorder, e.1.msg = none := hadd.potential ▸ hw.direct
  obtain ⟨t, -, -, hafter⟩ := after_removePotential hpotential hdirect peer
  rw [if_pos rfl] at hfinal ⊢
  simp only [after_bind, value_get, after_get, after_pure] at hfinal ⊢
  rw [hafter] at hfinal ⊢
  have hboxes := boxes_sendHelloEveryone v.neighbors { v with potential := t }
  have hbefore : { v with potential := t : World }.Sound :=
    hboxes.sound_of_after hfinal hsound.box
  have hcontent : m.content = [] := List.eq_nil_of_length_eq_zero ((length_content m).trans hempty)
  have hstart : Holds k a { v with potential := t } { v with potential := t } ⟨[], []⟩ :=
    ⟨hbefore, List.mem_map_of_mem hmem, rfl, ⟨m, hm, hcontent⟩, [], by simp, rfl⟩
  have hend := hstart.sendHelloEveryone (hkmsg.trans ha) hmem
  obtain ⟨m', hm', hcontent⟩ := hend.pending
  refine ⟨k, a, hkmsg.trans ha, hplace, hend.owns, ?_⟩
  rw [pending_of_content (hkmsg.trans ha) hm', hcontent, ← hid]
  rfl

/-- The record that a Hello from a new address makes, and what is promised to it. -/
theorem promised_hello {w : World} (hw : w.Sound) (halloc : w.Allocates) {buf : Mem}
    {length : UInt8} {client : Sockaddr} {h : Heard}
    (hheard : heardBy w (.tlv 2 buf length client) = some h)
    (hnew : getIdent (sockaddr6ToNeighbor client) w.neighbors = none) :
    let v := (Move.tlv 2 buf length client).act w
    ∃ (k : NeighborPtr) (a : Nat), k.msg = some a ∧ neighborToSockaddr6 k.toNeighbor = client ∧
      v.neighbors.owns k ∧ Promised k a (Tlv.longHello w.id h.id).bytes w.log v := by
  intro v
  have hmove : (Move.tlv 2 buf length client).Does w v := Move.does_act _ w
  have hread := prints_readHello length w
  have hafter := after_hello buf length (sockaddr6ToNeighbor client) w
  rw [helloIdent_eq, hheard] at hafter
  rw [← hread.neighbors] at hnew
  obtain ⟨k, a, hk, hplace, hown, hpending⟩ :=
    greeted_acceptHello (hw.of_boxes hread.idle.boxes) (hread.toHandled.elapsed.allocates halloc)
      hnew h.ident
  have hv : v = after (acceptHello h.ident (sockaddr6ToNeighbor client))
    (after (readHello length) w) := hafter
  rw [← hv] at hown hpending
  rw [hread.toHandled.elapsed.id] at hpending
  obtain ⟨e, he, hkey⟩ := List.mem_map.mp hown
  refine ⟨k, a, hk, ?_, hown, hmove.sound hw, ?_, hmove.elapsed.log, fun _ => ⟨[], .inl ?_⟩⟩
  · rw [← neighborToSockaddr6_sockaddr6ToNeighbor client]
    exact neighborToSockaddr6_eq_iff.mpr hplace
  · exact ((hmove.sound hw).box e he a (hkey ▸ hk)).1
  · rw [hpending, List.append_nil]
    rfl

/-- The next flush sends what has been promised. -/
theorem Promised.sent_of_flush {k : NeighborPtr} {a : Nat} {p : List UInt8} {l : List Obs}
    {w : World} (h : Promised k a p l w) (hk : k.msg = some a) (hp : p ≠ [])
    (hown : w.neighbors.owns k) :
    ∃ more, (p ++ more).length ≤ pmtu - 4 ∧
      .sendto (neighborToSockaddr6 k.toNeighbor) (datagram (p ++ more)) ∈
        (after (sendToEveryoneNow w.neighbors) w).log.drop l.length := by
  have hflushed := (acts_honours hk).sendToEveryoneNow w.neighbors (fun _ he => he) h
  have hsame := (boxes_sendToEveryoneNow w.neighbors w).neighbors
  obtain ⟨more, hwaits | hsent⟩ := hflushed.forwarded (by rw [hsame]; exact hown)
  · rw [pending_sendToEveryoneNow h.sound hown, eq_comm, List.append_eq_nil_iff] at hwaits
    exact absurd hwaits.1 hp
  · exact ⟨more, hsent⟩

/-- **A Hello is answered.**  With memory to spare, a Hello from a new address makes a
record, and whenever later in the run that record is still there, the flush has sent a
datagram to it that begins with a long Hello to its sender. -/
theorem greeted_of_run {w₀ u : World} {past : List (World × Move)} (hinit : w₀.Initial)
    (halloc : w₀.Allocates) (hpast : Run Move.Does w₀ past u) {buf : Mem} {length : UInt8}
    {client : Sockaddr} {h : Heard} (hheard : heardBy u (.tlv 2 buf length client) = some h)
    (hnew : getIdent (sockaddr6ToNeighbor client) u.neighbors = none) :
    let v := (Move.tlv 2 buf length client).act u
    ∃ k, v.neighbors.owns k ∧ neighborToSockaddr6 k.toNeighbor = client ∧
      ∀ later w, Run Move.Does v later w → w.neighbors.owns k →
        ∃ more, ((Tlv.longHello u.id h.id).bytes ++ more).length ≤ pmtu - 4 ∧
          .sendto client (datagram ((Tlv.longHello u.id h.id).bytes ++ more)) ∈
            u.since (after (sendToEveryoneNow w.neighbors) w) := by
  intro v
  have hu := sound_of_run hpast (sound_of_initial hinit)
  obtain ⟨k, a, hk, haddr, hown, hstart⟩ :=
    promised_hello hu ((elapsed_of_run hpast).allocates halloc) hheard hnew
  refine ⟨k, hown, haddr, fun later w hrun hstill => ?_⟩
  rw [← haddr]
  exact (hstart.of_run hk hrun).sent_of_flush hk (by simp [Tlv.bytes]) hstill

/-- The first Hello of the other peer. -/
theorem greeted_remote :
    let v := (shortHello 7).act (bootAt 0)
    ∃ k, v.neighbors.owns k ∧ neighborToSockaddr6 k.toNeighbor = remote ∧
      ∀ later w, Run Move.Does v later w → w.neighbors.owns k →
        ∃ more, ((Tlv.longHello 1 7).bytes ++ more).length ≤ pmtu - 4 ∧
          .sendto remote (datagram ((Tlv.longHello 1 7).bytes ++ more)) ∈
            (bootAt 0).since (after (sendToEveryoneNow w.neighbors) w) := by
  have hheard := (heardBy_tlv (bootAt 0) 2 (helloValue 7 0) 8 remote).trans
    (if_pos ⟨rfl, fun h16 => absurd h16 (by decide)⟩)
  have hid : u64At (helloValue 7 0) 0 = 7 := by decide +kernel
  have hanswer := greeted_of_run (initial_boot _) (fun _ => rfl) .nil hheard rfl
  dsimp only at hanswer ⊢
  rw [hid] at hanswer
  exact hanswer

end FloodPeer
