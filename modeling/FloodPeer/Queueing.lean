/-
FloodPeer/Queueing.lean

Bodies that are handed over for several neighbours.

`Takes k bodies w w'`: from `w` to `w'` the neighbour `k` has been given these
bodies, one after another.  Without a message of its own each of them has gone
to its address in a datagram; otherwise what has gone there, and what waits now,
are the batches into which they fall behind what was waiting.  `Broadcast` says
this of several neighbours and that nobody else has been given anything.  Both
compose.
-/
import FloodPeer.Relay

namespace FloodPeer

open Octets StateLogic

variable {k k' key : NeighborPtr} {keys keys' : List NeighborPtr} {x : List UInt8}
  {bodies bodies' : List (List UInt8)} {u v w w' : World}

/-! ### One neighbour -/

/-- The batches into which `bodies` fall when `waiting` is in front of them. -/
def batched (waiting : List UInt8) (bodies : List (List UInt8)) : Batcher.State (List UInt8) :=
  Batcher.pushAll List.length (pmtu - 4) { closed := [], pending := [waiting] } bodies

/-- The neighbour `k` is given these bodies, in this order, and nothing else. -/
def Takes (k : NeighborPtr) (bodies : List (List UInt8)) (w w' : World) : Prop :=
  match k.msg with
  | none => sentTo (neighborToSockaddr6 k.toNeighbor) (w.since w') = bodies.map datagram
  | some _ =>
    sentTo (neighborToSockaddr6 k.toNeighbor) (w.since w') =
      (batched (w.pending k.toNeighbor) bodies).closed.map (fun l => datagram l.flatten) ∧
    w'.pending k.toNeighbor = (batched (w.pending k.toNeighbor) bodies).pending.flatten

theorem takes_iff_of_none (hmsg : k.msg = none) : Takes k bodies w w' ↔
    sentTo (neighborToSockaddr6 k.toNeighbor) (w.since w') = bodies.map datagram := by
  unfold Takes
  rw [hmsg]

theorem takes_iff_of_some {a : Nat} (hmsg : k.msg = some a) : Takes k bodies w w' ↔
    sentTo (neighborToSockaddr6 k.toNeighbor) (w.since w') =
      (batched (w.pending k.toNeighbor) bodies).closed.map (fun l => datagram l.flatten) ∧
    w'.pending k.toNeighbor = (batched (w.pending k.toNeighbor) bodies).pending.flatten := by
  unfold Takes
  rw [hmsg]

instance (k : NeighborPtr) (bodies : List (List UInt8)) (w w' : World) :
    Decidable (Takes k bodies w w') :=
  match h : k.msg with
  | none => decidable_of_iff _ (takes_iff_of_none h).symm
  | some _ => decidable_of_iff (_ ∧ _) (takes_iff_of_some h).symm

/-- Every body that is handed over for a neighbour with a message arrives there
whole: it is in one of the datagrams, or it waits. -/
theorem Takes.whole {a : Nat} (h : Takes k bodies w w') (hmsg : k.msg = some a) :
    ∃ (batches : List (List (List UInt8))) (waiting : List (List UInt8)),
      sentTo (neighborToSockaddr6 k.toNeighbor) (w.since w') =
        batches.map (fun l => datagram l.flatten) ∧
      w'.pending k.toNeighbor = waiting.flatten ∧
      batches.flatten ++ waiting = w.pending k.toNeighbor :: bodies := by
  rw [takes_iff_of_some hmsg] at h
  exact ⟨_, _, h.1, h.2, Batcher.items_pushAll _ _⟩

theorem takes_nil_iff : Takes k [] w w' ↔
    sentTo (neighborToSockaddr6 k.toNeighbor) (w.since w') = [] ∧
      ∀ a, k.msg = some a → w'.pending k.toNeighbor = w.pending k.toNeighbor := by
  cases hmsg : k.msg with
  | none =>
    rw [takes_iff_of_none hmsg]
    exact ⟨fun h => ⟨h, nofun⟩, fun h => h.1⟩
  | some a =>
    rw [takes_iff_of_some hmsg]
    have hwaits : (batched (w.pending k.toNeighbor) []).pending.flatten =
        w.pending k.toNeighbor := List.flatten_singleton
    rw [hwaits]
    exact ⟨fun h => ⟨h.1, fun _ _ => h.2⟩, fun h => ⟨h.1, h.2 a rfl⟩⟩

theorem pending_eq_of_msgs (h : ∀ a, k.msg = some a → w'.msgs a = w.msgs a) :
    w'.pending k.toNeighbor = w.pending k.toNeighbor := by
  unfold World.pending
  cases hmsg : k.msg with
  | none => rfl
  | some a => rw [Option.bind_some, Option.bind_some, h a hmsg]

theorem since_trans (huv : u.log <+: v.log) (hvw : v.log <+: w.log) :
    u.since w = u.since v ++ v.since w := by
  refine since_eq ?_
  rw [log_eq_since hvw, log_eq_since huv, List.append_assoc]

/-- First some bodies, then some more. -/
theorem Takes.trans (h₁ : Takes k bodies u v) (h₂ : Takes k bodies' v w) (huv : u.log <+: v.log)
    (hvw : v.log <+: w.log) : Takes k (bodies ++ bodies') u w := by
  have hsince := since_trans huv hvw
  cases hmsg : k.msg with
  | none =>
    rw [takes_iff_of_none hmsg] at h₁ h₂ ⊢
    rw [hsince, sentTo_append, h₁, h₂, List.map_append]
  | some a =>
    rw [takes_iff_of_some hmsg] at h₁ h₂ ⊢
    obtain ⟨hsent₁, hwaits₁⟩ := h₁
    obtain ⟨hsent₂, hwaits₂⟩ := h₂
    have hmap : ∀ b : Batcher.State (List UInt8), b.closed.map (fun l => datagram l.flatten) =
        (b.closed.map List.flatten).map datagram := by
      intro b
      rw [List.map_map]
      rfl
    -- what waits in between counts as one body
    have hjoined := @Batcher.joined_pushAll (pmtu - 4) _ (batched (u.pending k.toNeighbor) bodies)
      { closed := [], pending := [v.pending k.toNeighbor] }
      (by rw [hwaits₁, List.flatten_singleton]) bodies'
    have hall : batched (u.pending k.toNeighbor) (bodies ++ bodies') =
        Batcher.pushAll List.length (pmtu - 4) (batched (u.pending k.toNeighbor) bodies) bodies' :=
      Batcher.pushAll_append ..
    obtain ⟨more, hmore, hmore'⟩ := hjoined.closed
    rw [List.map_nil, List.nil_append] at hmore'
    constructor
    · rw [hsince, sentTo_append, hsent₁, hsent₂, hall, hmap, hmap, hmap, hmore, List.map_append,
        ← hmore']
      rfl
    · rw [hwaits₂, hall]
      exact hjoined.pending.symm

/-- One body is relayed. -/
theorem Takes.relays (h : Takes k [x] w w') : Relays k x w w' := by
  cases hmsg : k.msg with
  | none =>
    rw [takes_iff_of_none hmsg] at h
    rw [relays_iff_of_none hmsg]
    exact h
  | some a =>
    rw [takes_iff_of_some hmsg] at h
    rw [relays_iff_of_some hmsg]
    unfold batched at h
    rw [Batcher.pushAll_cons, Batcher.pushAll_nil] at h
    unfold Batcher.push at h
    split at h
    · right
      simpa [and_comm] using h
    · left
      simpa [and_comm] using h

/-! ### Several neighbours -/

/-- Neither the address nor the message of one is that of the other. -/
structure Distinct (k k' : NeighborPtr) : Prop where
  server : neighborToSockaddr6 k.toNeighbor ≠ neighborToSockaddr6 k'.toNeighbor
  msg : ∀ a, k.msg = some a → k'.msg ≠ some a

theorem Distinct.symm (h : Distinct k k') : Distinct k' k :=
  ⟨h.server.symm, fun a ha ha' => h.msg a ha' ha⟩

/-- The neighbours `keys` can be written to: they are different, and their messages
are allocated and well formed. -/
structure World.Writable (w : World) (keys : List NeighborPtr) : Prop where
  distinct : keys.Pairwise Distinct
  box : ∀ k ∈ keys, ∀ a, k.msg = some a → ∃ m, w.msgs a = some m ∧ m.Box

theorem World.Writable.of_boxes (h : w.Writable keys) (hw : Boxes w w') : w'.Writable keys where
  distinct := h.distinct
  box := by
    intro k hk a ha
    obtain ⟨m, hm, hbox⟩ := h.box k hk a ha
    obtain ⟨m', hm', hbox'⟩ := hw.box a m hm
    exact ⟨m', hm', hbox' hbox⟩

theorem World.Writable.sublist (h : w.Writable keys) (hsub : keys'.Sublist keys) :
    w.Writable keys' where
  distinct := h.distinct.sublist hsub
  box := fun k hk => h.box k (hsub.subset hk)

theorem World.Writable.perm (h : w.Writable keys) (hperm : keys'.Perm keys) :
    w.Writable keys' where
  distinct := (hperm.pairwise_iff fun h => h.symm).mpr h.distinct
  box := fun k hk => h.box k (hperm.subset hk)

/-- The records of a peer can be written to. -/
theorem World.Sound.writable (h : w.Sound) (hown : ∀ k ∈ keys, w.neighbors.owns k)
    (hnodup : keys.Nodup) : w.Writable keys where
  distinct := by
    refine hnodup.imp_of_mem ?_
    intro k k' hk hk' hne
    obtain ⟨hserver, hmsg⟩ := h.apart_of_ne (hown k hk) (hown k' hk') hne
    exact ⟨hserver, hmsg⟩
  box := by
    intro k hk a ha
    obtain ⟨e, he, rfl⟩ := List.mem_map.mp (hown k hk)
    exact (h.box e he a ha).2

/-- Each of the neighbours `keys` is given these bodies, and nobody else is given
anything.  Nothing goes wrong. -/
structure Broadcast (keys : List NeighborPtr) (bodies : List (List UInt8)) (w w' : World) :
    Prop where
  log : ∃ ext, w'.log = w.log ++ ext ∧ Obs.stuck ∉ ext ∧ Obs.fault ∉ ext
  takes : ∀ k ∈ keys, Takes k bodies w w'
  silent : ∀ server, (∀ k ∈ keys, neighborToSockaddr6 k.toNeighbor ≠ server) →
    sentTo server (w.since w') = []
  kept : ∀ a, (∀ k ∈ keys, k.msg ≠ some a) → w'.msgs a = w.msgs a

theorem Broadcast.grows (h : Broadcast keys bodies w w') : w.log <+: w'.log := by
  obtain ⟨ext, hext, -⟩ := h.log
  exact ⟨ext, hext.symm⟩

/-- Another neighbour is given nothing. -/
theorem Broadcast.other (h : Broadcast keys bodies w w') (hk : ∀ k' ∈ keys, Distinct k' k) :
    Takes k [] w w' := by
  refine takes_nil_iff.mpr ⟨h.silent _ fun k' hk' => (hk k' hk').server, fun a ha => ?_⟩
  refine pending_eq_of_msgs fun b hb => h.kept b fun k' hk' hb' => ?_
  exact (hk k' hk').msg b hb' hb

/-- Nobody is given anything. -/
theorem broadcast_of_same (hlog : w'.log = w.log) (hmsgs : w'.msgs = w.msgs)
    (h : keys = [] ∨ bodies = []) : Broadcast keys bodies w w' := by
  have hsince : w.since w' = [] := since_eq (hlog.trans (List.append_nil _).symm)
  refine ⟨⟨[], hlog.trans (List.append_nil _).symm, nofun, nofun⟩, fun k hk => ?_, fun _ _ => ?_,
    fun a _ => congrFun hmsgs a⟩
  · rcases h with rfl | rfl
    · cases hk
    · rw [takes_nil_iff, hsince]
      exact ⟨rfl, fun a ha => pending_eq_of_msgs fun b _ => congrFun hmsgs b⟩
  · rw [hsince]
    rfl

/-- First some bodies, then some more. -/
theorem Broadcast.trans (h₁ : Broadcast keys bodies u v) (h₂ : Broadcast keys bodies' v w) :
    Broadcast keys (bodies ++ bodies') u w := by
  obtain ⟨ext, hext, hclean⟩ := h₁.log
  obtain ⟨ext', hext', hclean'⟩ := h₂.log
  refine ⟨⟨ext ++ ext', ?_, ?_, ?_⟩, fun k hk => ?_, fun server hserver => ?_, fun a ha => ?_⟩
  · rw [hext', hext, List.append_assoc]
  · exact fun h => (List.mem_append.mp h).elim hclean.1 hclean'.1
  · exact fun h => (List.mem_append.mp h).elim hclean.2 hclean'.2
  · exact (h₁.takes k hk).trans (h₂.takes k hk) h₁.grows h₂.grows
  · rw [since_trans h₁.grows h₂.grows, sentTo_append, h₁.silent server hserver,
      h₂.silent server hserver]
    rfl
  · exact (h₂.kept a ha).trans (h₁.kept a ha)

/-- First some neighbours, then others. -/
theorem Broadcast.append (h₁ : Broadcast keys bodies u v) (h₂ : Broadcast keys' bodies v w)
    (hdistinct : (keys ++ keys').Pairwise Distinct) :
    Broadcast (keys ++ keys') bodies u w := by
  obtain ⟨ext, hext, hclean⟩ := h₁.log
  obtain ⟨ext', hext', hclean'⟩ := h₂.log
  have hapart := (List.pairwise_append.mp hdistinct).2.2
  refine ⟨⟨ext ++ ext', ?_, ?_, ?_⟩, fun k hk => ?_, fun server hserver => ?_, fun a ha => ?_⟩
  · rw [hext', hext, List.append_assoc]
  · exact fun h => (List.mem_append.mp h).elim hclean.1 hclean'.1
  · exact fun h => (List.mem_append.mp h).elim hclean.2 hclean'.2
  · rcases List.mem_append.mp hk with hk | hk
    · -- it has its turn first, and is left alone then
      have hthen := h₂.other fun k' hk' => (hapart k hk k' hk').symm
      have hboth := (h₁.takes k hk).trans hthen h₁.grows h₂.grows
      rwa [List.append_nil] at hboth
    · have hfirst := h₁.other fun k' hk' => hapart k' hk' k hk
      exact hfirst.trans (h₂.takes k hk) h₁.grows h₂.grows
  · rw [since_trans h₁.grows h₂.grows, sentTo_append,
      h₁.silent server fun k hk => hserver k (List.mem_append_left _ hk),
      h₂.silent server fun k hk => hserver k (List.mem_append_right _ hk)]
    rfl
  · exact (h₂.kept a fun k hk => ha k (List.mem_append_right _ hk)).trans
      (h₁.kept a fun k hk => ha k (List.mem_append_left _ hk))

/-- What leaves the messages and the log alone may come in between. -/
theorem Broadcast.of_same (h : Broadcast keys bodies u v) (hlog : w.log = v.log)
    (hmsgs : w.msgs = v.msgs) : Broadcast keys bodies u w := by
  have hboth := h.trans (@broadcast_of_same keys [] v w hlog hmsgs (.inr rfl))
  rwa [List.append_nil] at hboth

/-! ### `send_message` -/

/-- One neighbour is given a body. -/
theorem broadcast_sendMessage (hw : w.Writable [key]) (body : Mem) {size : Nat}
    (hsize : size ≤ pmtu - 4) : Broadcast [key] [Octets.read body 0 size] w
      (after (sendMessage (messageOf body size) (size + 4) key.toNeighbor) w) := by
  have hp := pmtu_eq
  have hdeclared := @declared_messageOf body size (by omega)
  have hcontent := @content_messageOf body size (by omega)
  cases hmsg : key.msg with
  | none =>
    have hsince : w.since (after (sendMessage (messageOf body size) (size + 4) key.toNeighbor) w) =
        [.sendto (neighborToSockaddr6 key.toNeighbor) (datagram (Octets.read body 0 size))] := by
      rw [sendMessage_direct hmsg, since_eq rfl, ← @bytes_messageOf body size (by omega)]
    rw [sendMessage_direct hmsg] at hsince ⊢
    refine ⟨⟨_, rfl, by simp, by simp⟩, fun k hk => ?_, fun server hserver => ?_, fun _ _ => rfl⟩
    · obtain rfl := List.mem_singleton.mp hk
      rw [takes_iff_of_none hmsg, hsince]
      simp [sentTo]
    · rw [hsince]
      simp [sentTo, hserver key (List.mem_singleton_self _)]
  | some a =>
    obtain ⟨m, hm, hbox⟩ := hw.box key (List.mem_singleton_self _) a hmsg
    have hroom := hbox.room
    have hwaits := pending_of_content hmsg hm
    have htotal : Batcher.total List.length [m.content] = m.declared := by
      rw [Batcher.total_length, List.flatten_singleton, length_content]
    by_cases hfull : m.declared + size > pmtu - 4
    · rw [sendMessage_flush hmsg hm (by rw [hdeclared]; exact hfull)
        (by rw [hdeclared]; exact hsize)]
      refine ⟨⟨_, rfl, by simp, by simp⟩, fun k hk => ?_, fun server hserver => ?_, fun b hb => ?_⟩
      · obtain rfl := List.mem_singleton.mp hk
        have hbatch : batched m.content [Octets.read body 0 size] =
            { closed := [[m.content]], pending := [Octets.read body 0 size] } := by
          unfold batched
          rw [Batcher.pushAll_cons, Batcher.pushAll_nil]
          unfold Batcher.push
          rw [htotal, length_read, if_pos hfull]
          rfl
        rw [takes_iff_of_some hmsg, hwaits, hbatch, since_eq rfl,
          bytes_eq_datagram hbox.magic hbox.version]
        constructor
        · simp [sentTo]
        · rw [pending_of_content hmsg (if_pos rfl), content_put_zero _ (by
            rw [length_content, hdeclared]; omega), hcontent]
          simp
      · rw [since_eq rfl]
        simp [sentTo, hserver key (List.mem_singleton_self _)]
      · refine if_neg fun (heq : b = a) => hb key (List.mem_singleton_self _) ?_
        rw [heq]
        exact hmsg
    · rw [sendMessage_append hmsg hm (by rw [hdeclared]; exact Nat.not_lt.mp hfull)]
      refine ⟨⟨_, rfl, by simp, by simp⟩, fun k hk => ?_, fun server hserver => ?_, fun b hb => ?_⟩
      · obtain rfl := List.mem_singleton.mp hk
        have hbatch : batched m.content [Octets.read body 0 size] =
            { closed := [], pending := [m.content, Octets.read body 0 size] } := by
          unfold batched
          rw [Batcher.pushAll_cons, Batcher.pushAll_nil]
          unfold Batcher.push
          rw [htotal, length_read, if_neg hfull]
          rfl
        rw [takes_iff_of_some hmsg, hwaits, hbatch, since_eq rfl]
        constructor
        · simp [sentTo]
        · rw [pending_of_content hmsg (if_pos rfl), content_put_append _ (by
            rw [length_content, hdeclared]; omega), hcontent]
          simp
      · rw [since_eq rfl]
        simp [sentTo]
      · refine if_neg fun (heq : b = a) => hb key (List.mem_singleton_self _) ?_
        rw [heq]
        exact hmsg

/-- The nodes of a tree in the order in which `send_to_everyone` visits them. -/
def Tree.members : Tree → List NeighborPtr
  | .null => []
  | .node key _ left right => key :: (left.members ++ right.members)

/-- These are all its nodes. -/
theorem members_perm (t : Tree) : t.members.Perm (t.inorder.map Prod.fst) := by
  induction t with
  | null => exact List.Perm.refl _
  | node key val left right ihl ihr =>
    rw [inorder_node, List.map_append, List.map_cons]
    exact ((ihl.append ihr).cons key).trans List.perm_middle.symm

/-- `send_to_everyone` gives its body to all members of the tree. -/
theorem broadcast_sendToEveryone (body : Mem) {size : Nat} (hsize : size ≤ pmtu - 4)
    (people : Tree) (hw : w.Writable people.members) :
    Broadcast people.members [Octets.read body 0 size] w
      (after (sendToEveryone (messageOf body size) (size + 4) people) w) := by
  have hbuf : (messageOf body size).declared ≤ pmtu - 4 := by
    have hp := pmtu_eq
    rw [declared_messageOf body (by omega)]
    exact hsize
  induction people generalizing w with
  | null => exact broadcast_of_same rfl rfl (.inl rfl)
  | node key val left right ihl ihr =>
    have hdistinct := hw.distinct
    unfold Tree.members at hdistinct hw ⊢
    have hone : w.Writable [key] := hw.sublist (by simp)
    have hhere := broadcast_sendMessage hone body hsize
    have hw₁ := hw.of_boxes (boxes_sendMessage hbuf (size + 4) key.toNeighbor w)
    have hleft := ihl (hw₁.sublist ((List.sublist_append_left _ _).trans
      (List.sublist_cons_self _ _)))
    have hw₂ := hw₁.of_boxes (boxes_sendToEveryone hbuf (size + 4) left _)
    have hright := ihr (hw₂.sublist ((List.sublist_append_right _ _).trans
      (List.sublist_cons_self _ _)))
    exact hhere.append (hleft.append hright (List.pairwise_cons.mp hdistinct).2) hdistinct

end FloodPeer
