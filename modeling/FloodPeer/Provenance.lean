/-
FloodPeer/Provenance.lean

Where what a peer hears has come from.

In a network of peers a TLV that one of them handles was said by another, and
what a peer says has a cause in its own history (`caused_of_run`).  Followed back
through the network, an Ack means that the datum has arrived (`arrived_of_ack`),
an advertised address has been heard from (`rumour_of_network`), and a datum,
however often it was relayed, is still what was typed at one of the peers or what
came from outside (`original_of_run`).
-/
import FloodPeer.Causes
import FloodPeer.Network
import FloodPeer.Refinement

namespace FloodPeer

open Octets StateLogic Runs

variable {ι : Type} {addr : ι → Sockaddr} {s₀ s s' : ι → World}
  {tr : List ((ι → World) × ι × Move)}

/-! ### What is delivered has a cause -/

theorem mem_history [DecidableEq ι] {i : ι} {x : World × Move} (h : x ∈ history i tr) :
    ∃ y ∈ tr, y.2.1 = i ∧ x = (y.1 i, y.2.2) := by
  obtain ⟨y, hy, hyx⟩ := List.mem_filterMap.mp h
  obtain ⟨hi, hx⟩ := Option.ite_none_right_eq_some.mp hyx
  exact ⟨y, hy, hi, (Option.some.inj hx).symm⟩

/-- **A TLV from a peer has a cause in the history of that peer.** -/
theorem caused_of_delivered [DecidableEq ι] (hinit : ∀ i, (s₀ i).Initial)
    (hrun : Run (Moves addr) s₀ tr s) {i j : ι} {type length : UInt8} {buf : Mem}
    (h : Delivered addr s i type buf length (addr j)) :
    ∃ (mem : Mem) (t : Tlv), buf = write mem 0 t.value ∧ length.toNat = t.value.length ∧
      t.type = type ∧ Caused (s j).id (history j tr) (addr i) type t.value := by
  obtain ⟨bytes, ⟨ts, t, mem, hbytes, ht, hhandled, rfl, rfl, rfl⟩, hsent⟩ := h
  have hexplained := explained_of_run (hinit j) (run_peer hrun j)
  obtain ⟨body, hbody, hworded⟩ := hexplained.sent (hsent j rfl)
  have hsame : body = ts.flatMap Tlv.bytes := by
    rw [← drop_datagram body, ← hbody, hbytes, drop_datagram]
  exact ⟨mem, t, rfl, t.toNat_length_value, rfl, hworded.allowed hsame ht hhandled⟩

section Kinds

variable {id : UInt64} {hist : List (World × Move)} {server : Sockaddr} {type : UInt8}
  {value : List UInt8}

theorem Caused.of_neighbour (h : Caused id hist server type value) (htype : type = 3) :
    ∃ hd ∈ heard hist, ∃ key : Neighbor, hd.place = key.place ∧ value = neighbourValue key := by
  cases h with
  | neighbour hx hheard hplace => exact ⟨_, hheard, _, hplace, rfl⟩
  | _ => exact absurd htype (by decide)

theorem Caused.of_data (h : Caused id hist server type value) (htype : type = 4) :
    ∃ x ∈ hist, ∃ v, x.2.given x.1 = some v ∧ value = Octets.read v.1 0 v.2.toNat := by
  cases h with
  | data hx hgiven => exact ⟨_, hx, _, hgiven, rfl⟩
  | _ => exact absurd htype (by decide)

theorem Caused.of_ack (h : Caused id hist server type value) (htype : type = 5) :
    ∃ u buf length, (u, Move.tlv 4 buf length server) ∈ hist ∧
      value = (Tlv.ack (indexAt buf).id (indexAt buf).nonce).value := by
  cases h with
  | ack hx => exact ⟨_, _, _, hx, rfl⟩
  | _ => exact absurd htype (by decide)

end Kinds

/-! ### A datum between two peers

`true` and `false` become neighbours, and `true` has something to say. -/

theorem moves_part {s : Bool → World} {i : Bool} {ts : List Tlv} {t : Tlv} {client : Sockaddr}
    (ht : t ∈ ts) (hhandled : t.handled = true)
    (hsent : ∀ j, client = pairAddr j →
      .sendto (pairAddr i) (datagram (ts.flatMap Tlv.bytes)) ∈ (s j).log) :
    Moves pairAddr (i, receipt t client) s (netAct s (i, receipt t client)) := by
  refine moves_netAct Move.noConfusion fun type buf length client' heq => ?_
  obtain ⟨rfl, rfl, rfl, rfl⟩ := Move.tlv.inj heq
  exact ⟨_, ⟨ts, t, _, rfl, ht, hhandled, rfl, rfl, rfl⟩, hsent⟩

/-- What is typed at `true`. -/
def said : Tlv := .data 2 0 0 [97] (by decide)

/-- The address of `false`, as `true` advertises it. -/
def advert : Tlv := .neighbour (Vector.replicate 16 2) (swap16 5)

/-- What `true` sends in one datagram. -/
def told : List Tlv := [.longHello 2 1, said, advert]

/-- The moves up to the local message. -/
def greeting : List (Bool × Move) :=
  introduction ++ [(true, receipt (.longHello 1 2) (pairAddr false)), (true, .say (some [97]))]

/-- The moves up to the Ack. -/
def exchange : List (Bool × Move) :=
  [(true, .turn 13 1 10), (true, .advertise), (true, .flush),
    (false, receipt said (pairAddr true)), (false, .flush)]

/-- A move of one of the two. -/
def pairAct (x : Bool × Move) (s : Bool → World) : Bool → World := netAct s x

def greeted : Bool → World := played pairAct greeting pairBoot

def exchanged : Bool → World := played pairAct exchange greeted

/-- The run up to the Ack. -/
def dialogue : List ((Bool → World) × Bool × Move) :=
  playedHistory pairAct greeting pairBoot ++ playedHistory pairAct exchange greeted

theorem run_greeting :
    Run (Moves pairAddr) pairBoot (playedHistory pairAct greeting pairBoot) greeted := by
  refine run_played_of fun y hy => ?_
  rcases List.mem_cons.mp hy with rfl | hy
  · exact moves_receipt rfl (by decide)
  rcases List.mem_cons.mp hy with rfl | hy
  · exact moves_netAct Move.noConfusion (by simp)
  rcases List.mem_cons.mp hy with rfl | hy
  · exact moves_receipt rfl (by decide +kernel)
  rcases List.mem_cons.mp hy with rfl | hy
  · exact moves_netAct Move.noConfusion (by simp)
  rcases List.mem_cons.mp hy with rfl | hy
  · exact moves_receipt rfl (by decide +kernel)
  · obtain rfl := List.mem_singleton.mp hy
    exact moves_netAct Move.noConfusion (by simp)

theorem run_exchange :
    Run (Moves pairAddr) greeted (playedHistory pairAct exchange greeted) exchanged := by
  refine run_played_of fun y hy => ?_
  rcases List.mem_cons.mp hy with rfl | hy
  · exact moves_netAct Move.noConfusion (by simp)
  rcases List.mem_cons.mp hy with rfl | hy
  · exact moves_netAct Move.noConfusion (by simp)
  rcases List.mem_cons.mp hy with rfl | hy
  · exact moves_netAct Move.noConfusion (by simp)
  rcases List.mem_cons.mp hy with rfl | hy
  · exact @moves_part _ false told said _ (by simp [told]) rfl (by decide +kernel)
  · obtain rfl := List.mem_singleton.mp hy
    exact moves_netAct Move.noConfusion (by simp)

theorem run_dialogue : Run (Moves pairAddr) pairBoot dialogue exchanged :=
  run_greeting.trans run_exchange

/-- The Ack of `false` comes to `true`. -/
theorem moves_ack :
    Moves pairAddr (true, receipt (.ack 2 0) (pairAddr false)) exchanged
      (netAct exchanged (true, receipt (.ack 2 0) (pairAddr false))) :=
  moves_receipt rfl (by decide +kernel)

theorem initial_pair (i : Bool) : (pairBoot i).Initial :=
  ⟨rfl, rfl, rfl, rfl, Nat.one_pos, rfl⟩

/-- The transmission to `false`. -/
theorem clear_greeted : Clear (greeted true) (.turn 13 1 10) := by
  obtain ⟨⟨f, nw⟩, hunder⟩ : ∃ p, (greeted true).under 13 10 = some p :=
    Option.isSome_iff_exists.mp (by decide +kernel)
  have hp : ∀ p ∈ (greeted true).under 13 10, p.2.timesSent ≠ 5 ∧
      Requeues p.1.symNeighbors.contents p.2 (greeted true).rands.head 1 := by
    decide +kernel
  exact clear_turn hunder (hp _ hunder).1 (hp _ hunder).2

theorem clear_dialogue : ∀ x ∈ playedHistory pairAct greeting pairBoot ++
    (playedHistory pairAct exchange greeted ++
      [(exchanged, true, receipt (.ack 2 0) (pairAddr false))]),
      x.2.1 = true → Clear (x.1 true) x.2.2 := by
  intro x hx hi
  rcases List.mem_append.mp hx with hx | hx
  · rcases List.mem_cons.mp hx with rfl | hx
    · exact clear_of_nothing rfl rfl
    rcases List.mem_cons.mp hx with rfl | hx
    · exact clear_of_nothing rfl rfl
    rcases List.mem_cons.mp hx with rfl | hx
    · cases hi
    rcases List.mem_cons.mp hx with rfl | hx
    · cases hi
    rcases List.mem_cons.mp hx with rfl | hx
    · exact clear_of_nothing rfl rfl
    · obtain rfl := List.mem_singleton.mp hx
      exact clear_say fun got _ => by decide +kernel
  · rcases List.mem_cons.mp hx with rfl | hx
    · dsimp only
      exact clear_greeted
    rcases List.mem_cons.mp hx with rfl | hx
    · exact clear_of_nothing rfl rfl
    rcases List.mem_cons.mp hx with rfl | hx
    · exact clear_of_nothing rfl rfl
    rcases List.mem_cons.mp hx with rfl | hx
    · cases hi
    rcases List.mem_cons.mp hx with rfl | hx
    · cases hi
    · obtain rfl := List.mem_singleton.mp hx
      exact clear_ack (by decide +kernel)

/-! ### Acks -/

theorem floods_iff {w : World} {index : DataIndex} :
    w.Floods index ↔ ∃ bytes, some (index, bytes) ∈ w.labels := by
  constructor
  · rintro ⟨f, hf, rfl⟩
    exact ⟨f.data, List.mem_map.mpr ⟨some f, hf, rfl⟩⟩
  · rintro ⟨bytes, hmem⟩
    obtain ⟨c, hc, hlabel⟩ := List.mem_map.mp hmem
    obtain ⟨f, rfl, hf⟩ := Option.map_eq_some_iff.mp hlabel
    exact ⟨f, hc, congrArg Prod.fst hf⟩

theorem given_data (buf : Mem) (length : UInt8) (client : Sockaddr) (w : World) :
    (Move.tlv 4 buf length client).given w =
      if w.dataf.foundAt (indexAt buf) = none then some (buf, length) else none :=
  if_congr (and_iff_right rfl) rfl rfl

/-- A peer that has handled a Data TLV has the datum. -/
theorem floods_after_data {w : World} (hw : w.Sound) (hr : w.Register) (halloc : w.Allocates)
    (buf : Mem) (length : UInt8) (client : Sockaddr) :
    ((Move.tlv 4 buf length client).act w).Floods (indexAt buf) := by
  have hlabels := ((Move.tlv 4 buf length client).does_act w).labels hw hr halloc
  rw [floods_iff, hlabels]
  by_cases hnew : w.dataf.foundAt (indexAt buf) = none
  · -- it is filed now, and the last entry always stays
    have hadded : addedBy w (.tlv 4 buf length client) =
        some (indexAt buf, 4 :: length :: Octets.read buf 0 length.toNat) := by
      rw [addedBy, given_data, if_pos hnew]
      rfl
    rw [hadded]
    exact ⟨_, @mem_recent_of_lt _ w.labels [] _ (by decide)⟩
  · have hadded : addedBy w (.tlv 4 buf length client) = none := by
      rw [addedBy, given_data, if_neg hnew]
      rfl
    rw [hadded]
    exact floods_iff.mp (not_not.mp fun h => hnew (foundAt_eq_none_iff.mpr h))

/-- In the step `x` the peer `b` handles a Data TLV of `a` with this index. -/
def HandedOver (addr : ι → Sockaddr) (a b : ι) (index : DataIndex)
    (x : (ι → World) × ι × Move) : Prop :=
  x.2.1 = b ∧ ∃ buf length, x.2.2 = .tlv 4 buf length (addr a) ∧ indexAt buf = index

theorem handed_of_ack (hinit : ∀ i, (s₀ i).Initial) (hrun : Run (Moves addr) s₀ tr s) {a b : ι}
    {buf : Mem} {length : UInt8} (hstep : Moves addr (a, .tlv 5 buf length (addr b)) s s') :
    ∃ x ∈ tr, HandedOver addr a b (indexAt buf) x := by
  classical
  have hdelivered := hstep.lawful.allowed 5 buf length (addr b) rfl
  obtain ⟨mem, t, rfl, -, -, hcaused⟩ := caused_of_delivered hinit hrun hdelivered
  obtain ⟨u, buf', length', hx, hvalue⟩ := hcaused.of_ack rfl
  obtain ⟨y, hy, hb, huy⟩ := mem_history hx
  obtain ⟨rfl, hmove⟩ := Prod.mk.inj huy
  have hindex : indexAt (write mem 0 t.value) = indexAt buf' := by
    rw [hvalue, ← List.append_nil (Tlv.value _)]
    exact indexAt_write mem _ _ []
  exact ⟨y, hy, hb, buf', length', hmove.symm, hindex.symm⟩

/-- **An Ack is true.**  An Ack that a peer handles from the address of another is the
answer to a Data TLV: this one was handed the datum by the peer itself, and with memory
to spare the datum was in its `DATAF` then. -/
theorem arrived_of_ack (hinit : ∀ i, (s₀ i).Initial) (hrun : Run (Moves addr) s₀ tr s) {a b : ι}
    {buf : Mem} {length : UInt8} (hstep : Moves addr (a, .tlv 5 buf length (addr b)) s s') :
    ∃ past x u, Stage (Moves addr) s₀ tr s past x.2 x.1 u ∧ HandedOver addr a b (indexAt buf) x ∧
      ((x.1 b).Allocates → (u b).Floods (indexAt buf)) := by
  classical
  obtain ⟨x, hx, hhanded⟩ := handed_of_ack hinit hrun hstep
  obtain ⟨past, later, rfl⟩ := List.append_of_mem hx
  obtain ⟨hbefore, u, hmove, hafter⟩ := hrun.split_cons
  refine ⟨past, x, u, ⟨hbefore, hmove, later, rfl, hafter⟩, hhanded, fun halloc => ?_⟩
  obtain ⟨hb, buf', length', htlv, hindex⟩ := hhanded
  have hexplained := explained_of_run (hinit b) (run_peer hbefore b)
  have hdoes := hmove.lawful.does
  rw [hb, htlv] at hdoes
  rw [hdoes.eq_act Move.noConfusion, ← hindex]
  exact floods_after_data hexplained.sound hexplained.register halloc buf' length' (addr a)

theorem arrived_said :
    ∃ past x u, Stage (Moves pairAddr) pairBoot dialogue exchanged past x.2 x.1 u ∧
      HandedOver pairAddr true false ⟨2, 0⟩ x ∧
        ((x.1 false).Allocates → (u false).Floods ⟨2, 0⟩) := by
  have harrived := arrived_of_ack initial_pair run_dialogue moves_ack
  rwa [show indexAt (write (fun _ => 0) 0 (Tlv.ack 2 0).value) = ⟨2, 0⟩ from
    indexAt_write _ 2 0 []] at harrived

/-- A Data TLV is acknowledged at once. -/
theorem ack_sent (buf : Mem) (length : UInt8) (client : Sockaddr) (w : World) :
    .sendto client (datagram (Tlv.ack (indexAt buf).id (indexAt buf).nonce).bytes) ∈
      (after (data buf length (sockaddr6ToNeighbor client)) w).log := by
  obtain ⟨u, hacked, hafter⟩ := after_data_client buf length client w
  obtain ⟨ext, -, hlog⟩ := hacked.log
  have hu : .sendto client (datagram (Tlv.ack (indexAt buf).id (indexAt buf).nonce).bytes) ∈
      u.log := by
    rw [hlog]
    simp
  rw [hafter]
  split
  · exact (boxes_newData buf length (sockaddr6ToNeighbor client) u).log.subset hu
  · exact (filer_boxes.keeps_removeNeighborFromFlood (indexAt buf)
      (sockaddr6ToNeighbor client).ptr u).log.subset hu

theorem ack_sent_of_handed (hrun : Run (Moves addr) s₀ tr s) {a b : ι} {index : DataIndex}
    {x : (ι → World) × ι × Move} (hx : x ∈ tr) (hhanded : HandedOver addr a b index x) :
    .sendto (addr a) (datagram (Tlv.ack index.id index.nonce).bytes) ∈ (s b).log := by
  obtain ⟨past, later, rfl⟩ := List.append_of_mem hx
  obtain ⟨-, u, hmove, hafter⟩ := hrun.split_cons
  obtain ⟨v, i, m⟩ := x
  obtain ⟨rfl, buf, length, rfl, rfl⟩ := hhanded
  apply (elapsed_of_network hafter i).log.subset
  rw [show u i = _ from hmove.lawful.does]
  exact ack_sent buf length (addr a) (v i)

/-- **Acks come back.**  Once `b` has been handed a datum by `a`, its Ack can come to
`a` at any time; and with memory to spare, when it comes and confuses nobody, `b` is
not waited for any more. -/
theorem ack_of_handed (hinit : ∀ i, (s₀ i).Initial) (hinj : Function.Injective addr)
    (hrun : Run (Moves addr) s₀ tr s) {a b : ι} (halloc : (s₀ a).Allocates)
    (hclear : ∀ x ∈ tr, x.2.1 = a → Clear (x.1 a) x.2.2) {index : DataIndex}
    {x : (ι → World) × ι × Move} (hx : x ∈ tr) (hhanded : HandedOver addr a b index x) :
    ∃ buf length s', indexAt buf = index ∧ Moves addr (a, .tlv 5 buf length (addr b)) s s' ∧
      (Clear (s a) (.tlv 5 buf length (addr b)) → ∀ cell f, (s' a).floodAt cell = some f →
        f.index = index → ∀ k ∈ f.waiting, neighborToSockaddr6 k.toNeighbor ≠ addr b) := by
  classical
  -- what was sent then can come now
  let t : Tlv := .ack index.id index.nonce
  let m : Move := receipt t (addr b)
  have hindex : indexAt (write (fun _ => 0) 0 t.value) = index :=
    indexAt_write _ _ _ []
  have hstep : Moves addr (a, m) s (Function.update s a (m.act (s a))) := by
    refine ⟨⟨?_, fun type buf length client heq => ?_, fun heq => Move.noConfusion heq⟩,
      fun j hj => Function.update_of_ne hj _ _⟩
    · rw [Function.update_self]
      exact m.does_act (s a)
    · obtain ⟨rfl, rfl, rfl, rfl⟩ := Move.tlv.inj heq
      refine ⟨_, ⟨[t], t, _, rfl, List.mem_cons_self, rfl, rfl, rfl, rfl⟩, fun j hj => ?_⟩
      rw [← hinj hj, List.flatMap_singleton]
      exact ack_sent_of_handed hrun hx hhanded
  refine ⟨_, _, _, hindex, hstep, fun hack cell f hf hk k hmem hplace => ?_⟩
  rw [Function.update_self] at hf
  -- the run of `a`, with the Ack at its end
  have hpeer : Run Move.Does (s₀ a) (history a tr) (s a) :=
    (run_peer hrun a).mono fun _ _ _ hmove => hmove.does
  have hclear' : ∀ y ∈ history a tr ++ [(s a, m)], Clear y.1 y.2 := by
    intro y hy
    rcases List.mem_append.mp hy with hy | hy
    · obtain ⟨z, hz, ha, rfl⟩ := mem_history hy
      exact hclear z hz ha
    · obtain rfl := List.mem_singleton.mp hy
      exact hack
  have hsteady := steady_of_initial (hinit a) halloc
  have hall := hpeer.snoc (m.does_act (s a))
  have hfollows := follows_of_run hall hsteady hclear'
  have hprotocol : protocol (history a tr ++ [(s a, m)]) = protocol (history a tr) ++
      [((s a).node, .answered index (sockaddr6ToNeighbor (addr b)).place)] := by
    unfold protocol
    rw [List.map_append, List.map_singleton, ← hindex]
    rfl
  rw [hprotocol] at hfollows
  have hregister := (steady_of_run hall hsteady hclear').register
  have hitem : f.item ∈ (m.act (s a)).node.store :=
    List.mem_map_of_mem (mem_floods hregister.linked hf)
  refine Gossip.not_waiting_of_answered hfollows (fun _ hy => absurd hy List.not_mem_nil) hitem hk
    (List.mem_toFinset.mpr (List.mem_map.mpr ⟨k, hmem, ?_⟩))
  rw [← neighborToSockaddr6_sockaddr6ToNeighbor (addr b), neighborToSockaddr6_eq_iff] at hplace
  exact hplace

theorem pairAddr_injective : Function.Injective pairAddr := by
  unfold Function.Injective
  decide

theorem ack_said : ∃ buf length s', indexAt buf = ⟨2, 0⟩ ∧
    Moves pairAddr (true, .tlv 5 buf length (pairAddr false)) exchanged s' ∧
      (Clear (exchanged true) (.tlv 5 buf length (pairAddr false)) →
        ∀ cell f, (s' true).floodAt cell = some f → f.index = ⟨2, 0⟩ →
          ∀ k ∈ f.waiting, neighborToSockaddr6 k.toNeighbor ≠ pairAddr false) := by
  obtain ⟨x, hx, hhanded⟩ := handed_of_ack initial_pair run_dialogue moves_ack
  rw [show indexAt (write (fun _ => 0) 0 (Tlv.ack 2 0).value) = ⟨2, 0⟩ from
    indexAt_write _ 2 0 []] at hhanded
  refine ack_of_handed initial_pair pairAddr_injective run_dialogue (fun _ => rfl) ?_ hx hhanded
  intro y hy
  apply clear_dialogue y
  rw [← List.append_assoc]
  exact List.mem_append_left _ hy

/-! ### Advertised addresses -/

/-- `b` has accepted a Hello from the address of `key`. -/
def Met [DecidableEq ι] (b : ι) (key : Neighbor) (tr : List ((ι → World) × ι × Move)) : Prop :=
  ∃ h ∈ heard (history b tr), h.place = key.place

/-- The address in a Neighbour TLV of a peer is one from which that peer has accepted
a Hello. -/
theorem met_of_neighbour [DecidableEq ι] (hinit : ∀ i, (s₀ i).Initial)
    (hrun : Run (Moves addr) s₀ tr s) {a b : ι} {buf : Mem} {length : UInt8}
    (hstep : Moves addr (a, .tlv 3 buf length (addr b)) s s') : Met b (keyAt buf) tr := by
  have hdelivered := hstep.lawful.allowed 3 buf length (addr b) rfl
  obtain ⟨mem, t, rfl, -, -, hcaused⟩ := caused_of_delivered hinit hrun hdelivered
  obtain ⟨h, hh, key, hplace, hvalue⟩ := hcaused.of_neighbour rfl
  refine ⟨h, hh, hplace.trans ?_⟩
  rw [hvalue, show keyAt (write mem 0 (neighbourValue key)) = _ from
    keyAt_write mem key.ip key.port]
  rfl

/-- A step in the history of a peer is one of the run. -/
theorem split_history [DecidableEq ι] {i : ι} {l₁ l₂ : List (World × Move)} {z : World × Move}
    (h : history i tr = l₁ ++ z :: l₂) : ∃ past x rest, tr = past ++ x :: rest ∧ x.2.1 = i ∧
      z = (x.1 i, x.2.2) ∧ history i rest = l₂ := by
  obtain ⟨past, rest, rfl, -, hrest⟩ := List.filterMap_eq_append_iff.mp h
  obtain ⟨before, x, later, rfl, -, hx, hlater⟩ := List.filterMap_eq_cons_iff.mp hrest
  obtain ⟨hi, hz⟩ := Option.ite_none_right_eq_some.mp hx
  exact ⟨past ++ before, x, later, (List.append_assoc ..).symm, hi, (Option.some.inj hz).symm,
    hlater⟩

/-- **Potential neighbours are real.**  A peer has an address among its potential
neighbours because a Neighbour TLV has told of it, and since then it has neither heard
the address nor forgotten it.  If another peer told of it, that one had accepted a
Hello from there. -/
theorem rumour_of_network [DecidableEq ι] (hinit : ∀ i, (s₀ i).Initial)
    (hrun : Run (Moves addr) s₀ tr s) {i : ι} (halloc : (s₀ i).Allocates)
    {e : NeighborPtr × Ident} (he : e ∈ (s i).potential.inorder) :
    ∃ (past : List ((ι → World) × ι × Move)) (u : ι → World) (buf : Mem) (length : UInt8)
        (client : Sockaddr) (rest : List ((ι → World) × ι × Move)),
      tr = past ++ (u, i, .tlv 3 buf length client) :: rest ∧ (keyAt buf).place = entryPlace e ∧
      (∀ j, client = addr j → Met j (keyAt buf) past) ∧
      ∀ y ∈ rest, y.2.1 = i → (∀ key, y.2.2 = .forget key → key.place ≠ entryPlace e) ∧
        ∀ h, heardBy (y.1 i) y.2.2 = some h → h.place ≠ entryPlace e := by
  have hpeer : Run Move.Does (s₀ i) (history i tr) (s i) :=
    (run_peer hrun i).mono fun _ _ _ hmove => hmove.does
  have hspreads := spreads_of_run hpeer (sound_of_initial (hinit i)) halloc
  rw [node_of_initial (hinit i)] at hspreads
  have hsome : (s i).node.rumoured (entryPlace e) ≠ none :=
    fun hnone => directory_eq_none_iff.mp hnone e he rfl
  obtain ⟨pastE, uE, r, laterE, hprotocol, hlater⟩ := Gossip.told_of_run hspreads rfl hsome
  -- the step at which it was told of
  obtain ⟨l₁, l₂, hhistory, -, hl₂⟩ := List.map_eq_append_iff.mp hprotocol
  obtain ⟨z, l₃, rfl, hz, rfl⟩ := List.map_eq_cons_iff.mp hl₂
  obtain ⟨past, ⟨u, i', m⟩, rest, rfl, rfl, rfl, hrest⟩ := split_history hhistory
  obtain ⟨buf, length, client, rfl, hplace⟩ := told_of_event (Prod.mk.inj hz).2
  obtain ⟨hbefore, v, hstep, -⟩ := hrun.split_cons
  refine ⟨past, u, buf, length, client, rest, rfl, hplace, ?_, ?_⟩
  · rintro j rfl
    exact met_of_neighbour hinit hbefore hstep
  · intro y hy hi
    have hmem : (y.1 i', y.2.2) ∈ l₃ := by
      rw [← hrest]
      exact List.mem_filterMap.mpr ⟨y, hy, if_pos hi⟩
    obtain ⟨hforgot, hheard⟩ := hlater _ (List.mem_map_of_mem hmem)
    refine ⟨fun key hkey hp => hforgot ?_, fun h hh hp => hheard h.ident ?_⟩
    · show y.2.2.event (y.1 i') = _
      rw [hkey, ← hp]
      exact event_of_nothing rfl rfl rfl
    · show y.2.2.event (y.1 i') = _
      obtain ⟨⟨buf', length', client', hm⟩, -⟩ := heardBy_cases hh
      rw [← hp]
      refine event_of_heard ?_ ?_ hh
      · rw [hm]
        exact given_tlv (by decide) buf' length' client'
      · rw [hm]
        rfl

/-- `false` is told of its own address. -/
theorem rumour_advert :
    let s := netAct exchanged (false, receipt advert (pairAddr true))
    ∃ e ∈ (s false).potential.inorder, ∃ (past : List ((Bool → World) × Bool × Move))
        (u : Bool → World) (buf : Mem) (length : UInt8) (client : Sockaddr)
        (rest : List ((Bool → World) × Bool × Move)),
      dialogue ++ [(exchanged, false, receipt advert (pairAddr true))] =
        past ++ (u, false, .tlv 3 buf length client) :: rest ∧
      (keyAt buf).place = entryPlace e ∧
      (∀ j, client = pairAddr j → Met j (keyAt buf) past) ∧
      ∀ y ∈ rest, y.2.1 = false → (∀ key, y.2.2 = .forget key → key.place ≠ entryPlace e) ∧
        ∀ h, heardBy (y.1 false) y.2.2 = some h → h.place ≠ entryPlace e := by
  intro s
  have hstep := @moves_part exchanged false told advert (pairAddr true) (by simp [told]) rfl
    (by decide +kernel)
  obtain ⟨e, he⟩ : ∃ e, e ∈ (s false).potential.inorder :=
    List.exists_mem_of_ne_nil _ (by decide +kernel)
  exact ⟨e, he, rumour_of_network initial_pair (run_dialogue.snoc hstep) (fun _ => rfl) he⟩

/-! ### Data -/

/-- The value was typed at one of the peers, or a stranger has sent it to one. -/
def Original (addr : ι → Sockaddr) (tr : List ((ι → World) × ι × Move))
    (value : List UInt8) : Prop :=
  ∃ x ∈ tr, ∃ v, value = Octets.read v.1 0 v.2.toNat ∧
    ((∃ got, x.2.2 = .say got ∧ x.2.2.given (x.1 x.2.1) = some v) ∨
      ∃ client, x.2.2 = .tlv 4 v.1 v.2 client ∧ ∀ j, client ≠ addr j)

theorem Original.append {value : List UInt8} (h : Original addr tr value)
    (tr' : List ((ι → World) × ι × Move)) : Original addr (tr ++ tr') value := by
  obtain ⟨x, hx, horigin⟩ := h
  exact ⟨x, List.mem_append_left _ hx, horigin⟩

/-- What has been given to `add_message_to_flood` was typed or came in a Data TLV. -/
theorem given_cases {m : Move} {w : World} {v : Mem × UInt8} (h : m.given w = some v) :
    (∃ client, m = .tlv 4 v.1 v.2 client) ∨ ∃ got, m = .say got := by
  cases m with
  | tlv type buf length client =>
    obtain ⟨⟨rfl, -⟩, hv⟩ := Option.ite_none_right_eq_some.mp h
    obtain rfl := Option.some.inj hv
    exact .inl ⟨client, rfl⟩
  | say got => exact .inr ⟨got, rfl⟩
  | _ => cases h

/-- The values of the Data TLVs that the peers have handled.  A TLV from a peer leads
back to an earlier step, at which that peer was given the same value; the induction is
on the run. -/
theorem original_of_handled (hinit : ∀ i, (s₀ i).Initial) (hrun : Run (Moves addr) s₀ tr s)
    {x : (ι → World) × ι × Move} (hx : x ∈ tr) {buf : Mem} {length : UInt8} {client : Sockaddr}
    (hmove : x.2.2 = .tlv 4 buf length client) :
    Original addr tr (Octets.read buf 0 length.toNat) := by
  classical
  induction hrun generalizing x buf length client with
  | nil => cases hx
  | @snoc tr s s' y hrun hstep ih =>
    rcases List.mem_append.mp hx with hold | hlast
    · exact (ih hold hmove).append _
    obtain rfl := List.mem_singleton.mp hlast
    by_cases hstranger : ∀ j, client ≠ addr j
    · exact ⟨_, hx, (buf, length), rfl, .inr ⟨client, hmove, hstranger⟩⟩
    obtain ⟨j, hj⟩ := not_forall.mp hstranger
    obtain rfl := not_not.mp hj
    have hdelivered := hstep.lawful.allowed 4 buf length (addr j) hmove
    obtain ⟨mem, t, rfl, hlength, -, hcaused⟩ := caused_of_delivered hinit hrun hdelivered
    obtain ⟨z, hz, v, hgiven, hvalue⟩ := hcaused.of_data rfl
    obtain ⟨z, hmem, rfl, rfl⟩ := mem_history hz
    rw [hlength, read_write_self, hvalue]
    refine Original.append ?_ _
    rcases given_cases hgiven with ⟨client, hz⟩ | ⟨got, hz⟩
    · exact ih hmem hz
    · exact ⟨z, hmem, v, rfl, .inl ⟨got, hz, hgiven⟩⟩

/-- **Data are not made up and not changed on the way.**  Every entry of `DATAF` of
every peer holds a value that was typed at one of the peers or has come from outside,
byte for byte. -/
theorem original_of_run (hinit : ∀ i, (s₀ i).Initial) (hrun : Run (Moves addr) s₀ tr s) {i : ι}
    {cell : Nat} {f : FloodEntry} (hf : (s i).floodAt cell = some f) :
    ∃ size value, f.data = 4 :: size :: value ∧ value.length = size.toNat ∧
      Original addr tr value := by
  classical
  obtain ⟨x, hx, v, hgiven, hdata⟩ :=
    (explained_of_run (hinit i) (run_peer hrun i)).filed cell f hf
  obtain ⟨y, hy, rfl, rfl⟩ := mem_history hx
  refine ⟨v.2, _, hdata, length_read _ _ _, ?_⟩
  rcases given_cases hgiven with ⟨client, hmove⟩ | ⟨got, hmove⟩
  · exact original_of_handled hinit hrun hy hmove
  · exact ⟨y, hy, v, rfl, .inl ⟨got, hmove, hgiven⟩⟩

/-- `false` has what was typed at `true`. -/
theorem original_said :
    ∃ f, (exchanged false).floodAt 10 = some f ∧
      ∃ size value, f.data = 4 :: size :: value ∧ value.length = size.toNat ∧
        Original pairAddr dialogue value := by
  obtain ⟨f, hf⟩ : ∃ f, (exchanged false).floodAt 10 = some f :=
    Option.isSome_iff_exists.mp (by decide +kernel)
  exact ⟨f, hf, original_of_run initial_pair run_dialogue hf⟩

/-! ### Who has the datum

A recipient leaves the list of an entry when it answers.  By then it has the
datum. -/

/-- In the step `x` the peer `b` is given the datum, by another or by its own user. -/
def Learns (b : ι) (index : DataIndex) (x : (ι → World) × ι × Move) : Prop :=
  x.2.1 = b ∧
    ((∃ buf length client, x.2.2 = .tlv 4 buf length client ∧ indexAt buf = index) ∨
      ∃ got v, x.2.2 = .say got ∧ x.2.2.given (x.1 b) = some v ∧ indexAt v.1 = index)

/-- A peer that sends a datum has got it before. -/
theorem learns_of_data (hinit : ∀ i, (s₀ i).Initial) (hrun : Run (Moves addr) s₀ tr s) {a b : ι}
    {buf : Mem} {length : UInt8} (hstep : Moves addr (a, .tlv 4 buf length (addr b)) s s') :
    ∃ x ∈ tr, Learns b (indexAt buf) x := by
  classical
  have hdelivered := hstep.lawful.allowed 4 buf length (addr b) rfl
  obtain ⟨mem, t, rfl, -, htype, hcaused⟩ := caused_of_delivered hinit hrun hdelivered
  obtain ⟨z, hz, v, hgiven, hvalue⟩ := hcaused.of_data rfl
  obtain ⟨y, hy, rfl, rfl⟩ := mem_history hz
  have hlong := thirteen_le_of_data htype
  rw [hvalue, length_read] at hlong
  have hindex : indexAt v.1 = indexAt (write mem 0 t.value) := by
    rw [hvalue]
    refine (@indexAt_eq_of_agree v.1 _ v.2.toNat (fun i hi => ?_) (by omega)).symm
    have hcopy := write_read_apply mem v.1 0 0 hi
    rwa [Nat.zero_add] at hcopy
  refine ⟨y, hy, rfl, ?_⟩
  rcases given_cases hgiven with ⟨client, hmove⟩ | ⟨got, hmove⟩
  · exact .inl ⟨v.1, v.2, client, hmove, hindex⟩
  · exact .inr ⟨got, v, hmove, hgiven, hindex⟩

theorem effect_tlv (type : UInt8) (buf : Mem) (length : UInt8) (client : Sockaddr) (w : World) :
    (Move.tlv type buf length client).effect w =
      if type = 4 ∨ type = 5 then .answered (indexAt buf) (sockaddr6ToNeighbor client).ptr
      else if type = 6 then .gone (sockaddr6ToNeighbor client).ptr
      else .nothing := rfl

/-- What answers is an Ack or a Data TLV. -/
theorem answers_cases {w : World} {m : Move} {index : DataIndex} {k : NeighborPtr}
    (h : Answers w m index k) : ∃ type buf length client, (type = 4 ∨ type = 5) ∧
      m = .tlv type buf length client ∧ indexAt buf = index ∧
      client = neighborToSockaddr6 k.toNeighbor := by
  obtain ⟨peer, heffect, hplace⟩ := h
  cases m with
  | tlv type buf length client =>
    rw [effect_tlv] at heffect
    by_cases htype : type = 4 ∨ type = 5
    · rw [if_pos htype] at heffect
      obtain ⟨rfl, rfl⟩ := Effect.answered.inj heffect
      refine ⟨type, buf, length, client, htype, rfl, rfl, ?_⟩
      rw [← neighborToSockaddr6_sockaddr6ToNeighbor client]
      exact neighborToSockaddr6_eq_iff.mpr hplace.symm
    · rw [if_neg htype] at heffect
      split at heffect <;> cases heffect
  | _ =>
    have hsource := source_of_answered heffect
    cases hsource

/-- A peer that answers has got the datum. -/
theorem learns_of_answers (hinit : ∀ i, (s₀ i).Initial) (hrun : Run (Moves addr) s₀ tr s)
    {a b : ι} {m : Move} (hstep : Moves addr (a, m) s s') {index : DataIndex} {k : NeighborPtr}
    (hanswers : Answers (s a) m index k) (hk : neighborToSockaddr6 k.toNeighbor = addr b) :
    ∃ x ∈ tr, Learns b index x := by
  obtain ⟨type, buf, length, client, htype, rfl, rfl, rfl⟩ := answers_cases hanswers
  rw [hk] at hstep
  rcases htype with rfl | rfl
  · exact learns_of_data hinit hrun hstep
  · obtain ⟨x, hx, hb, buf', length', hmove, hindex⟩ := handed_of_ack hinit hrun hstep
    exact ⟨x, hx, hb, .inl ⟨buf', length', addr a, hmove, hindex⟩⟩

/-- **Nobody is left out.**  While an entry stays in `DATAF`, a recipient leaves its list
only when it has got the datum or when it has been removed from `NEIGHBORS`. -/
theorem informed_of_run (hinit : ∀ i, (s₀ i).Initial) {tr' : List ((ι → World) × ι × Move)}
    {t : ι → World} (hrun : Run (Moves addr) s₀ tr s) (hrun' : Run (Moves addr) s tr' t) {a b : ι}
    (halloc : (s₀ a).Allocates)
    (hclear : ∀ x ∈ tr ++ tr', x.2.1 = a → Clear (x.1 a) x.2.2)
    {cell : Nat} {f f' : FloodEntry} (hf : (s a).floodAt cell = some f)
    (hf' : (t a).floodAt cell = some f') {k : NeighborPtr} (hk : k ∈ f.waiting)
    (haddr : neighborToSockaddr6 k.toNeighbor = addr b) (hleft : k ∉ f'.waiting) :
    (∃ x ∈ tr ++ tr', Learns b f.index x) ∨
      ∃ x ∈ tr', x.2.1 = a ∧ Unlists (x.1 a) x.2.2 k := by
  classical
  have hclear' : ∀ {l : List ((ι → World) × ι × Move)}, (∀ x ∈ l, x ∈ tr ++ tr') →
      ∀ y ∈ history a l, Clear y.1 y.2 := by
    intro l hl y hy
    obtain ⟨x, hx, ha, rfl⟩ := mem_history hy
    exact hclear x (hl x hx) ha
  have hfirst : Run Move.Does (s₀ a) (history a tr) (s a) :=
    (run_peer hrun a).mono fun _ _ _ hmove => hmove.does
  have hthen : Run Move.Does (s a) (history a tr') (t a) :=
    (run_peer hrun' a).mono fun _ _ _ hmove => hmove.does
  have hsteady := steady_of_run hfirst (steady_of_initial (hinit a) halloc)
    (hclear' fun x hx => List.mem_append_left _ hx)
  obtain ⟨-, -, hwhy⟩ := waiting_of_run hthen hsteady
    (hclear' fun x hx => List.mem_append_right _ hx) hf hf'
  obtain ⟨y, hy, hy'⟩ := hwhy k hk hleft
  obtain ⟨x, hx, ha, rfl⟩ := mem_history hy
  rcases hy' with hanswers | hunlists
  · left
    -- the step at which it answers
    obtain ⟨l₁, l₂, rfl⟩ := List.append_of_mem hx
    obtain ⟨hbefore, u, hstep, -⟩ := hrun'.split_cons
    obtain ⟨v, i, m⟩ := x
    obtain rfl : i = a := ha
    obtain ⟨z, hz, hlearns⟩ := learns_of_answers hinit (hrun.trans hbefore) hstep hanswers haddr
    refine ⟨z, ?_, hlearns⟩
    rw [← List.append_assoc]
    exact List.mem_append_left _ hz
  · exact .inr ⟨x, hx, ha, hunlists⟩

/-- `false` leaves the list of the datum, which it has. -/
theorem informed_said :
    ∃ f f' k, (greeted true).floodAt 13 = some f ∧ f.waiting = [k] ∧
      (netAct exchanged (true, receipt (.ack 2 0) (pairAddr false)) true).floodAt 13 = some f' ∧
      f'.waiting = [] ∧
      let later := playedHistory pairAct exchange greeted ++
        [(exchanged, true, receipt (.ack 2 0) (pairAddr false))]
      ((∃ x ∈ playedHistory pairAct greeting pairBoot ++ later, Learns false f.index x) ∨
        ∃ x ∈ later, x.2.1 = true ∧ Unlists (x.1 true) x.2.2 k) := by
  let k : NeighborPtr := { sockaddr6ToNeighbor (pairAddr false) with msg := some 4, addr := 7 }
  obtain ⟨f, hf, hk⟩ : ∃ f, (greeted true).floodAt 13 = some f ∧ f.waiting = [k] :=
    Option.map_eq_some_iff.mp (by decide +kernel)
  obtain ⟨f', hf', hnone⟩ : ∃ f',
      (netAct exchanged (true, receipt (.ack 2 0) (pairAddr false)) true).floodAt 13 = some f' ∧
        f'.waiting = [] :=
    Option.map_eq_some_iff.mp (by decide +kernel)
  refine ⟨f, f', k, hf, hk, hf', hnone, ?_⟩
  exact informed_of_run initial_pair run_greeting (run_exchange.snoc moves_ack) (fun _ => rfl)
    clear_dialogue hf hf' (hk ▸ List.mem_cons_self) (by decide) (hnone ▸ List.not_mem_nil)

end FloodPeer
