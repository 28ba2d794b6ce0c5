/-
FloodPeer/Sending.lean

What a turn of the flooding loop gives to a neighbour.

A neighbour is sent a datum when bytes of it arrive behind those that wait for
it, or leave for its address (`Issues`).  That happens in the turns in which
it is the recipient under the cursor, is due and is put back, and in no others
(`resent_of_issues`, `issues_of_resent`).
-/
import FloodPeer.Queueing
import FloodPeer.Transmissions

namespace FloodPeer

open Octets StateLogic

variable {k : NeighborPtr} {bytes : List UInt8} {u w w' : World}

/-! ### Nothing for a neighbour -/

/-- No datagram leaves, and the message of the neighbour stays as it is. -/
theorem takes_of_hands (hhands : Hands (fun _ => False) w w')
    (hmsgs : ∀ a, k.msg = some a → w'.msgs a = w.msgs a) : Takes k [] w w' := by
  obtain ⟨ext, hlog, hall⟩ := hhands
  refine takes_nil_iff.mpr ⟨?_, fun _ _ => pending_eq_of_msgs hmsgs⟩
  rw [since_eq hlog]
  apply List.filterMap_eq_nil_iff.mpr
  intro o ho
  have hto := hall o ho
  cases o with
  | sendto server bytes => exact hto.elim
  | _ => rfl

theorem Mute.grows (h : Mute w w') : w.log <+: w'.log := by
  obtain ⟨ext, -, hlog⟩ := h.faults
  exact ⟨ext, hlog.symm⟩

theorem takes_of_mute (h : Mute w w') : Takes k [] w w' := by
  obtain ⟨ext, hext, hlog⟩ := h.faults
  refine takes_of_hands ⟨ext, hlog, fun o ho => ?_⟩ fun a _ => congrFun h.msgs a
  rw [hext o ho]
  trivial

theorem Takes.not_relays (h : Takes k [] w w') (hbytes : bytes ≠ []) : ¬ Relays k bytes w w' := by
  obtain ⟨hsent, hpending⟩ := takes_nil_iff.mp h
  refine not_relays_of_same ?_ hsent hbytes
  cases hmsg : k.msg with
  | none =>
    unfold World.pending
    rw [show k.toNeighbor.msg = none from hmsg]
    rfl
  | some a => exact hpending a hmsg

/-- The neighbours that stay are given nothing when one is removed. -/
theorem takes_removeNeighborEverywhere (hw : w.Sound) (peer : NeighborPtr)
    (hk : (after (removeNeighborEverywhere peer) w).neighbors.owns k) :
    Takes k [] w (after (removeNeighborEverywhere peer) w) := by
  obtain ⟨hown, hplace⟩ := (owns_removeNeighborEverywhere hw peer k).mp hk
  obtain ⟨e, he, rfl⟩ := List.mem_map.mp hown
  have hboxes := filer_boxes.keeps_removeFromFloods peer w.dataf.contents w
  have hmute := filer_mute.keeps_removeFromFloods peer w.dataf.contents w
  refine takes_of_hands (hands_removeNeighborEverywhere peer w) fun a ha => ?_
  have hkept := msgs_removeNeighbor (hw.of_boxes hboxes) peer.toNeighbor
    (hboxes.neighbors ▸ he) hplace ha
  exact hkept.trans (congrFun hmute.msgs a)

/-- A neighbour that is given up is sent a GoAway; the others are given nothing. -/
theorem takes_handleInactive (hw : w.Sound) {sym : NeighborPtr} (hown : w.neighbors.owns sym)
    (hk : (after (handleInactive sym) w).neighbors.owns k) :
    Takes k [] w (after (handleInactive sym) w) := by
  have hexpire : after (handleInactive sym) w = after (removeNeighborEverywhere sym)
      (after (sendMessage (inactiveMessage w.memory.head) 31 sym.toNeighbor)
        (after (note (.dropping sym (w.pending sym.toNeighbor))) (after uninit w))) := by
    rw [after_handleInactive, after_expire]
    exact if_pos hown
  rw [hexpire] at hk ⊢
  generalize hv : after (note (.dropping sym (w.pending sym.toNeighbor))) (after uninit w) = v
    at hk ⊢
  have hdeclared : (inactiveMessage w.memory.head).declared ≤ pmtu - 4 :=
    le_trans (le_of_eq (declared_inactive w.memory.head)) (by decide)
  have hnoted : Boxes w v := by
    rw [← hv]
    exact (quiet_uninit w).idle.boxes.trans (idle_note _ _).boxes
  have hfirst : Takes k [] w v := by
    rw [takes_nil_iff, ← hv, since_eq rfl]
    exact ⟨rfl, fun _ _ => rfl⟩
  have hvsound : v.Sound := hw.of_boxes hnoted
  have hvown : v.neighbors.owns sym := hnoted.neighbors ▸ hown
  have hgoaway := boxes_sendMessage hdeclared 31 sym.toNeighbor v
  have hsound := hvsound.of_boxes hgoaway
  -- the GoAway is for `sym`, which is not one of those that stay
  obtain ⟨hkown, hplace⟩ := (owns_removeNeighborEverywhere hsound sym k).mp hk
  rw [hgoaway.neighbors] at hkown
  have hother : Distinct sym k := by
    obtain ⟨hserver, hmsg⟩ := hvsound.apart_of_ne hvown hkown fun heq =>
      hplace (congrArg (fun k : NeighborPtr => k.toNeighbor.place) heq.symm)
    exact ⟨hserver, hmsg⟩
  have hsend := @broadcast_sendMessage sym v
    (hvsound.writable (fun k' hk' => List.mem_singleton.mp hk' ▸ hvown) (List.nodup_singleton sym))
    (tlvGoaway w.memory.head 0 (pmtu - 4) 2 (ofBytes inactiveText) 24).1 27 (by decide)
  have hmiddle := hsend.other fun k' hk' => List.mem_singleton.mp hk' ▸ hother
  have hlast := takes_removeNeighborEverywhere hsound sym hk
  exact (hfirst.trans hmiddle hnoted.log hsend.grows).trans hlast
    (hnoted.log.trans hsend.grows) (later_removeNeighborEverywhere sym _).elapsed.log

/-! ### `send_data` -/

/-- `send_data` gives the recipient as many bytes of the TLV as it reads its length. -/
theorem broadcast_sendData {f : FloodEntry} {n : Nat} (hn : toChar (f.data.getD 1 0) + 2 = n)
    (hlength : n ≤ f.data.length) {key : NeighborPtr} {w : World} (hw : w.Writable [key]) :
    Broadcast [key] [f.data.take n] w (after (sendData f.data key.toNeighbor) w) := by
  have hsmall : n ≤ pmtu - 4 := by
    have hp := pmtu_eq
    have hchar := toChar_lt (f.data.getD 1 0)
    omega
  have hbody : Octets.read (write w.memory.head 0 (f.data.take n)) 0 n = f.data.take n :=
    read_write_eq _ _ (by rw [List.length_take, Nat.min_eq_left hlength])
  have hu : (after uninit w).Writable [key] := hw.of_boxes (quiet_uninit w).idle.boxes
  have hsend := broadcast_sendMessage hu (write w.memory.head 0 (f.data.take n)) hsmall
  have hmemory : Broadcast [key] [] w (after uninit w) := broadcast_of_same rfl rfl (.inr rfl)
  rw [hbody] at hsend
  rw [after_sendData hn]
  exact hmemory.trans hsend

/-! ### Transmissions -/

/-- The neighbour `k` is given the datum of the entry in the cell `a`, or a beginning
of it. -/
def Issues (a : Nat) (k : NeighborPtr) (w w' : World) : Prop :=
  w'.neighbors.owns k ∧
    ∃ f ∈ w.floodAt a, ∃ n < f.data.length, Relays k (f.data.take (n + 1)) w w'

instance (a : Nat) (k : NeighborPtr) (w w' : World) : Decidable (Issues a k w w') := by
  unfold Issues; infer_instance

theorem Issues.not_takes {a : Nat} (h : Issues a k w w') : ¬ Takes k [] w w' := by
  obtain ⟨-, f, -, n, hn, hrelays⟩ := h
  intro htakes
  refine htakes.not_relays ?_ hrelays
  rw [← List.length_pos_iff, List.length_take]
  omega

/-- As many bytes as `send_data` takes of a whole TLV are there. -/
theorem World.Whole.enough (h : w.Whole) {a : Nat} {f : FloodEntry} (hf : w.floodAt a = some f)
    {n : Nat} (hn : toChar (f.data.getD 1 0) + 2 = n) : n ≤ f.data.length := by
  obtain ⟨size, value, hdata, hlength⟩ := h a f hf
  have hsize := size.toNat_lt
  rw [hdata] at hn ⊢
  rw [show (4 :: size :: value).getD 1 0 = size from rfl, toChar_eq] at hn
  rw [List.length_cons, List.length_cons, hlength]
  split at hn <;> omega

/-- **A turn gives something only to the recipient under the cursor**, which is put
back.  The other neighbours that stay are given nothing. -/
theorem takes_or_resent (hw : w.Sound) (hwhole : w.Whole) {a tmp : Nat} {now : Int}
    (hk : (after (floodTurn a now tmp) w).neighbors.owns k) :
    Takes k [] w (after (floodTurn a now tmp) w) ∨
      ∃ t, (Move.turn a now tmp).effect w = .resent t ∧ t.cell = a ∧ t.time = now ∧
        t.recipient.sym = k := by
  have hcases := floodTurn_cases a now tmp w
  generalize after (floodTurn a now tmp) w = w' at hk hcases
  cases hcases with
  | absent _ hw' =>
    subst hw'
    exact .inl (takes_of_mute (filer_mute.onFault w))
  | inactive f nw hunder _ hw' =>
    subst hw'
    refine .inl ?_
    by_cases hown : w.neighbors.owns nw.sym
    · exact takes_handleInactive hw hown hk
    · have hsame : (after uninit w).neighbors = w.neighbors := rfl
      rw [after_handleInactive, after_expire, hsame, if_neg hown]
      exact takes_of_mute (filer_mute.trans (filer_mute.onUninit w) (filer_mute.onFault _))
  | dangling _ _ _ _ _ _ hw' =>
    subst hw'
    exact .inl (takes_of_mute (filer_mute.onFault w))
  | refused f nw hunder hfive hdue hown hzero hw' =>
    have hneg : toChar (f.data.getD 1 0) + 2 < 0 := by
      by_contra hsendable
      exact (value_sendData_iff f nw.sym.toNeighbor w).mpr (not_lt.mp hsendable) hzero
    rw [hw', after_sendData_of_negative hneg]
    exact .inl (takes_of_mute (filer_mute.onFault w))
  | sent f nw hunder hfive hdue hown hone hw' =>
    have hsendable := (value_sendData_iff f nw.sym.toNeighbor w).mp hone
    by_cases hsym : nw.sym = k
    · refine .inr ⟨⟨a, now, f, nw⟩, ?_, rfl, rfl, hsym⟩
      rw [effect_turn hunder, if_neg (not_not.mpr hown), if_neg hfive, if_pos ⟨hdue, hsendable⟩]
    · -- it goes to another neighbour
      obtain ⟨n, hn⟩ := Int.eq_ofNat_of_zero_le hsendable
      have hwrite := hw.writable (fun k' hk' => List.mem_singleton.mp hk' ▸ hown)
        (List.nodup_singleton nw.sym)
      have hsend := broadcast_sendData hn (hwhole.enough (under_eq_some hunder).1 hn) hwrite
      have hmute := filer_mute.keeps_requeue a now f.symNeighbors tmp nw
        (after (sendData f.data nw.sym.toNeighbor) w)
      have hboxes := (boxes_sendData f.data nw.sym.toNeighbor w).trans
        (filer_boxes.keeps_requeue a now f.symNeighbors tmp nw _)
      rw [hw', hboxes.neighbors] at hk
      obtain ⟨hserver, hmsg⟩ := hw.apart_of_ne hown hk hsym
      have hdistinct : Distinct nw.sym k := ⟨hserver, hmsg⟩
      have hother := hsend.other fun k' hk' => List.mem_singleton.mp hk' ▸ hdistinct
      rw [hw']
      exact .inl (hother.trans (takes_of_mute hmute) hsend.grows hmute.grows)
  | early f nw hunder _ _ hw' =>
    subst hw'
    have hnone : w.since { w with nexttime := min w.nexttime nw.waitTime } = [] :=
      since_eq (List.append_nil _).symm
    refine .inl (takes_nil_iff.mpr ⟨?_, fun _ _ => rfl⟩)
    rw [hnone]
    rfl

/-- **What is transmitted is sent to the recipient under the cursor**, which is put
back. -/
theorem resent_of_issues (hw : w.Sound) (hwhole : w.Whole) {a tmp : Nat} {now : Int}
    (h : Issues a k w (after (floodTurn a now tmp) w)) :
    ∃ t, (Move.turn a now tmp).effect w = .resent t ∧ t.cell = a ∧ t.time = now ∧
      t.recipient.sym = k :=
  (takes_or_resent hw hwhole h.1).resolve_left h.not_takes

/-- The bytes that the move gives to the recipient, when it makes a transmission. -/
theorem relays_of_resent (hw : w.Sound) (hwhole : w.Whole) {m : Move} (hmove : m.Does w w')
    {t : Transmission} (ht : m.effect w = .resent t) {n : Nat}
    (hn : toChar (t.flood.data.getD 1 0) + 2 = n) :
    Relays t.recipient.sym (t.flood.data.take n) w w' := by
  obtain ⟨tmp, hturn, hunder, hown, hfive, hdue, -⟩ := effect_resent ht
  have hsends : m.sends w = some t := by
    rw [hturn]
    simp [Move.sends, hunder, hown, hfive, hdue]
  have hlog := (sends_sendData t.flood.data t.recipient.sym.toNeighbor w).toLater.elapsed.log
  rw [relays_mute_iff hlog (after_of_sends hsends hmove)]
  exact relays_sendData hw hown hn (hwhole.enough (under_eq_some hunder).1 hn)

/-- **A recipient that is put back has been sent the datum**, unless `send_data` takes
no byte of it. -/
theorem issues_of_resent (hw : w.Sound) (hr : w.Register) (hwhole : w.Whole) {m : Move}
    (hmove : m.Does w w') {t : Transmission} (ht : m.effect w = .resent t)
    (hsome : toChar (t.flood.data.getD 1 0) + 2 ≠ 0) :
    Issues t.cell t.recipient.sym w w' := by
  obtain ⟨tmp, hturn, hunder, hown, -, -, hsendable⟩ := effect_resent ht
  obtain ⟨n, hn⟩ := Int.eq_ofNat_of_zero_le hsendable
  have hat := (under_eq_some hunder).1
  have henough := hwhole.enough hat hn
  have howns : w'.neighbors.owns t.recipient.sym := by
    rcases hmove.owns hw hr hown with howns | ⟨peer, hgone, -⟩
    · exact howns
    · cases ht.symm.trans hgone
  refine ⟨howns, t.flood, hat, n - 1, by omega, ?_⟩
  rw [Nat.sub_add_cancel (by omega)]
  exact relays_of_resent hw hwhole hmove ht hn

end FloodPeer
