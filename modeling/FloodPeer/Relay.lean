/-
FloodPeer/Relay.lean

The bytes of a datum, from `add_message_to_flood` to `sendto`.

An entry of `DATAF` keeps the TLV that it was made of.  `send_data` reads the
length byte of that TLV as a `char`: up to 127 the bytes go to the recipient as
they came, and above that they never do (`relays_iff`).
-/
import FloodPeer.Batching
import FloodPeer.Flooding

namespace FloodPeer

open Octets StateLogic Runs

/-! ### What a neighbour is to be sent -/

/-- `bytes` go to the neighbour `k`: at once when it has no message of its own,
and otherwise behind what is waiting for it, which is sent first when there is
no room. -/
def Relays (k : NeighborPtr) (bytes : List UInt8) (w w' : World) : Prop :=
  match k.msg with
  | none => sentTo (neighborToSockaddr6 k.toNeighbor) (w.since w') = [datagram bytes]
  | some _ =>
    (w'.pending k.toNeighbor = w.pending k.toNeighbor ++ bytes ∧
      sentTo (neighborToSockaddr6 k.toNeighbor) (w.since w') = []) ∨
    (w'.pending k.toNeighbor = bytes ∧
      sentTo (neighborToSockaddr6 k.toNeighbor) (w.since w') =
        [datagram (w.pending k.toNeighbor)])

instance (k : NeighborPtr) (bytes : List UInt8) (w w' : World) :
    Decidable (Relays k bytes w w') := by
  unfold Relays; split <;> infer_instance

variable {k : NeighborPtr} {bytes bytes' : List UInt8} {w u w' : World}

theorem relays_iff_of_none (hmsg : k.msg = none) : Relays k bytes w w' ↔
    sentTo (neighborToSockaddr6 k.toNeighbor) (w.since w') = [datagram bytes] := by
  unfold Relays
  rw [hmsg]

theorem relays_iff_of_some {a : Nat} (hmsg : k.msg = some a) : Relays k bytes w w' ↔
    (w'.pending k.toNeighbor = w.pending k.toNeighbor ++ bytes ∧
      sentTo (neighborToSockaddr6 k.toNeighbor) (w.since w') = []) ∨
    (w'.pending k.toNeighbor = bytes ∧
      sentTo (neighborToSockaddr6 k.toNeighbor) (w.since w') =
        [datagram (w.pending k.toNeighbor)]) := by
  unfold Relays
  rw [hmsg]

/-- No others go to it. -/
theorem Relays.unique (h : Relays k bytes w w') (h' : Relays k bytes' w w') : bytes = bytes' := by
  cases hmsg : k.msg with
  | none =>
    rw [relays_iff_of_none hmsg] at h h'
    have hsame : datagram bytes = datagram bytes' := List.singleton_inj.mp (h.symm.trans h')
    rw [← drop_datagram bytes, hsame, drop_datagram]
  | some a =>
    rw [relays_iff_of_some hmsg] at h h'
    rcases h with ⟨hpending, hsent⟩ | ⟨hpending, hsent⟩ <;>
      rcases h' with ⟨hpending', hsent'⟩ | ⟨hpending', hsent'⟩
    · exact List.append_cancel_left (hpending.symm.trans hpending')
    · cases hsent.symm.trans hsent'
    · cases hsent.symm.trans hsent'
    · exact hpending.symm.trans hpending'

/-- When nothing happens, nothing is relayed. -/
theorem not_relays_of_same (hpending : w'.pending k.toNeighbor = w.pending k.toNeighbor)
    (hsent : sentTo (neighborToSockaddr6 k.toNeighbor) (w.since w') = []) (hbytes : bytes ≠ []) :
    ¬ Relays k bytes w w' := by
  intro h
  cases hmsg : k.msg with
  | none =>
    rw [relays_iff_of_none hmsg] at h
    cases hsent.symm.trans h
  | some a =>
    rw [relays_iff_of_some hmsg] at h
    rcases h with ⟨happend, -⟩ | ⟨-, hfull⟩
    · rw [hpending] at happend
      exact hbytes (List.append_cancel_left ((List.append_nil _).trans happend)).symm
    · cases hsent.symm.trans hfull

/-- It only depends on the messages and on the log. -/
theorem Relays.of_same (h : Relays k bytes u w') (hmsgs : u.msgs = w.msgs)
    (hlog : u.log = w.log) : Relays k bytes w w' := by
  unfold Relays World.pending World.since at h ⊢
  rw [← hmsgs, ← hlog]
  exact h

/-- `send_message` relays the body that it is given. -/
theorem relays_sendMessage (hw : w.Sound) (hown : w.neighbors.owns k) {body : Mem} {size : Nat}
    (hsize : size ≤ pmtu - 4) : Relays k (Octets.read body 0 size) w
      (after (sendMessage (messageOf body size) (size + 4) k.toNeighbor) w) := by
  have hp := pmtu_eq
  have hdeclared := @declared_messageOf body size (by omega)
  have hcontent := @content_messageOf body size (by omega)
  cases hmsg : k.msg with
  | none =>
    rw [relays_iff_of_none hmsg, sendMessage_direct hmsg, since_eq rfl]
    rw [@bytes_messageOf body size (by omega)]
    simp [sentTo]
  | some a =>
    obtain ⟨e, he, rfl⟩ := List.mem_map.mp hown
    obtain ⟨-, m, hm, hbox⟩ := hw.box e he a hmsg
    have hroom := hbox.room
    rw [relays_iff_of_some hmsg, pending_of_content hmsg hm]
    by_cases hfull : m.declared + size > pmtu - 4
    · right
      rw [sendMessage_flush hmsg hm (by rw [hdeclared]; exact hfull)
        (by rw [hdeclared]; exact hsize)]
      constructor
      · rw [pending_of_content hmsg (if_pos rfl), content_put_zero _ (by
          rw [length_content, hdeclared]; omega), hcontent]
      · rw [since_eq rfl, bytes_eq_datagram hbox.magic hbox.version]
        simp [sentTo]
    · left
      rw [sendMessage_append hmsg hm (by rw [hdeclared]; exact Nat.not_lt.mp hfull)]
      constructor
      · rw [pending_of_content hmsg (if_pos rfl), content_put_append _ (by
          rw [length_content, hdeclared]; omega), hcontent]
      · rw [since_eq rfl]
        simp [sentTo]

/-! ### `send_data` -/

/-- `send_data` is `send_message` with as many bytes of the TLV as its length
byte, read as a `char`, announces. -/
theorem after_sendData {tlv : List UInt8} {n : Nat} (hn : toChar (tlv.getD 1 0) + 2 = n)
    (key : Neighbor) (w : World) : after (sendData tlv key) w = after (sendMessage
      (messageOf (write w.memory.head 0 (tlv.take n)) n) (n + 4) key) (after uninit w) := by
  have hu16 : (toU16 ((n : Int) + 4)).toNat = n + 4 := by
    have hchar := toChar_lt (tlv.getD 1 0)
    unfold toU16
    rw [UInt16.toNat_ofNat']
    omega
  unfold sendData
  extract_lets bodyLength msgLength
  have hbodyLength : bodyLength = n := hn
  have hmsgLength : msgLength.toNat = n + 4 := by
    rw [← hu16, ← hbodyLength]
  rw [hbodyLength, hmsgLength, if_neg (not_lt.mpr (Int.natCast_nonneg n))]
  rfl

/-- These bytes are relayed. -/
theorem relays_sendData (hw : w.Sound) (hown : w.neighbors.owns k) {tlv : List UInt8} {n : Nat}
    (hn : toChar (tlv.getD 1 0) + 2 = n) (hlength : n ≤ tlv.length) :
    Relays k (tlv.take n) w (after (sendData tlv k.toNeighbor) w) := by
  have hp := pmtu_eq
  have hsmall : n ≤ pmtu - 4 := by
    have hchar := toChar_lt (tlv.getD 1 0)
    omega
  have hbody : Octets.read (write w.memory.head 0 (tlv.take n)) 0 n = tlv.take n :=
    read_write_eq _ _ (by rw [List.length_take, Nat.min_eq_left hlength])
  have hu : (after uninit w).Sound := hw.of_boxes (quiet_uninit w).idle.boxes
  have hrelays := @relays_sendMessage k (after uninit w) hu hown
    (write w.memory.head 0 (tlv.take n)) n hsmall
  rw [hbody] at hrelays
  rw [after_sendData hn]
  exact hrelays.of_same rfl rfl

/-- A negative length. -/
theorem after_sendData_of_negative {tlv : List UInt8} (h : toChar (tlv.getD 1 0) + 2 < 0)
    (key : Neighbor) (w : World) : after (sendData tlv key) w = after (note .fault) w := by
  unfold sendData
  extract_lets bodyLength
  rw [if_pos h]
  rfl

/-- Nothing is relayed then. -/
theorem not_relays_of_negative {tlv : List UInt8} (h : toChar (tlv.getD 1 0) + 2 < 0)
    (hbytes : bytes ≠ []) : ¬ Relays k bytes w (after (sendData tlv k.toNeighbor) w) := by
  have hsince : w.since (after (note .fault) w) = [.fault] := since_eq rfl
  rw [after_sendData_of_negative h]
  refine not_relays_of_same ?_ ?_ hbytes
  · rfl
  · rw [hsince]
    rfl

/-! ### What an entry is made of -/

/-- The move `x` has put the value `buf[0..size)` into the cell `a`. -/
def FiledBy (x : World × Move) (a : Nat) (buf : Mem) (size : UInt8) : Prop :=
  x.2.given x.1 = some (buf, size) ∧ x.1.next ≤ a ∧ ((x.2.act x.1).floodAt a).isSome

/-- Relisting keeps the data. -/
theorem Relists.floodAt {m : Move} (h : Relists m w w') {a : Nat} {f' : FloodEntry}
    (hf' : w'.floodAt a = some f') : ∃ f, w.floodAt a = some f ∧ f'.data = f.data := by
  have hrelist : ∃ g, w'.dataf = w.dataf.relist g := by
    cases h with
    | nothing _ hdataf => exact ⟨fun _ f => f.symNeighbors, by rw [hdataf, relist_self]⟩
    | answered _ _ _ hdataf => exact ⟨_, hdataf⟩
    | gone _ _ hdataf => exact ⟨_, hdataf⟩
    | resent _ _ _ hdataf => exact ⟨_, hdataf⟩
  obtain ⟨g, hdataf⟩ := hrelist
  rw [floodAt_of_relist hdataf] at hf'
  obtain ⟨f, hf, rfl⟩ := Option.map_eq_some_iff.mp hf'
  exact ⟨f, hf, rfl⟩

/-- **One move.**  An entry keeps its data; a new one is made of the value that
the move hands over. -/
theorem Move.Does.data {m : Move} (h : m.Does w w') (hw : w.Sound) (hr : w.Register) {a : Nat}
    {f' : FloodEntry} (hf' : w'.floodAt a = some f') :
    (∃ f, w.floodAt a = some f ∧ f'.data = f.data) ∨
    (w.next ≤ a ∧ ∃ v, m.given w = some v ∧
      f'.data = 4 :: v.2 :: Octets.read v.1 0 v.2.toNat) := by
  obtain ⟨hr', hfiles⟩ := h.files hw hr
  cases hgiven : m.given w with
  | none =>
    rw [hgiven] at hfiles
    exact .inl (Relists.floodAt hfiles hf')
  | some v =>
    rw [hgiven] at hfiles
    rcases hfiles.1.floodAt hr hr' hf' with hold | ⟨hlo, l, -, rfl⟩
    · exact .inl ⟨f', hold, rfl⟩
    · exact .inr ⟨hlo, v, rfl, rfl⟩

/-- The data of the entries of `DATAF` are whole TLVs. -/
def World.Whole (w : World) : Prop :=
  ∀ a f, w.floodAt a = some f → ∃ size value, f.data = 4 :: size :: value ∧
    value.length = size.toNat

theorem whole_of_initial (h : w.Initial) : w.Whole := by
  intro a f hf
  unfold World.floodAt at hf
  rw [h.dataf] at hf
  cases hf

theorem Move.Does.whole {m : Move} (h : m.Does w w') (hw : w.Sound) (hr : w.Register)
    (hwhole : w.Whole) : w'.Whole := by
  intro a f' hf'
  rcases h.data hw hr hf' with ⟨f, hf, hdata⟩ | ⟨-, v, -, hdata⟩
  · rw [hdata]
    exact hwhole a f hf
  · exact ⟨v.2, _, hdata, length_read _ _ _⟩

/-- The cell of an entry is in use from then on. -/
theorem FiledBy.lt {x : World × Move} {a : Nat} {buf : Mem} {size : UInt8}
    (h : FiledBy x a buf size) {w₀ : World} {tr : List (World × Move)} (hinit : w₀.Initial)
    (hrun : Run Move.Does w₀ tr w) (hx : x ∈ tr) : a < w.next := by
  obtain ⟨hgiven, -, hsome⟩ := h
  obtain ⟨tr₁, tr₂, rfl⟩ := List.append_of_mem hx
  obtain ⟨hrun₁, u, hmove, hrun₂⟩ := hrun.split_cons
  have hx' := register_of_run hrun₁ (sound_of_initial hinit) (register_of_initial hinit)
  have hact : u = x.2.act x.1 := by
    apply Move.Does.eq_act hmove
    intro hidle
    rw [hidle] at hgiven
    cases hgiven
  obtain ⟨f, hf⟩ := Option.isSome_iff_exists.mp hsome
  rw [← hact] at hf
  exact lt_of_lt_of_le (floodAt_lt (Move.Does.files hmove hx'.1 hx'.2).1 hf)
    (elapsed_of_run hrun₂).next

/-- In every run the entries consist of what they were made of. -/
theorem data_of_run {w₀ : World} {tr : List (World × Move)} (hinit : w₀.Initial)
    (hrun : Run Move.Does w₀ tr w) {x : World × Move} (hx : x ∈ tr) {a : Nat} {buf : Mem}
    {size : UInt8} (hfiled : FiledBy x a buf size) {f : FloodEntry} (hf : w.floodAt a = some f) :
    f.data = 4 :: size :: Octets.read buf 0 size.toNat := by
  induction hrun generalizing f with
  | nil => cases hx
  | @snoc tr v w m hrun hmove ih =>
    obtain ⟨hv, hr⟩ := register_of_run hrun (sound_of_initial hinit) (register_of_initial hinit)
    rcases List.mem_append.mp hx with hx | hx
    · rcases hmove.data hv hr hf with ⟨f₀, hf₀, hdata⟩ | ⟨hlo, -⟩
      · exact hdata.trans (ih hx hf₀)
      · exact absurd (hfiled.lt hinit hrun hx) (not_lt.mpr hlo)
    · obtain rfl := List.mem_singleton.mp hx
      obtain ⟨hgiven, hlo, -⟩ := hfiled
      rcases hmove.data hv hr hf with ⟨f₀, hf₀, -⟩ | ⟨-, v', hgiven', hdata⟩
      · exact absurd (floodAt_lt hr hf₀) (not_lt.mpr hlo)
      · obtain rfl := Option.some.inj (hgiven.symm.trans hgiven')
        exact hdata

/-! ### One transmission -/

/-- The datum that the move hands to `send_data`. -/
def Move.sends (m : Move) (w : World) : Option Transmission :=
  match m with
  | .turn flood currentTime tmp =>
    match w.under flood tmp with
    | none => none
    | some (f, nw) =>
      if w.neighbors.owns nw.sym ∧ nw.timesSent ≠ 5 ∧ nw.waitTime ≤ currentTime then
        some ⟨flood, currentTime, f, nw⟩
      else none
  | _ => none

/-- Nothing is gathered or sent. -/
structure Mute (w w' : World) : Prop where
  msgs : w'.msgs = w.msgs
  faults : Faults w w'

theorem filer_mute : Filer Mute where
  refl := fun w => ⟨rfl, filer_faults.refl w⟩
  trans := fun h₁ h₂ => ⟨h₂.msgs.trans h₁.msgs, filer_faults.trans h₁.faults h₂.faults⟩
  onMalloc := fun w => by
    refine ⟨?_, filer_faults.onMalloc w⟩
    cases h : w.mallocs.head with
    | true => rw [(malloc_of_true h).2]
    | false => rw [(malloc_of_false h).2]
  onGetSeconds := fun w => ⟨rfl, filer_faults.onGetSeconds w⟩
  onRand := fun w => ⟨rfl, filer_faults.onRand w⟩
  onUninit := fun w => ⟨rfl, filer_faults.onUninit w⟩
  onFault := fun w => ⟨rfl, filer_faults.onFault w⟩
  onSetSyms := fun cell l w => ⟨rfl, filer_faults.onSetSyms cell l w⟩

/-- What follows a transmission does not count. -/
theorem relays_mute_iff (hlog : w.log <+: u.log) (h : Mute u w') :
    Relays k bytes w w' ↔ Relays k bytes w u := by
  obtain ⟨ext, hext, hafter⟩ := h.faults
  have hsince : w.since w' = w.since u ++ ext := by
    rw [log_eq_since hlog, List.append_assoc] at hafter
    exact since_eq hafter
  have hnone : ∀ server, sentTo server ext = [] := by
    intro server
    apply List.filterMap_eq_nil_iff.mpr
    intro o ho
    rw [hext o ho]
  unfold Relays World.pending
  simp only [hsince, sentTo_append, hnone, List.append_nil, h.msgs]

theorem sends_eq_some {m : Move} {t : Transmission} (h : m.sends w = some t) :
    ∃ tmp, m = .turn t.cell t.time tmp ∧ w.under t.cell tmp = some (t.flood, t.recipient) ∧
      w.neighbors.owns t.recipient.sym ∧ t.recipient.timesSent ≠ 5 ∧
      t.recipient.waitTime ≤ t.time := by
  cases m with
  | turn flood currentTime tmp =>
    unfold Move.sends at h
    dsimp only at h
    cases hunder : w.under flood tmp with
    | none =>
      rw [hunder] at h
      cases h
    | some p =>
      rw [hunder] at h
      obtain ⟨hcond, ht⟩ := Option.ite_none_right_eq_some.mp h
      obtain rfl := Option.some.inj ht
      exact ⟨tmp, rfl, hunder, hcond⟩
  | _ => cases h

/-- A transmission is a call of `send_data`. -/
theorem after_of_sends {m : Move} {t : Transmission} (h : m.sends w = some t)
    (hmove : m.Does w w') :
    Mute (after (sendData t.flood.data t.recipient.sym.toNeighbor) w) w' := by
  obtain ⟨tmp, rfl, hunder, hown, hfive, hdue⟩ := sends_eq_some h
  rw [show w' = after (floodTurn t.cell t.time tmp) w from hmove, after_floodTurn hunder,
    if_neg hfive, if_pos hdue, if_pos hown]
  split
  · exact filer_mute.refl _
  · exact filer_mute.keeps_requeue _ _ _ _ _ _

/-- The value of a `char`. -/
theorem toChar_eq (b : UInt8) :
    toChar b = if b.toNat < 128 then (b.toNat : Int) else (b.toNat : Int) - 256 := by
  have hb := b.toNat_lt
  unfold toChar Int.bmod
  extract_lets r
  split <;> split <;> omega

/-- **A datum is relayed byte for byte when its length is at most 127**, and
never when it is more. -/
theorem relays_iff {w₀ : World} {tr : List (World × Move)} {m : Move} (hinit : w₀.Initial)
    (hrun : Run Move.Does w₀ tr w) (hmove : m.Does w w') {t : Transmission}
    (hsends : m.sends w = some t) {x : World × Move} (hx : x ∈ tr) {buf : Mem} {size : UInt8}
    (hfiled : FiledBy x t.cell buf size) :
    Relays t.recipient.sym (4 :: size :: Octets.read buf 0 size.toNat) w w' ↔
      size.toNat ≤ 127 := by
  obtain ⟨hw, -⟩ := register_of_run hrun (sound_of_initial hinit) (register_of_initial hinit)
  obtain ⟨tmp, -, hunder, hown, -⟩ := sends_eq_some hsends
  have hmute := after_of_sends hsends hmove
  have hdata := data_of_run hinit hrun hx hfiled (under_eq_some hunder).1
  have hlength : (4 :: size :: Octets.read buf 0 size.toNat).length = size.toNat + 2 := by
    rw [List.length_cons, List.length_cons, length_read]
  have hlog := (sends_sendData t.flood.data t.recipient.sym.toNeighbor w).toLater.elapsed.log
  have hsize := size.toNat_lt
  have hchar := toChar_eq size
  have hbyte : t.flood.data.getD 1 0 = size := by
    rw [hdata]
    rfl
  rw [relays_mute_iff hlog hmute]
  constructor
  · intro hrelays
    by_contra hlong
    rw [if_neg (by omega)] at hchar
    by_cases hhuge : toChar size + 2 < 0
    · rw [← hbyte] at hhuge
      exact not_relays_of_negative hhuge (List.cons_ne_nil _ _) hrelays
    · -- at most one byte is taken
      have hn : toChar (t.flood.data.getD 1 0) + 2 = (size.toNat - 254 : Nat) := by
        rw [hbyte]
        omega
      have hfew := relays_sendData hw hown hn (by rw [hdata, hlength]; omega)
      have hsame := congrArg List.length (hrelays.unique hfew)
      rw [hlength, List.length_take] at hsame
      omega
  · -- the sign bit is not set, and the size is right
    intro hshort
    rw [if_pos (by omega)] at hchar
    have hn : toChar (t.flood.data.getD 1 0) + 2 = (size.toNat + 2 : Nat) := by
      rw [hbyte]
      omega
    have hall := relays_sendData hw hown hn (by rw [hdata, hlength])
    rw [← hlength, ← hdata, List.take_length] at hall
    rw [← hdata]
    exact hall

/-! ### Two lengths -/

/-- There is one symmetrical neighbour. -/
def oneNeighbour : World := actAll [longHello 7] (bootAt 0)

/-- A datum of `size` zeros comes from another peer. -/
def zeros (size : UInt8) : Move := .tlv 4 (fun _ => 0) size other

/-- The datum is sent to the neighbour. -/
def sendZeros : Move := .turn 10 10 7

/-- What is sent from a new cell has been filed there by the last move. -/
theorem filedBy_of_sends {buf : Mem} {size : UInt8} {client : Sockaddr}
    (hnew : w.dataf.foundAt (indexAt buf) = none) {m : Move} {t : Transmission}
    (ht : m.sends ((Move.tlv 4 buf size client).act w) = some t) (hlo : w.next ≤ t.cell) :
    FiledBy (w, .tlv 4 buf size client) t.cell buf size := by
  obtain ⟨tmp, -, hunder, -⟩ := sends_eq_some ht
  refine ⟨if_pos ⟨rfl, hnew⟩, hlo, ?_⟩
  show (((Move.tlv 4 buf size client).act w).floodAt t.cell).isSome
  rw [(under_eq_some hunder).1]
  rfl

theorem filedBy_sendZeros {size : UInt8} {t : Transmission}
    (ht : sendZeros.sends ((zeros size).act oneNeighbour) = some t) :
    FiledBy (oneNeighbour, zeros size) t.cell (fun _ => 0) size := by
  obtain ⟨tmp, hturn, -⟩ := sends_eq_some ht
  apply filedBy_of_sends (by decide +kernel) ht
  rw [← (Move.turn.inj hturn).1]
  decide +kernel

/-- Fourteen bytes are relayed. -/
theorem relays_fourteen : ∃ t, sendZeros.sends ((zeros 14).act oneNeighbour) = some t ∧
    Relays t.recipient.sym (4 :: 14 :: Octets.read (fun _ => 0) 0 (14 : UInt8).toNat)
      ((zeros 14).act oneNeighbour) (sendZeros.act ((zeros 14).act oneNeighbour)) := by
  obtain ⟨t, ht⟩ : ∃ t, sendZeros.sends ((zeros 14).act oneNeighbour) = some t :=
    Option.isSome_iff_exists.mp (by decide +kernel)
  have hrun := (run_actAll [longHello 7] (bootAt 0)).snoc ((zeros 14).does_act oneNeighbour)
  refine ⟨t, ht, ?_⟩
  apply (relays_iff (initial_boot _) hrun (sendZeros.does_act _) ht _ (filedBy_sendZeros ht)).mpr
  · decide
  · exact List.mem_append_right _ List.mem_cons_self

/-- Of a datum of 255 bytes the type alone is sent. -/
theorem not_relays_full : ∃ t, sendZeros.sends ((zeros 255).act oneNeighbour) = some t ∧
    FiledBy (oneNeighbour, zeros 255) t.cell (fun _ => 0) 255 ∧
    ¬ Relays t.recipient.sym (4 :: 255 :: Octets.read (fun _ => 0) 0 (255 : UInt8).toNat)
      ((zeros 255).act oneNeighbour) (sendZeros.act ((zeros 255).act oneNeighbour)) := by
  let k : NeighborPtr := { sockaddr6ToNeighbor remote with msg := some 1, addr := 4 }
  obtain ⟨t, ht, hk⟩ : ∃ t, sendZeros.sends ((zeros 255).act oneNeighbour) = some t ∧
      t.recipient.sym = k :=
    Option.map_eq_some_iff.mp (by decide +kernel)
  have hfew : Relays k [4] ((zeros 255).act oneNeighbour)
      (sendZeros.act ((zeros 255).act oneNeighbour)) := by
    decide +kernel
  refine ⟨t, ht, filedBy_sendZeros ht, ?_⟩
  rw [hk]
  intro hall
  cases hall.unique hfew

end FloodPeer
