/-
FloodPeer/Values.lean

What the handlers look at in the value of a TLV.

A handler gets the shared buffer and the declared length of its TLV, and nobody
checks that the length is enough for what it reads.  For each handler the list
of its reads and of the byte counts it passes on is computed (`valued_hello` to
`valued_warning`); from these lists it follows when a handler keeps to its own
value (`usesOwn_iff`), and that it then acts on the value alone.
-/
import FloodPeer.Parser

namespace FloodPeer

open Octets StateLogic

/-! ### Reads and counts -/

/-- The reads of a handler stay inside a value of `length` bytes, and the
counts it passes on are not larger. -/
structure Own (length : Nat) (obs : List Obs) : Prop where
  reads : ∀ off n, .valueRead off n ∈ obs → ∀ i < n, off + i < length
  counts : ∀ n : Int, .count n ∈ obs → 0 ≤ n ∧ n ≤ length

section Own

variable {length : Nat} {obs : List Obs}

theorem own_nil : Own length [] := ⟨nofun, nofun⟩

theorem own_append_iff {obs' : List Obs} :
    Own length (obs ++ obs') ↔ Own length obs ∧ Own length obs' := by
  constructor
  · intro h
    exact ⟨⟨fun off n hr => h.reads off n (List.mem_append_left _ hr),
        fun n hc => h.counts n (List.mem_append_left _ hc)⟩,
      ⟨fun off n hr => h.reads off n (List.mem_append_right _ hr),
        fun n hc => h.counts n (List.mem_append_right _ hc)⟩⟩
  · rintro ⟨h, h'⟩
    exact ⟨fun off n hr => (List.mem_append.mp hr).elim (h.reads off n) (h'.reads off n),
      fun n hc => (List.mem_append.mp hc).elim (h.counts n) (h'.counts n)⟩

theorem own_cons_iff {o : Obs} : Own length (o :: obs) ↔ Own length [o] ∧ Own length obs :=
  @own_append_iff length [o] obs

theorem own_read_iff (off n : Nat) :
    Own length [.valueRead off n] ↔ ∀ i < n, off + i < length := by
  constructor
  · intro h
    exact h.reads off n (by simp)
  · intro hreads
    refine ⟨fun off' n' hr => ?_, by simp⟩
    obtain ⟨rfl, rfl⟩ : off' = off ∧ n' = n := by simpa using hr
    exact hreads

theorem own_count_iff (n : Int) : Own length [.count n] ↔ 0 ≤ n ∧ n ≤ length := by
  constructor
  · intro h
    exact h.counts n (by simp)
  · intro hcount
    refine ⟨by simp, fun n' hc => ?_⟩
    obtain rfl : n' = n := by simpa using hc
    exact hcount

/-- Only the observations about the value matter. -/
theorem own_filter_iff : Own length (obs.filter Obs.ofValue) ↔ Own length obs := by
  constructor
  · intro h
    exact ⟨fun off n hr => h.reads off n (by simp [hr, Obs.ofValue]),
      fun n hc => h.counts n (by simp [hc, Obs.ofValue])⟩
  · intro h
    exact ⟨fun off n hr => h.reads off n (List.mem_of_mem_filter hr),
      fun n hc => h.counts n (List.mem_of_mem_filter hc)⟩

end Own

/-- The observations about values in the log. -/
def World.valued (w : World) : List Obs := w.log.filter Obs.ofValue

theorem valued_note (o : Obs) (w : World) :
    (after (note o) w).valued = w.valued ++ if o.ofValue then [o] else [] := by
  unfold World.valued
  rw [after_note, List.filter_append]
  cases h : o.ofValue <;> simp [h]

theorem Later.valued {w w' : World} (h : Later w w') : w'.valued = w.valued := by
  obtain ⟨ext, hext, hnone⟩ := h.log
  have hfilter : ext.filter Obs.ofValue = [] := by
    rw [List.filter_eq_nil_iff]
    intro o ho
    have hinput := hnone o ho
    unfold Obs.ofInput at hinput
    simp_all
  unfold World.valued
  rw [hext, List.filter_append, hfilter, List.append_nil]

theorem own_since_iff {length : Nat} {w w' : World} {ext : List Obs} (h : w.log <+: w'.log)
    (hvalued : w'.valued = w.valued ++ ext) : Own length (w.since w') ↔ Own length ext := by
  have hlog := congrArg (List.filter Obs.ofValue) (log_eq_since h)
  rw [List.filter_append] at hlog
  rw [← own_filter_iff, List.append_cancel_left (hlog.symm.trans hvalued)]

/-! ### What each handler looks at -/

theorem valued_hello (tlv : Mem) (length : UInt8) (peer : Neighbor) (w : World) :
    (after (hello tlv length peer) w).valued =
      w.valued ++ .valueRead 0 8 :: if length = 16 then [.valueRead 8 8] else [] := by
  unfold hello
  simp only [after_bind, after_ite]
  by_cases h16 : length = 16
  · rw [if_pos h16, if_pos h16]
    split
    · rw [(later_acceptHello _ _ _).valued, after_get, valued_note, valued_note,
        (quiet_getSeconds w).toLater.valued]
      simp [Obs.ofValue]
    · rw [after_pure, after_get, valued_note, valued_note, (quiet_getSeconds w).toLater.valued]
      simp [Obs.ofValue]
  · rw [if_neg h16, if_neg h16, (later_acceptHello _ _ _).valued, valued_note,
      (quiet_getSeconds w).toLater.valued]
    simp [Obs.ofValue]

theorem valued_neighbour (tlv : Mem) (length : UInt8) (peer : Neighbor) (w : World) :
    (after (neighbour tlv length peer) w).valued =
      w.valued ++ [.valueRead 0 16, .valueRead 16 2] := by
  unfold neighbour
  simp only [after_bind, value_get, after_get]
  split
  · rw [after_pure, valued_note, valued_note]
    simp [Obs.ofValue]
  · simp only [after_bind, after_pure]
    rw [(registrar_later.keeps_addPotential _ _ _).valued, (quiet_getSeconds _).toLater.valued,
      valued_note, valued_note]
    simp [Obs.ofValue]

theorem valued_ack (tlv : Mem) (length : UInt8) (peer : Neighbor) (w : World) :
    (after (ack tlv length peer) w).valued = w.valued ++ [.valueRead 0 8, .valueRead 8 4] := by
  unfold ack
  simp only [after_bind, after_pure]
  rw [(filer_later.keeps_removeNeighborFromFlood _ _ _).valued, valued_note, valued_note]
  simp [Obs.ofValue]

theorem valued_writeText (tlv : Mem) (length : UInt8) (w : World) :
    (after (writeText tlv length) w).valued =
      w.valued ++ .count ((length.toNat : Int) - 1) ::
        if length = 0 then [] else [.valueRead 1 (length.toNat - 1)] := by
  unfold writeText
  simp only [after_bind, after_ite]
  by_cases h0 : length = 0
  · rw [if_pos h0, if_pos h0, valued_note, valued_note]
    simp [Obs.ofValue]
  · rw [if_neg h0, if_neg h0, valued_note, valued_note, valued_note]
    simp [Obs.ofValue]

theorem valued_goaway (tlv : Mem) (length : UInt8) (peer : Neighbor) (w : World) :
    (after (goaway tlv length peer) w).valued =
      w.valued ++ .valueRead 0 1 :: .count ((length.toNat : Int) - 1) ::
        if length = 0 then [] else [.valueRead 1 (length.toNat - 1)] := by
  unfold goaway
  simp only [after_bind, after_pure]
  rw [(later_removeNeighborEverywhere _ _).valued, valued_writeText, valued_note, valued_note]
  simp [Obs.ofValue]

theorem valued_warning (tlv : Mem) (length : UInt8) (peer : Neighbor) (w : World) :
    (after (warning tlv length peer) w).valued =
      w.valued ++ [.count length.toNat, .valueRead 0 length.toNat] := by
  unfold warning
  simp only [after_bind]
  rw [valued_note, valued_note, valued_note]
  simp [Obs.ofValue]

theorem valued_printOnScreen (data : Mem) {off size : Nat} (hsize : size < 2 ^ 63)
    (hoff : 0 < off) (w : World) :
    (after (printOnScreen data off size) w).valued =
      w.valued ++ [.valueRead off size, .valueRead (off + size - 1) 1] := by
  unfold printOnScreen
  have hlt : ¬ size ≥ 2 ^ 63 := by omega
  have hne : ¬ off + size = 0 := by omega
  simp only [after_bind, after_ite, if_neg hlt, if_neg hne]
  split <;> simp [World.valued, Obs.ofValue] <;> rfl

/-- `add_message_to_flood` reads the identifier, the nonce and, when there is
memory for the list of neighbours, the whole value. -/
theorem valued_addMessageToFlood (msgSend : Mem) (size : UInt8)
    (toDelete : Option NeighborPtr) (w : World) :
    ∃ ext, (ext = [] ∨ ext = [.valueRead 0 size.toNat]) ∧
      (after (addMessageToFlood msgSend size toDelete) w).valued =
        w.valued ++ .valueRead 0 8 :: .valueRead 8 4 :: ext := by
  unfold addMessageToFlood
  simp only [after_bind, value_get, after_get]
  generalize hu : after (note (.valueRead 8 4)) (after (note (.valueRead 0 8)) w) = u
  have hvalued : u.valued = w.valued ++ [.valueRead 0 8, .valueRead 8 4] := by
    rw [← hu, valued_note, valued_note]
    simp [Obs.ofValue]
  cases value (getSymmetrical u.neighbors) u with
  | none =>
    refine ⟨[], .inl rfl, ?_⟩
    rw [after_pure, (primitive_quiet.keeps_getSymmetrical _ _).toLater.valued, hvalued]
  | some symmetric =>
    refine ⟨_, .inr rfl, ?_⟩
    simp only [after_bind, value_get, after_get]
    change (after (addLimited malloc _ _ _) _).valued = _
    rw [(primitive_quiet.keeps_addLimited _ _ _ _).toLater.valued,
      (primitive_quiet.keeps_initFlood _ _ _ _).toLater.valued,
      valued_note, (primitive_quiet.keeps_getSymmetrical _ _).toLater.valued, hvalued]
    simp [Obs.ofValue]

theorem toSize_sub {length k : Nat} (hk : k ≤ length) (hlength : length < 2 ^ 64) :
    toSize ((length : Int) - k) = length - k := by
  unfold toSize
  omega

/-- What `newData` looks at behind the copy it floods. -/
theorem valued_newData (tlv : Mem) (length : UInt8) (peer : Neighbor) (w : World) :
    ∃ ext, (ext = [] ∨ ext = [Obs.valueRead 0 length.toNat]) ∧
      ∃ rest, (after (newData tlv length peer) w).valued =
          w.valued ++ Obs.count length.toNat :: Obs.valueRead 0 8 :: Obs.valueRead 8 4 ::
            (ext ++ Obs.valueRead 12 1 :: rest) ∧
        (13 ≤ length.toNat → rest = [] ∨ rest =
          [Obs.count ((length.toNat : Int) - 13), Obs.valueRead 13 (length.toNat - 13),
            Obs.valueRead (13 + (length.toNat - 13) - 1) 1]) := by
  obtain ⟨ext, hext, hflood⟩ :=
    valued_addMessageToFlood tlv length (some peer.ptr) (after (note (.count length.toNat)) w)
  refine ⟨ext, hext, ?_⟩
  unfold newData
  simp only [after_bind, after_ite]
  generalize hu : after (note (.valueRead 12 1)) (after (addMessageToFlood tlv length
    (some peer.ptr)) (after (note (.count length.toNat)) w)) = u
  have hvalued : u.valued = w.valued ++ Obs.count length.toNat :: Obs.valueRead 0 8 ::
      Obs.valueRead 8 4 :: (ext ++ [Obs.valueRead 12 1]) := by
    rw [← hu, valued_note, hflood, valued_note]
    simp [Obs.ofValue]
  by_cases htype : typeAt tlv = 0
  · rw [if_pos htype]
    by_cases h13 : 13 ≤ length.toNat
    · have hlt := length.toNat_lt
      have hsize : toSize ((length.toNat : Int) - 13) = length.toNat - 13 :=
        toSize_sub h13 (by omega)
      refine ⟨_, ?_, fun _ => .inr rfl⟩
      rw [hsize, valued_printOnScreen _ (by omega) (by omega), valued_note, hvalued]
      simp [Obs.ofValue]
    · -- too short: nothing is said about what is printed
      have hprint := prints_printOnScreen tlv 13 (toSize ((length.toNat : Int) - 13))
        (after (note (.count ((length.toNat : Int) - 13))) u)
      obtain ⟨more, hmore, -⟩ := hprint.log
      refine ⟨[.count ((length.toNat : Int) - 13)] ++ more.filter Obs.ofValue, ?_,
        fun h => absurd h h13⟩
      rw [World.valued, hmore, List.filter_append]
      have hnote := valued_note (.count ((length.toNat : Int) - 13)) u
      rw [World.valued] at hnote
      rw [hnote, hvalued]
      simp [Obs.ofValue]
  · -- not a text: it is not displayed
    rw [if_neg htype]
    exact ⟨[], by rw [after_pure, hvalued], fun _ => .inl rfl⟩

/-! ### The search in `DATAF` -/

/-- A flood entry with this index is in `DATAF`. -/
def World.Floods (w : World) (index : DataIndex) : Prop :=
  ∃ f, some f ∈ w.dataf.contents ∧ f.index = index

theorem compareFlood_probe_iff {c : Option FloodEntry} {index : DataIndex} :
    compareFlood c (floodProbe index) = 0 ↔ ∃ f, c = some f ∧ f.index = index := by
  cases c with
  | none => simp [compareFlood]
  | some f =>
    obtain ⟨⟨id, nonce⟩, data, l⟩ := f
    obtain ⟨id', nonce'⟩ := index
    simp [compareFlood, floodProbe, compareD]

theorem get_eq_none_iff {w : World} {index : DataIndex} :
    w.dataf.get compareFlood (floodProbe index) = none ↔ ¬ w.Floods index := by
  unfold CList.get World.Floods CList.contents
  rw [List.find?_eq_none]
  constructor
  · rintro h ⟨f, hmem, hindex⟩
    obtain ⟨ent, hent, hcont⟩ := List.mem_map.mp hmem
    exact h ent hent (by simpa using compareFlood_probe_iff.mpr ⟨f, hcont, hindex⟩)
  · intro h ent hent hzero
    obtain ⟨f, hcont, hindex⟩ := compareFlood_probe_iff.mp (by simpa using hzero)
    exact h ⟨f, List.mem_map.mpr ⟨ent, hent, hcont⟩, hindex⟩

theorem value_getFlood (index : DataIndex) (w : World) :
    value (getFlood index) w = w.dataf.get compareFlood (floodProbe index) := by
  unfold getFlood
  rw [value_bind, value_get, after_get]
  split <;> rfl

/-- `data`, up to the branch it takes. -/
theorem after_data (tlv : Mem) (length : UInt8) (peer : Neighbor) (w : World) :
    ∃ u, Sends (after (do note (.valueRead 0 8); note (.valueRead 8 4)) w) u ∧
      (w.Floods (indexAt tlv) → after (data tlv length peer) w =
        after (removeNeighborFromFlood (indexAt tlv) peer.ptr) u) ∧
      (¬ w.Floods (indexAt tlv) → after (data tlv length peer) w =
        after (newData tlv length peer) u) := by
  have hsends := sends_sendAck (indexAt tlv) peer
    (after (note (.valueRead 8 4)) (after (note (.valueRead 0 8)) w))
  have hget : value (getFlood (indexAt tlv)) (after (sendAck (indexAt tlv) peer)
      (after (note (.valueRead 8 4)) (after (note (.valueRead 0 8)) w))) =
      w.dataf.get compareFlood (floodProbe (indexAt tlv)) := by
    rw [value_getFlood, hsends.dataf]
    rfl
  refine ⟨after (getFlood (indexAt tlv)) (after (sendAck (indexAt tlv) peer)
    (after (note (.valueRead 8 4)) (after (note (.valueRead 0 8)) w))),
    hsends.trans (primitive_quiet.keeps_getFlood _ _).sends, ?_, ?_⟩
  · intro hfloods
    cases hent : w.dataf.get compareFlood (floodProbe (indexAt tlv)) with
    | none => exact absurd hfloods (get_eq_none_iff.mp hent)
    | some ent =>
      rw [hent] at hget
      unfold data
      simp only [after_bind]
      rw [hget]
      simp only [after_bind, after_pure]
  · intro hfloods
    rw [get_eq_none_iff.mpr hfloods] at hget
    unfold data
    simp only [after_bind]
    rw [hget]

theorem valued_data_of_floods {tlv : Mem} {w : World} (hfloods : w.Floods (indexAt tlv))
    (length : UInt8) (peer : Neighbor) :
    (after (data tlv length peer) w).valued =
      w.valued ++ [Obs.valueRead 0 8, Obs.valueRead 8 4] := by
  obtain ⟨u, hsends, hold, -⟩ := after_data tlv length peer w
  rw [hold hfloods, (filer_later.keeps_removeNeighborFromFlood _ _ _).valued, hsends.toLater.valued,
    after_bind, valued_note, valued_note]
  simp [Obs.ofValue]

theorem valued_data_of_not_floods {tlv : Mem} {w : World}
    (hfloods : ¬ w.Floods (indexAt tlv)) (length : UInt8) (peer : Neighbor) :
    ∃ ext, (ext = [] ∨ ext = [Obs.valueRead 0 length.toNat]) ∧
      ∃ rest, (after (data tlv length peer) w).valued =
          w.valued ++ Obs.valueRead 0 8 :: Obs.valueRead 8 4 :: Obs.count length.toNat ::
            Obs.valueRead 0 8 :: Obs.valueRead 8 4 :: (ext ++ Obs.valueRead 12 1 :: rest) ∧
        (13 ≤ length.toNat → rest = [] ∨ rest =
          [Obs.count ((length.toNat : Int) - 13), Obs.valueRead 13 (length.toNat - 13),
            Obs.valueRead (13 + (length.toNat - 13) - 1) 1]) := by
  obtain ⟨u, hsends, -, hnew⟩ := after_data tlv length peer w
  obtain ⟨ext, hext, rest, hvalued, hrest⟩ := valued_newData tlv length peer u
  refine ⟨ext, hext, rest, ?_, hrest⟩
  rw [hnew hfloods, hvalued, hsends.toLater.valued, after_bind, valued_note, valued_note]
  simp [Obs.ofValue]

/-! ### Acting on the value alone -/

section Congr

variable {tlv tlv' : Mem} {k : Nat}

theorem read_eq_of_agree (h : ∀ i < k, tlv' i = tlv i) {off n : Nat} (hn : off + n ≤ k) :
    Octets.read tlv' off n = Octets.read tlv off n :=
  read_congr fun i hi => h (off + i) (by omega)

theorem indexAt_eq_of_agree (h : ∀ i < k, tlv' i = tlv i) (hk : 12 ≤ k) :
    indexAt tlv' = indexAt tlv := by
  unfold indexAt u64At u32At
  rw [read_eq_of_agree h (by omega), read_eq_of_agree h (by omega)]

theorem hello_eq_of_agree {length : UInt8} (h : ∀ i < length.toNat, tlv' i = tlv i)
    (hk : 8 ≤ length.toNat) (peer : Neighbor) : hello tlv' length peer = hello tlv length peer := by
  have hsource : u64At tlv' 0 = u64At tlv 0 := by
    unfold u64At
    rw [read_eq_of_agree h (by omega)]
  unfold hello
  rw [hsource]
  by_cases h16 : length = 16
  · have hdest : u64At tlv' 8 = u64At tlv 8 := by
      unfold u64At
      rw [read_eq_of_agree h (by subst h16; decide)]
    rw [hdest]
  · simp only [if_neg h16]

theorem neighbour_eq_of_agree {length : UInt8} (h : ∀ i < length.toNat, tlv' i = tlv i)
    (hk : 18 ≤ length.toNat) (peer : Neighbor) :
    neighbour tlv' length peer = neighbour tlv length peer := by
  have hkey : keyAt tlv' = keyAt tlv := by
    unfold keyAt u16At
    rw [read_eq_of_agree h (by omega)]
    have hip : (Vector.ofFn fun i : Fin 16 => tlv' i) = Vector.ofFn fun i : Fin 16 => tlv i := by
      congr 1
      funext i
      exact h i (by omega)
    rw [hip]
  unfold neighbour
  rw [hkey]

theorem printOnScreen_eq_of_agree (h : ∀ i < k, tlv' i = tlv i) {off size : Nat}
    (hoff : 0 < off) (hk : off + size ≤ k) :
    printOnScreen tlv' off size = printOnScreen tlv off size := by
  unfold printOnScreen
  rw [read_eq_of_agree h hk, h (off + size - 1) (by omega)]

theorem addMessageToFlood_eq_of_agree {size : UInt8} (h : ∀ i < size.toNat, tlv' i = tlv i)
    (hk : 12 ≤ size.toNat) (toDelete : Option NeighborPtr) :
    addMessageToFlood tlv' size toDelete = addMessageToFlood tlv size toDelete := by
  unfold addMessageToFlood
  rw [read_eq_of_agree h (by omega), read_eq_of_agree h (by omega),
    read_eq_of_agree h (by omega)]

theorem newData_eq_of_agree {length : UInt8} (h : ∀ i < length.toNat, tlv' i = tlv i)
    (hk : 13 ≤ length.toNat) (peer : Neighbor) :
    newData tlv' length peer = newData tlv length peer := by
  have hlt := length.toNat_lt
  have hsize : toSize ((length.toNat : Int) - 13) = length.toNat - 13 :=
    toSize_sub hk (by omega)
  unfold newData typeAt
  rw [addMessageToFlood_eq_of_agree h (by omega), h 12 (by omega), hsize,
    printOnScreen_eq_of_agree h (by omega) (by omega)]

theorem data_eq_of_agree {length : UInt8} (h : ∀ i < length.toNat, tlv' i = tlv i)
    (hk : 13 ≤ length.toNat) (peer : Neighbor) : data tlv' length peer = data tlv length peer := by
  unfold data
  rw [indexAt_eq_of_agree h (by omega), newData_eq_of_agree h hk]

theorem ack_eq_of_agree {length : UInt8} (h : ∀ i < length.toNat, tlv' i = tlv i)
    (hk : 12 ≤ length.toNat) (peer : Neighbor) : ack tlv' length peer = ack tlv length peer := by
  unfold ack
  rw [indexAt_eq_of_agree h hk]

theorem goaway_eq_of_agree {length : UInt8} (h : ∀ i < length.toNat, tlv' i = tlv i)
    (hk : 1 ≤ length.toNat) (peer : Neighbor) :
    goaway tlv' length peer = goaway tlv length peer := by
  unfold goaway codeAt writeText
  rw [h 0 (by omega), read_eq_of_agree h (by omega)]

theorem warning_eq_of_agree {length : UInt8} (h : ∀ i < length.toNat, tlv' i = tlv i)
    (peer : Neighbor) : warning tlv' length peer = warning tlv length peer := by
  unfold warning
  rw [read_eq_of_agree h (by omega)]

end Congr

/-! ### When a handler keeps to its value -/

/-- A handler keeps to the value of its TLV: it reads inside, passes on no
larger count, and does the same whatever the buffer holds behind the value. -/
structure UsesOwn (type length : UInt8) (tlv : Mem) (rcpt : Neighbor) (w : World) : Prop where
  own : Own length.toNat (w.since (after (handleTlv type tlv length rcpt) w))
  alike : ∀ tlv' : Mem, (∀ i < length.toNat, tlv' i = tlv i) →
    after (handleTlv type tlv' length rcpt) w = after (handleTlv type tlv length rcpt) w

/-- The value is as long as what the handler reads in any case; only for a
datum that is already being flooded the type byte may be missing. -/
def Enough (type length : UInt8) (tlv : Mem) (w : World) : Prop :=
  match type with
  | 0 => True
  | 1 => True
  | 2 => 8 ≤ length.toNat
  | 3 => 18 ≤ length.toNat
  | 4 => 13 ≤ length.toNat ∨ 12 ≤ length.toNat ∧ w.Floods (indexAt tlv)
  | 5 => 12 ≤ length.toNat
  | 6 => 1 ≤ length.toNat
  | _ => True

section UsesOwn

variable {length : UInt8} {tlv : Mem} {rcpt : Neighbor} {w : World}

theorem own_handleTlv_iff {type : UInt8} {ext : List Obs}
    (h : (after (handleTlv type tlv length rcpt) w).valued = w.valued ++ ext) :
    Own length.toNat (w.since (after (handleTlv type tlv length rcpt) w)) ↔
      Own length.toNat ext :=
  own_since_iff (handled_handleTlv _ _ _ _ w).elapsed.log h

theorem usesOwn_pad {type : UInt8} (htype : handleTlv type tlv length rcpt = pure ())
    (hsame : ∀ tlv', handleTlv type tlv' length rcpt = handleTlv type tlv length rcpt) :
    UsesOwn type length tlv rcpt w := by
  refine ⟨?_, fun tlv' _ => congrArg (after · w) (hsame tlv')⟩
  refine (@own_handleTlv_iff length tlv rcpt w type [] ?_).mpr own_nil
  rw [htype]
  simp

theorem usesOwn_hello : UsesOwn 2 length tlv rcpt w ↔ 8 ≤ length.toNat := by
  have hown := @own_handleTlv_iff length tlv rcpt w 2 _ (valued_hello tlv length rcpt w)
  constructor
  · intro h
    have hread := (own_read_iff 0 8).mp (own_cons_iff.mp (hown.mp h.own)).1 7 (by omega)
    omega
  · intro hk
    refine ⟨hown.mpr ?_, fun tlv' h => congrArg (after · w) (hello_eq_of_agree h hk rcpt)⟩
    refine own_cons_iff.mpr ⟨(own_read_iff 0 8).mpr fun i hi => by omega, ?_⟩
    by_cases h16 : length = 16
    · have h16' : length.toNat = 16 := by rw [h16]; rfl
      rw [if_pos h16]
      exact (own_read_iff 8 8).mpr fun i hi => by omega
    · rw [if_neg h16]
      exact own_nil

theorem usesOwn_neighbour : UsesOwn 3 length tlv rcpt w ↔ 18 ≤ length.toNat := by
  have hown := @own_handleTlv_iff length tlv rcpt w 3 _ (valued_neighbour tlv length rcpt w)
  constructor
  · intro h
    have hread := (own_read_iff 16 2).mp (own_cons_iff.mp (hown.mp h.own)).2 1 (by omega)
    omega
  · intro hk
    refine ⟨hown.mpr ?_, fun tlv' h => congrArg (after · w) (neighbour_eq_of_agree h hk rcpt)⟩
    exact own_cons_iff.mpr ⟨(own_read_iff 0 16).mpr fun i hi => by omega,
      (own_read_iff 16 2).mpr fun i hi => by omega⟩

/-- The two reads of an index. -/
theorem own_index_iff {k : Nat} : Own k [.valueRead 0 8, .valueRead 8 4] ↔ 12 ≤ k := by
  rw [own_cons_iff, own_read_iff, own_read_iff]
  constructor
  · intro h
    have hread := h.2 3 (by omega)
    omega
  · intro hk
    exact ⟨fun i hi => by omega, fun i hi => by omega⟩

theorem usesOwn_data_of_floods (hfloods : w.Floods (indexAt tlv)) :
    UsesOwn 4 length tlv rcpt w ↔ 12 ≤ length.toNat := by
  have hown := @own_handleTlv_iff length tlv rcpt w 4 _ (valued_data_of_floods hfloods length rcpt)
  constructor
  · intro h
    exact own_index_iff.mp (hown.mp h.own)
  · intro hk
    refine ⟨hown.mpr (own_index_iff.mpr hk), fun tlv' h => ?_⟩
    have hindex : indexAt tlv' = indexAt tlv := indexAt_eq_of_agree h hk
    -- the two runs differ in `newData` only, which neither reaches
    obtain ⟨u, -, hold, -⟩ := after_data tlv length rcpt w
    have hget : (after (sendAck (indexAt tlv) rcpt)
        (after (note (.valueRead 8 4)) (after (note (.valueRead 0 8)) w))).dataf = w.dataf :=
      (sends_sendAck _ _ _).dataf
    have hvalue := value_getFlood (indexAt tlv) (after (sendAck (indexAt tlv) rcpt)
      (after (note (.valueRead 8 4)) (after (note (.valueRead 0 8)) w)))
    rw [hget] at hvalue
    show after (data tlv' length rcpt) w = after (data tlv length rcpt) w
    unfold data
    rw [hindex]
    simp only [after_bind, hvalue]
    cases hent : w.dataf.get compareFlood (floodProbe (indexAt tlv)) with
    | none => exact absurd hfloods (get_eq_none_iff.mp hent)
    | some ent => rfl

theorem usesOwn_data_of_not_floods (hfloods : ¬ w.Floods (indexAt tlv)) :
    UsesOwn 4 length tlv rcpt w ↔ 13 ≤ length.toNat := by
  obtain ⟨ext, hext, rest, hvalued, hrest⟩ := valued_data_of_not_floods hfloods length rcpt
  have hown := @own_handleTlv_iff length tlv rcpt w 4 _ hvalued
  constructor
  · intro h
    have htype := (own_append_iff.mp (own_cons_iff.mp (own_cons_iff.mp (own_cons_iff.mp
      (own_cons_iff.mp (own_cons_iff.mp (hown.mp h.own)).2).2).2).2).2).2
    have hread := (own_read_iff 12 1).mp (own_cons_iff.mp htype).1 0 (by omega)
    omega
  · intro hk
    refine ⟨hown.mpr ?_, fun tlv' h => congrArg (after · w) (data_eq_of_agree h hk rcpt)⟩
    have hindex : Own length.toNat [.valueRead 0 8, .valueRead 8 4] :=
      own_index_iff.mpr (by omega)
    have hcopy : Own length.toNat ext := by
      rcases hext with rfl | rfl
      · exact own_nil
      · exact (own_read_iff _ _).mpr fun i hi => by omega
    have hprint : Own length.toNat rest := by
      rcases hrest hk with rfl | rfl
      · exact own_nil
      · refine own_cons_iff.mpr ⟨(own_count_iff _).mpr (by omega), own_cons_iff.mpr
          ⟨(own_read_iff _ _).mpr fun i hi => by omega,
            (own_read_iff _ _).mpr fun i hi => by omega⟩⟩
    have hcount : Own length.toNat [.count length.toNat] := (own_count_iff _).mpr (by omega)
    have htype : Own length.toNat [.valueRead 12 1] :=
      (own_read_iff _ _).mpr fun i hi => by omega
    exact own_append_iff.mpr ⟨hindex, own_append_iff.mpr ⟨hcount, own_append_iff.mpr
      ⟨hindex, own_append_iff.mpr ⟨hcopy, own_append_iff.mpr ⟨htype, hprint⟩⟩⟩⟩⟩

theorem usesOwn_ack : UsesOwn 5 length tlv rcpt w ↔ 12 ≤ length.toNat := by
  have hown := @own_handleTlv_iff length tlv rcpt w 5 _ (valued_ack tlv length rcpt w)
  constructor
  · intro h
    exact own_index_iff.mp (hown.mp h.own)
  · intro hk
    exact ⟨hown.mpr (own_index_iff.mpr hk),
      fun tlv' h => congrArg (after · w) (ack_eq_of_agree h hk rcpt)⟩

theorem usesOwn_goaway : UsesOwn 6 length tlv rcpt w ↔ 1 ≤ length.toNat := by
  have hown := @own_handleTlv_iff length tlv rcpt w 6 _ (valued_goaway tlv length rcpt w)
  constructor
  · intro h
    have hread := (own_read_iff 0 1).mp (own_cons_iff.mp (hown.mp h.own)).1 0 (by omega)
    omega
  · intro hk
    have h0 : length ≠ 0 := by
      rintro rfl
      exact absurd hk (by decide)
    refine ⟨hown.mpr ?_, fun tlv' h => congrArg (after · w) (goaway_eq_of_agree h hk rcpt)⟩
    rw [if_neg h0]
    exact own_cons_iff.mpr ⟨(own_read_iff _ _).mpr fun i hi => by omega,
      own_cons_iff.mpr ⟨(own_count_iff _).mpr (by omega),
        (own_read_iff _ _).mpr fun i hi => by omega⟩⟩

theorem usesOwn_warning {type : UInt8} (htype : handleTlv type = warning) :
    UsesOwn type length tlv rcpt w := by
  have hvalued := valued_warning tlv length rcpt w
  rw [← htype] at hvalued
  refine ⟨(own_handleTlv_iff hvalued).mpr ?_, fun tlv' h => ?_⟩
  · exact own_cons_iff.mpr ⟨(own_count_iff _).mpr (by omega),
      (own_read_iff _ _).mpr fun i hi => by omega⟩
  · rw [htype]
    exact congrArg (after · w) (warning_eq_of_agree h rcpt)

/-- The handler of a TLV keeps to its value exactly when the value is long
enough for it. -/
theorem usesOwn_iff (type length : UInt8) (tlv : Mem) (rcpt : Neighbor) (w : World) :
    UsesOwn type length tlv rcpt w ↔ Enough type length tlv w := by
  unfold Enough
  split
  · exact iff_of_true (usesOwn_pad rfl fun _ => rfl) trivial
  · exact iff_of_true (usesOwn_pad rfl fun _ => rfl) trivial
  · exact usesOwn_hello
  · exact usesOwn_neighbour
  · by_cases hfloods : w.Floods (indexAt tlv)
    · rw [usesOwn_data_of_floods hfloods, and_iff_left hfloods]
      exact ⟨.inr, fun h => h.elim (fun h13 => by omega) id⟩
    · rw [usesOwn_data_of_not_floods hfloods, or_iff_left fun h => hfloods h.2]
  · exact usesOwn_ack
  · exact usesOwn_goaway
  · refine iff_of_true (usesOwn_warning ?_) trivial
    unfold handleTlv
    split <;> first | rfl | contradiction

end UsesOwn

/-! ### Whole messages -/

/-- What the shared buffer holds after some steps. -/
def leftOver : List Step → Mem → Mem
  | [], tlv => tlv
  | .tlv _ _ _ value :: rest, tlv => leftOver rest (write tlv 0 value)
  | _ :: rest, tlv => leftOver rest tlv

/-- The walk can be cut anywhere; the buffer is handed on. -/
theorem after_perform_append (rcpt : Neighbor) (before later : List Step) (tlv : Mem) (w : World) :
    after (perform rcpt (before ++ later) tlv) w =
      after (perform rcpt later (leftOver before tlv)) (after (perform rcpt before tlv) w) := by
  induction before generalizing tlv w with
  | nil => rfl
  | cons s rest ih =>
    cases s with
    | look pos n =>
      show after (perform rcpt (rest ++ later) tlv) _ = _
      exact ih tlv _
    | tlv type length pos value =>
      show after (perform rcpt (rest ++ later) (write tlv 0 value)) _ = _
      exact ih (write tlv 0 value) _
    | stuck =>
      show after (perform rcpt (rest ++ later) tlv) _ = _
      exact ih tlv _

/-- A call of a handler: the type and the length of the TLV, the buffer and
the state in which the call is made. -/
structure Call where
  type : UInt8
  length : UInt8
  tlv : Mem
  world : World

/-- In the course of `handle_message_h` on a datagram of `n` bytes, `c` is
called: the walk comes to a TLV, and its value is copied over what earlier ones
have left in the buffer. -/
def MessageH.Calls (msg : MessageH) (n : Nat) (rcpt : Neighbor) (w : World) (c : Call) : Prop :=
  msg.Accepted n ∧ ∃ before pos value later,
    msg.way = before ++ .tlv c.type c.length pos value :: later ∧
    c.tlv = write (leftOver before w.memory.head) 0 value ∧
    c.world = after (do
      perform rcpt before w.memory.head
      note (.bodyRead (pos + 2) c.length.toNat)
      note (.dispatch c.type pos value)) (after uninit w)

/-- A call is a part of the run: the rest of the message follows on it. -/
theorem MessageH.Calls.after_eq {msg : MessageH} {n : Nat} {rcpt : Neighbor} {w : World}
    {c : Call} (h : msg.Calls n rcpt w c) : ∃ later,
      after (handleMessageH msg n rcpt) w =
        after (perform rcpt later c.tlv)
          (after (handleTlv c.type c.tlv c.length rcpt) c.world) := by
  obtain ⟨hacc, before, pos, value, later, hway, htlv, hworld⟩ := h
  refine ⟨later, ?_⟩
  rw [handleMessageH_eq, if_pos hacc, after_bind, value_uninit, hway, after_perform_append, htlv,
    hworld]
  rfl

/-- All handlers called for a message keep to their own TLVs exactly when all
these TLVs are long enough. -/
theorem handleMessageH_usesOwn_iff (msg : MessageH) (n : Nat) (rcpt : Neighbor) (w : World) :
    (∀ c, msg.Calls n rcpt w c → UsesOwn c.type c.length c.tlv rcpt c.world) ↔
      ∀ c, msg.Calls n rcpt w c → Enough c.type c.length c.tlv c.world :=
  forall₂_congr fun c _ => usesOwn_iff c.type c.length c.tlv rcpt c.world

/-- An Ack without a value: its handler takes the index from what the buffer
held before. -/
theorem handleMessageH_empty_ack :
    ¬ ∀ c, (MessageH.ofMem (ofBytes [93, 2, 0, 2, 5, 0])).Calls 6
        (sockaddr6ToNeighbor ⟨.replicate 16 0, 0⟩) (World.boot fun _ => 0) c →
      UsesOwn c.type c.length c.tlv (sockaddr6ToNeighbor ⟨.replicate 16 0, 0⟩) c.world := by
  intro h
  have hway : (MessageH.ofMem (ofBytes [93, 2, 0, 2, 5, 0])).way =
      [.look 0 1, .look 1 1] ++ [.tlv 5 0 0 []] := by decide
  have hown := (h ⟨5, 0, write (fun _ => 0) 0 [], after (do
      note (.bodyRead 0 1)
      note (.bodyRead 1 1)
      note (.bodyRead 2 0)
      note (.dispatch 5 0 [])) (after uninit (World.boot fun _ => 0))⟩
    ⟨by decide, [.look 0 1, .look 1 1], 0, [], [], hway, rfl, rfl⟩).own
  exact absurd (hown.reads 0 8 (by decide) 0 (by decide)) (by decide)

end FloodPeer
