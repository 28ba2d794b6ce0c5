/-
FloodPeer/Encoders.lean

What the nine encoders write, and when.

Every encoder has a guard and then stores a type byte, a length byte and a
value.  `Encoder.value_run` says so of all nine at once: `least` is the smallest
`bufsize` that passes the guard, `output` what is stored behind it, `returned`
and `refusal` the two results.  Where the guard and the length byte are right,
an encoder refuses exactly what does not fit (`respects_iff`), and its result is
the number of bytes it has written (`agrees_iff`).
-/
import FloodPeer.Main

namespace FloodPeer

open Octets StateLogic

theorem length_randomOnOctets (n : Nat) (w : World) :
    (value (randomOnOctets n) w).length = n := by
  induction n generalizing w with
  | zero => rfl
  | succ n ih =>
    simp only [randomOnOctets, value_bind, value_pure, List.length_cons, ih]

/-! ### Calls -/

/-- A call of an encoder, without the buffer. -/
inductive Encoder where
  | pad1
  | padN (length : UInt8)
  | shortHello (id : UInt64)
  | longHello (sourceId destId : UInt64)
  | neighbour (ngb : Neighbor)
  | data (id : UInt64) (type : UInt8) (data : Mem) (msgSize : UInt8)
  | ack (id : UInt64) (nonce : UInt32)
  | goaway (code : UInt8) (msg : Mem) (msgSize : UInt8)
  | warning (msg : Mem) (msgSize : UInt8)

namespace Encoder

/-- The call. -/
def run (body : Mem) (off bufsize : Nat) : Encoder → Peer (Mem × Int)
  | .pad1 => return tlvPad1 body off bufsize
  | .padN length => return tlvPadN body off bufsize length
  | .shortHello id => return tlvShortHello body off bufsize id
  | .longHello sourceId destId => return tlvLongHello body off bufsize sourceId destId
  | .neighbour ngb => return tlvNeighbour body off bufsize ngb
  | .data id type payload msgSize => tlvData body off bufsize id type payload msgSize
  | .ack id nonce => return tlvAck body off bufsize id nonce
  | .goaway code msg msgSize => return tlvGoaway body off bufsize code msg msgSize
  | .warning msg msgSize => return tlvWarning body off bufsize msg msgSize

/-- The length of the value. -/
def valueSize : Encoder → Nat
  | .pad1 => 0
  | .padN length => length.toNat
  | .shortHello _ => 8
  | .longHello .. => 16
  | .neighbour _ => 18
  | .data _ _ _ msgSize => 8 + 4 + 1 + msgSize.toNat
  | .ack .. => 12
  | .goaway _ _ msgSize => 1 + msgSize.toNat
  | .warning _ msgSize => msgSize.toNat

/-- The length of the complete encoding; a Pad1 is its type byte. -/
def size : Encoder → Nat
  | .pad1 => 1
  | e => e.valueSize + 2

/-- There is a complete encoding, and it has room. -/
def Fits (e : Encoder) (bufsize : Nat) : Prop := e.valueSize ≤ 255 ∧ e.size ≤ bufsize

/-- The smallest `bufsize` that the guard lets through. -/
def least : Encoder → Nat
  | .pad1 => 1
  | .padN length => length.toNat + 2
  | .shortHello _ => 10
  | .longHello .. => 16
  | .neighbour _ => 22
  | .data _ _ _ msgSize => (UInt8.ofNat (8 + 4 + 1 + msgSize.toNat)).toNat + 2
  | .ack .. => 14
  | .goaway _ _ msgSize => (UInt8.ofNat (1 + msgSize.toNat)).toNat + 2
  | .warning _ msgSize => msgSize.toNat + 2

/-- The bytes that are stored; `tlv_data` draws its nonce in `w`. -/
def output (w : World) : Encoder → List UInt8
  | .pad1 => [0]
  | .padN length => 1 :: length :: List.replicate length.toNat 0
  | .shortHello id => 2 :: 8 :: u64Bytes id
  | .longHello sourceId destId => 2 :: 16 :: (u64Bytes sourceId ++ u64Bytes destId)
  | .neighbour ngb => 3 :: 18 :: (ngb.ip.toList ++ u16Bytes (swap16 ngb.port))
  | .data id type payload msgSize => 4 :: UInt8.ofNat (8 + 4 + 1 + msgSize.toNat) ::
      (u64Bytes id ++ value (randomOnOctets 4) w ++ type :: Octets.read payload 0 msgSize.toNat)
  | .ack id nonce => 5 :: 12 :: (u64Bytes id ++ u32Bytes nonce)
  | .goaway code msg msgSize =>
      6 :: UInt8.ofNat (1 + msgSize.toNat) :: code :: Octets.read msg 0 msgSize.toNat
  | .warning msg msgSize => 7 :: msgSize :: Octets.read msg 0 msgSize.toNat

/-- The result behind the guard. -/
def returned : Encoder → Int
  | .pad1 => 1
  | .padN length => length.toNat + 2
  | .shortHello _ => 10
  | .longHello .. => 18
  | .neighbour _ => 20
  | .data _ _ _ msgSize => msgSize.toNat + 15
  | .ack .. => 14
  | .goaway _ _ msgSize => (UInt8.ofNat (1 + msgSize.toNat)).toNat + 2
  | .warning .. => 1

/-- The result before it. -/
def refusal : Encoder → Int
  | .ack .. => 0
  | .warning .. => 0
  | _ => -1

/-- **What an encoder does.** -/
theorem value_run (e : Encoder) (body : Mem) (off bufsize : Nat) (w : World) :
    value (e.run body off bufsize) w =
      if e.least ≤ bufsize then (write body off (e.output w), e.returned)
      else (body, e.refusal) := by
  cases e with
  | pad1 => rfl
  | padN length =>
    show tlvPadN body off bufsize length = _
    unfold tlvPadN
    simp (disch := simp) only [write_write_append]
    rfl
  | shortHello id =>
    show tlvShortHello body off bufsize id = _
    unfold tlvShortHello
    simp (disch := simp) only [write_write_append]
    rfl
  | longHello sourceId destId =>
    show tlvLongHello body off bufsize sourceId destId = _
    unfold tlvLongHello
    simp (disch := simp [u64Bytes]) only [write_write_append]
    rfl
  | neighbour ngb =>
    show tlvNeighbour body off bufsize ngb = _
    unfold tlvNeighbour
    simp (disch := simp) only [write_write_append]
    rfl
  | data id type payload msgSize =>
    have hnonce := length_randomOnOctets 4 w
    show value (tlvData body off bufsize id type payload msgSize) w = _
    unfold tlvData
    rw [value_ite]
    simp only [value_bind, value_pure]
    simp (disch := simp [u64Bytes, hnonce]) only [write_write_append]
    simp only [List.append_assoc, List.cons_append, List.nil_append]
    rw [output, List.append_assoc]
    rfl
  | ack id nonce =>
    show tlvAck body off bufsize id nonce = _
    unfold tlvAck
    simp (disch := simp [u64Bytes]) only [write_write_append]
    rfl
  | goaway code msg msgSize =>
    show tlvGoaway body off bufsize code msg msgSize = _
    unfold tlvGoaway
    simp (disch := simp) only [write_write_append]
    rfl
  | warning msg msgSize =>
    show tlvWarning body off bufsize msg msgSize = _
    unfold tlvWarning
    simp (disch := simp) only [write_write_append]
    rfl

theorem returned_pos (e : Encoder) : 0 < e.returned := by
  cases e <;> simp only [returned] <;> omega

theorem refusal_nonpos (e : Encoder) : e.refusal ≤ 0 := by
  cases e <;> simp [refusal]

/-- It succeeds when its guard lets it through. -/
theorem pos_iff (e : Encoder) (body : Mem) (off bufsize : Nat) (w : World) :
    0 < (value (e.run body off bufsize) w).2 ↔ e.least ≤ bufsize := by
  rw [value_run]
  constructor
  · intro h
    by_contra hsmall
    rw [if_neg hsmall] at h
    exact absurd e.refusal_nonpos (not_le.mpr h)
  · intro h
    rw [if_pos h]
    exact e.returned_pos

/-- Behind the guard the whole encoding is stored. -/
theorem stored {e : Encoder} {body : Mem} {off bufsize : Nat} {w : World}
    (hpos : 0 < (value (e.run body off bufsize) w).2) :
    (value (e.run body off bufsize) w).1 = write body off (e.output w) := by
  rw [value_run, if_pos ((e.pos_iff body off bufsize w).mp hpos)]

theorem length_output (e : Encoder) (w : World) : (e.output w).length = e.size := by
  cases e with
  | data id type payload msgSize =>
    have hnonce := length_randomOnOctets 4 w
    simp only [output, size, valueSize, u64Bytes, List.length_cons, List.length_append,
      length_toLE, length_read, hnonce]
    omega
  | goaway code msg msgSize =>
    simp only [output, size, valueSize, List.length_cons, length_read]
    omega
  | _ => simp [output, size, valueSize, u64Bytes, u32Bytes, u16Bytes]

/-! ### Room -/

/-- An encoding that fits is stored inside the buffer; one that does not is
refused, and nothing is stored. -/
structure Respects (e : Encoder) (body : Mem) (off bufsize : Nat) (w : World) : Prop where
  fits : e.Fits bufsize → 0 < (value (e.run body off bufsize) w).2 ∧
    ∀ i, i < off ∨ off + bufsize ≤ i → (value (e.run body off bufsize) w).1 i = body i
  refuses : ¬ e.Fits bufsize → (value (e.run body off bufsize) w).2 ≤ 0 ∧
    (value (e.run body off bufsize) w).1 = body

/-- The guard is the right one. -/
theorem respects_iff_least (e : Encoder) (body : Mem) (off bufsize : Nat) (w : World) :
    e.Respects body off bufsize w ↔ (e.least ≤ bufsize ↔ e.Fits bufsize) := by
  have hpos := e.pos_iff body off bufsize w
  constructor
  · intro h
    refine ⟨fun hleast => ?_, fun hfits => hpos.mp (h.fits hfits).1⟩
    by_contra hfits
    exact absurd (h.refuses hfits).1 (not_le.mpr (hpos.mpr hleast))
  · intro h
    constructor
    · intro hfits
      refine ⟨hpos.mpr (h.mpr hfits), fun i hi => ?_⟩
      have hlength := e.length_output w
      have hsize := hfits.2
      rw [value_run, if_pos (h.mpr hfits)]
      rcases hi with hi | hi
      · exact write_apply_of_lt _ hi
      · exact write_apply_of_ge (by omega)
    · intro hfits
      rw [value_run, if_neg fun hleast => hfits (h.mp hleast)]
      exact ⟨e.refusal_nonpos, rfl⟩

/-- The `bufsize` is none for which the guard is wrong: the guard of
`tlv_long_hello` asks for two bytes too few and that of `tlv_neighbour` for two
too many, and the lengths of `tlv_data` and `tlv_goaway` are computed in a
`u_int8_t`. -/
def Guarded (bufsize : Nat) : Encoder → Prop
  | .longHello .. => bufsize ≠ 16 ∧ bufsize ≠ 17
  | .neighbour _ => bufsize ≠ 20 ∧ bufsize ≠ 21
  | .data _ _ _ msgSize => msgSize.toNat ≤ 242 ∨ bufsize + 242 ≤ msgSize.toNat
  | .goaway _ _ msgSize => msgSize.toNat ≤ 254 ∨ bufsize ≤ 1
  | _ => True

/-- **The encoders respect their buffers** for these sizes, and for no others. -/
theorem respects_iff (e : Encoder) (body : Mem) (off bufsize : Nat) (w : World) :
    e.Respects body off bufsize w ↔ e.Guarded bufsize := by
  rw [respects_iff_least]
  unfold Fits
  cases e with
  | pad1 => simp [least, valueSize, size, Guarded]
  | padN length =>
    have hlt := length.toNat_lt
    simp only [least, valueSize, size, Guarded, iff_true]
    omega
  | shortHello id => simp [least, valueSize, size, Guarded]
  | longHello sourceId destId =>
    simp only [least, valueSize, size, Guarded]
    omega
  | neighbour ngb =>
    simp only [least, valueSize, size, Guarded]
    omega
  | data id type payload msgSize =>
    have hlt := msgSize.toNat_lt
    simp only [least, valueSize, size, Guarded, UInt8.toNat_ofNat']
    omega
  | ack id nonce => simp [least, valueSize, size, Guarded]
  | goaway code msg msgSize =>
    have hlt := msgSize.toNat_lt
    simp only [least, valueSize, size, Guarded, UInt8.toNat_ofNat']
    omega
  | warning msg msgSize =>
    have hlt := msgSize.toNat_lt
    simp only [least, valueSize, size, Guarded, iff_true]
    omega

/-- A long Hello is stored in a buffer of sixteen bytes. -/
theorem not_respects_longHello :
    ¬ (longHello 1 2).Respects (fun _ => 0) 0 16 (World.boot fun _ => 0) := by
  intro h
  have hrefused := (h.refuses (by simp [Fits, valueSize, size])).1
  exact absurd hrefused (by decide)

/-! ### Results -/

/-- As many bytes are stored as the result says, one after the other from `off`
on, whatever was there; and behind every type but Pad1 there is the length of
the rest. -/
structure Agrees (e : Encoder) (body : Mem) (off bufsize : Nat) (w : World) : Prop where
  written : ∃ bs : List UInt8, (bs.length : Int) = (value (e.run body off bufsize) w).2 ∧
    ∀ body' : Mem, (value (e.run body' off bufsize) w).1 = write body' off bs
  length : e ≠ .pad1 → (((value (e.run body off bufsize) w).1 (off + 1)).toNat : Int) =
    (value (e.run body off bufsize) w).2 - 2

/-- The result counts the bytes, and the length byte can hold the length. -/
def Counted : Encoder → Prop
  | .data _ _ _ msgSize => msgSize.toNat ≤ 242
  | .goaway _ _ msgSize => msgSize.toNat ≤ 254
  | .warning .. => False
  | _ => True

/-- The length byte. -/
theorem lengthByte_run {e : Encoder} (hpad : e ≠ .pad1) {bufsize : Nat}
    (hleast : e.least ≤ bufsize) (body : Mem) (off : Nat) (w : World) :
    (value (e.run body off bufsize) w).1 (off + 1) = UInt8.ofNat e.valueSize := by
  have hone : ∀ (m : Mem) (type length : UInt8) (bs : List UInt8),
      write m off (type :: length :: bs) (off + 1) = length :=
    fun m type length bs => @write_apply_add m off 1 (type :: length :: bs) (by simp)
  rw [value_run, if_pos hleast]
  cases e with
  | pad1 => exact absurd rfl hpad
  | padN length => exact (hone _ _ _ _).trans UInt8.ofNat_toNat.symm
  | warning msg msgSize => exact (hone _ _ _ _).trans UInt8.ofNat_toNat.symm
  | _ => exact hone _ _ _ _

/-- **The results agree with what is written**, where an encoder succeeds: for
every TLV but a Warning whose value has at most 255 bytes. -/
theorem agrees_iff (e : Encoder) (body : Mem) (off bufsize : Nat) (w : World)
    (hpos : 0 < (value (e.run body off bufsize) w).2) :
    e.Agrees body off bufsize w ↔ e.Counted := by
  have hleast := (e.pos_iff body off bufsize w).mp hpos
  have hresult : (value (e.run body off bufsize) w).2 = e.returned := by
    rw [value_run, if_pos hleast]
  have hlength := e.length_output w
  have hstored : ∀ body' : Mem, (value (e.run body' off bufsize) w).1 =
      write body' off (e.output w) := by
    intro body'
    rw [value_run, if_pos hleast]
  have hwritten : (∃ bs : List UInt8, (bs.length : Int) = (value (e.run body off bufsize) w).2 ∧
      ∀ body' : Mem, (value (e.run body' off bufsize) w).1 = write body' off bs) ↔
      (e.size : Int) = e.returned := by
    rw [hresult]
    constructor
    · rintro ⟨bs, hbs, hall⟩
      have hsame := eq_of_write_eq fun m => (hstored m).symm.trans (hall m)
      rw [← hlength, hsame, hbs]
    · intro hsize
      exact ⟨e.output w, by rw [hlength, hsize], hstored⟩
  have hbyte : e ≠ .pad1 → ((((value (e.run body off bufsize) w).1 (off + 1)).toNat : Int) =
      (value (e.run body off bufsize) w).2 - 2 ↔
        ((e.valueSize % 256 : Nat) : Int) = e.returned - 2) := by
    intro hpad
    rw [lengthByte_run hpad hleast, hresult, UInt8.toNat_ofNat']
  have hiff : e.Agrees body off bufsize w ↔ (e.size : Int) = e.returned ∧
      (e ≠ .pad1 → ((e.valueSize % 256 : Nat) : Int) = e.returned - 2) :=
    ⟨fun h => ⟨hwritten.mp h.written, fun hpad => (hbyte hpad).mp (h.length hpad)⟩,
      fun h => ⟨hwritten.mpr h.1, fun hpad => (hbyte hpad).mpr (h.2 hpad)⟩⟩
  rw [hiff]
  cases e with
  | pad1 => exact iff_of_true ⟨rfl, fun h => absurd rfl h⟩ trivial
  | padN length =>
    have hlt := length.toNat_lt
    refine iff_of_true ⟨rfl, fun _ => ?_⟩ trivial
    simp only [valueSize, returned]
    omega
  | data id type payload msgSize =>
    have hlt := msgSize.toNat_lt
    simp only [valueSize, size, returned, Counted, ne_eq, reduceCtorEq, not_false_eq_true,
      forall_const]
    omega
  | goaway code msg msgSize =>
    have hlt := msgSize.toNat_lt
    simp only [valueSize, size, returned, Counted, ne_eq, reduceCtorEq, not_false_eq_true,
      forall_const, UInt8.toNat_ofNat']
    omega
  | warning msg msgSize =>
    refine iff_of_false (fun h => ?_) id
    have hsize : ((msgSize.toNat + 2 : Nat) : Int) = 1 := h.1
    omega
  | _ => exact iff_of_true ⟨rfl, fun _ => rfl⟩ trivial

/-- A Warning without a text takes two bytes. -/
theorem not_agrees_warning :
    0 < (value ((warning (fun _ => 0) 0).run (fun _ => 0) 0 2) (World.boot fun _ => 0)).2 ∧
      ¬ (warning (fun _ => 0) 0).Agrees (fun _ => 0) 0 2 (World.boot fun _ => 0) := by
  refine ⟨by decide, fun h => ?_⟩
  exact absurd (h.length (fun heq => nomatch heq)) (by decide)

/-- A GoAway with a text of three bytes, in a buffer of six. -/
theorem agrees_goaway :
    (goaway 2 (fun _ => 65) 3).Agrees (fun _ => 0) 0 6 (World.boot fun _ => 0) :=
  (agrees_iff _ _ _ _ _ (by decide)).mpr (show (3 : UInt8).toNat ≤ 254 by decide)

end Encoder

end FloodPeer
