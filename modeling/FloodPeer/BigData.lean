/-
FloodPeer/BigData.lean

Messages that do not fit in one Data TLV.

`write_big_data` cuts a message into sub-messages of 231 bytes, each behind a
header of nine bytes: the nonce of the message, its type, its size and a
position.  The loop loses nothing (`bigDataLoop_spec`).  The last sub-message is
made by a second copy of the code, which leaves the header out of its size and
has another position, so that the end of every message is lost.
-/
import FloodPeer.Encoders

namespace FloodPeer

open Octets StateLogic

/-! ### `write_big_data` -/

/-- Conversion of an `int` to `u_int8_t`. -/
def toU8 (i : Int) : UInt8 := UInt8.ofNat (i % 256).toNat

/-- `if(buf[tmp]==c) tmp--;`. -/
def trimAt (c : UInt8) (buf : Mem) (tmp : Int) : Peer Int := do
  if tmp < 0 then
    note .fault
    return if (← uninit) 0 = c then tmp - 1 else tmp
  else
    return if buf tmp.toNat = c then tmp - 1 else tmp

/-- The size that `write_big_data` goes on with. -/
def stripped (buf : Mem) (tmp : Int) : Peer Int := do
  let tmp ← trimAt 0 buf tmp
  trimAt 10 buf tmp

/-- The TLV in `msg_to_send`. -/
def tlvOf (msgToSend : Mem) : List UInt8 := Octets.read msgToSend 0 ((msgToSend 1).toNat + 2)

/-- The first 240 bytes of `body`: the header of a sub-message with the position
`j`, and 231 bytes from `buf+i+1` on. -/
def bigDataBody (buf : Mem) (tmp : Int) (t : List UInt8) (j i : Int) (body : Mem) : Mem :=
  let body := write body 0 t
  let body := write body 4 [0]
  let body := write body 5 (u16Bytes (swap16 (toU16 tmp)))
  let body := write body 7 (u16Bytes (swap16 (toU16 j)))
  write body 9 (Octets.read buf (i + 1).toNat 231)

/-- A sub-message is flooded.  In the source this code is there twice. -/
def floodBigData (buf : Mem) (tmp : Int) (t : List UInt8) (j i : Int) (msgSize : UInt8)
    (msgToSend : Mem) : Peer (Mem × Int) := do
  let body := bigDataBody buf tmp t j i (← uninit)
  let (msgToSend, n) ← tlvData msgToSend 0 255 (← get).id 220 body msgSize
  addMessageToFlood (fun k => msgToSend (2 + k)) (msgToSend 1) none
  return (msgToSend, n)

/-- The `while` loop of `write_big_data`: the last `i` and `msg_to_send`, and
the TLVs that have been handed to `add_message_to_flood`. -/
def bigDataLoop (buf : Mem) (tmp : Int) (t : List UInt8) :
    Nat → Int → Mem → Peer (Int × Mem × List (List UInt8))
  | 0, i, msgToSend => do
    if i + 231 < tmp then note .stuck
    return (i, msgToSend, [])
  | fuel + 1, i, msgToSend =>
    if i + 231 < tmp then do
      let (msgToSend, n) ← floodBigData buf tmp t i i 240 msgToSend
      let (last, final, tlvs) ← bigDataLoop buf tmp t fuel (i + (n - 24)) msgToSend
      return (last, final, tlvOf msgToSend :: tlvs)
    else return (i, msgToSend, [])

/-- The branch of `write_big_data` for a message that fits in one TLV. -/
def writeSmallData (buf : Mem) (tmp : Int) : Peer (List (List UInt8)) := do
  let (msgToSend, n) ← tlvData (fun _ => 0) 0 255 (← get).id 0 (fun k => buf (1 + k))
    (toU8 (tmp - 1))
  -- `msg_to_send` has 255 bytes
  if n > 255 then note .fault
  addMessageToFlood (fun k => msgToSend (2 + k)) (msgToSend 1) none
  return [tlvOf msgToSend]

/-- The branch for all others. -/
def writeFragments (buf : Mem) (tmp : Int) : Peer (List (List UInt8)) := do
  let t ← randomOnOctets 4
  let (i, msgToSend, tlvs) ← bigDataLoop buf tmp t tmp.toNat 0 fun _ => 0
  let (msgToSend, _) ← floodBigData buf tmp t (tmp - i) i (toU8 (tmp - 1 - i)) msgToSend
  return tlvs ++ [tlvOf msgToSend]

/-- `write_big_data`.  It returns the TLVs that it hands to
`add_message_to_flood`, in place of the constant `1`. -/
def writeBigData (buf : Mem) (tmp : Int) : Peer (List (List UInt8)) := do
  let tmp ← stripped buf tmp
  let tlvs ← if tmp < 240 then writeSmallData buf tmp else writeFragments buf tmp
  printOnScreen buf 0 (toSize tmp)
  return tlvs

/-! ### Sub-messages -/

/-- What a Data TLV of type 220 carries. -/
structure Fragment where
  nonce : List UInt8
  total : Nat
  position : Nat
  payload : List UInt8

/-- A word in network byte order. -/
def word (bs : List UInt8) : Nat := (swap16 (UInt16.ofNat (ofLE (bs.take 2)))).toNat

/-- The sub-message in a TLV, behind the identifier, the nonce and the type;
`none` when its header is not complete. -/
def Fragment.ofTlv (tlv : List UInt8) : Option Fragment :=
  let body := tlv.drop 15
  if tlv[14]? = some 220 ∧ 9 ≤ body.length then
    some { nonce := body.take 4, total := word (body.drop 5), position := word (body.drop 7),
           payload := body.drop 9 }
  else none

/-- The bytes that a list of sub-messages carries. -/
def payloads (frags : List Fragment) : List UInt8 := frags.flatMap (·.payload)

/-- Sub-messages of one message of `total` bytes, which carry `n` bytes of it
from its offset `off` on. -/
structure Cover (buf : Mem) (total : Nat) (nonce : List UInt8) (off n : Nat)
    (frags : List Fragment) : Prop where
  same : ∀ f ∈ frags, f.nonce = nonce ∧ f.total = total
  position : ∀ pre f post, frags = pre ++ f :: post → f.position = off + (payloads pre).length
  payload : payloads frags = Octets.read buf (1 + off) n

/-- Every TLV is a sub-message, and together they carry `buf[1..total)`. -/
def Lossless (buf : Mem) (total : Nat) (tlvs : List (List UInt8)) : Prop :=
  ∃ frags nonce, tlvs.map Fragment.ofTlv = frags.map some ∧
    Cover buf total nonce 0 (total - 1) frags

theorem cover_nil (buf : Mem) (total : Nat) (nonce : List UInt8) (off : Nat) :
    Cover buf total nonce off 0 [] where
  same := nofun
  position := by
    intro pre f post h
    exact absurd h (by simp)
  payload := rfl

/-- One more sub-message in front. -/
theorem Cover.cons {buf : Mem} {total off n : Nat} {nonce : List UInt8} {frags : List Fragment}
    {f : Fragment} {k : Nat} (h : Cover buf total nonce (off + k) n frags)
    (hnonce : f.nonce = nonce) (htotal : f.total = total) (hposition : f.position = off)
    (hpayload : f.payload = Octets.read buf (1 + off) k) :
    Cover buf total nonce off (k + n) (f :: frags) where
  same := by
    intro g hg
    rcases List.mem_cons.mp hg with rfl | hg
    · exact ⟨hnonce, htotal⟩
    · exact h.same g hg
  position := by
    intro pre g post heq
    cases pre with
    | nil =>
      obtain ⟨rfl, -⟩ := List.cons.inj heq
      exact hposition
    | cons x pre =>
      obtain ⟨rfl, hrest⟩ := List.cons.inj heq
      have hg := h.position pre g post hrest
      have hlen : (payloads (f :: pre)).length = k + (payloads pre).length := by
        simp [payloads, hpayload]
      omega
  payload := by
    have hsplit : payloads (f :: frags) = f.payload ++ payloads frags := rfl
    rw [hsplit, h.payload, hpayload, read_add, Nat.add_assoc]

/-! ### What is flooded -/

theorem length_u16Bytes (x : UInt16) : (u16Bytes x).length = 2 := length_toLE _ _

theorem word_u16Bytes {i : Nat} (hi : i < 65536) (bs : List UInt8) :
    word (u16Bytes (swap16 (toU16 i)) ++ bs) = i := by
  have htake : (u16Bytes (swap16 (toU16 i)) ++ bs).take 2 = u16Bytes (swap16 (toU16 i)) :=
    List.take_left' (length_u16Bytes _)
  have hlt : (swap16 (toU16 i)).toNat < 256 ^ 2 := UInt16.toNat_lt _
  unfold word
  rw [htake, u16Bytes, ofLE_toLE, Nat.mod_eq_of_lt hlt, UInt16.ofNat_toNat, swap16_swap16, toU16,
    UInt16.toNat_ofNat']
  omega

/-- The header of a sub-message. -/
def bigDataHeader (tmp : Int) (t : List UInt8) (j : Int) : List UInt8 :=
  t ++ 0 :: (u16Bytes (swap16 (toU16 tmp)) ++ u16Bytes (swap16 (toU16 j)))

theorem length_bigDataHeader (tmp : Int) {t : List UInt8} (ht : t.length = 4) (j : Int) :
    (bigDataHeader tmp t j).length = 9 := by
  simp [bigDataHeader, u16Bytes, ht]

theorem bigDataBody_eq (buf : Mem) (tmp : Int) {t : List UInt8} (ht : t.length = 4) (j i : Int)
    (body : Mem) : bigDataBody buf tmp t j i body =
      write body 0 (bigDataHeader tmp t j ++ Octets.read buf (i + 1).toNat 231) := by
  unfold bigDataBody bigDataHeader
  simp (disch := simp [u16Bytes, ht]) only [write_write_append]
  simp

/-- The TLV that is flooded ends with the first bytes of `body`. -/
theorem floodBigData_spec (buf : Mem) (tmp : Int) {t : List UInt8} (ht : t.length = 4) (j i : Int)
    {msgSize : UInt8} (hsize : msgSize.toNat ≤ 240) (msgToSend : Mem) (w : World) :
    (value (floodBigData buf tmp t j i msgSize msgToSend) w).2 = msgSize.toNat + 15 ∧
    (tlvOf (value (floodBigData buf tmp t j i msgSize msgToSend) w).1)[14]? = some 220 ∧
    (tlvOf (value (floodBigData buf tmp t j i msgSize msgToSend) w).1).drop 15 =
      (bigDataHeader tmp t j ++ Octets.read buf (i + 1).toNat 231).take msgSize.toNat := by
  unfold floodBigData
  simp only [value_bind, value_pure]
  generalize after get (after uninit w) = v
  generalize (value get (after uninit w)).id = id
  generalize hbody : bigDataBody buf tmp t j i (value uninit w) = body
  let e : Encoder := .data id 220 body msgSize
  have hlength : (UInt8.ofNat (8 + 4 + 1 + msgSize.toNat)).toNat = 13 + msgSize.toNat := by
    rw [UInt8.toNat_ofNat']
    omega
  have hrun : value (tlvData msgToSend 0 255 id 220 body msgSize) v =
      (write msgToSend 0 (e.output v), e.returned) := by
    have hleast : e.least ≤ 255 := by
      show (UInt8.ofNat (8 + 4 + 1 + msgSize.toNat)).toNat + 2 ≤ 255
      omega
    have hvalue := e.value_run msgToSend 0 255 v
    rw [if_pos hleast] at hvalue
    exact hvalue
  rw [hrun]
  have houtput : (e.output v).length = 13 + msgSize.toNat + 2 := by
    rw [e.length_output]
    show 8 + 4 + 1 + msgSize.toNat + 2 = _
    omega
  have hbyte : write msgToSend 0 (e.output v) 1 = UInt8.ofNat (8 + 4 + 1 + msgSize.toNat) := by
    have h := @write_apply_add msgToSend 0 1 (e.output v) (by omega)
    rw [h]
    rfl
  have htlv : tlvOf (write msgToSend 0 (e.output v)) = e.output v := by
    unfold tlvOf
    rw [hbyte, hlength, ← houtput, read_write_self]
  rw [htlv]
  -- 15 bytes come before `body`
  obtain ⟨front, hfront, hsplit⟩ : ∃ front : List UInt8, front.length = 14 ∧
      e.output v = front ++ 220 :: Octets.read body 0 msgSize.toNat := by
    refine ⟨4 :: UInt8.ofNat (8 + 4 + 1 + msgSize.toNat) ::
      (u64Bytes id ++ value (randomOnOctets 4) v), ?_, ?_⟩
    · simp [u64Bytes, length_randomOnOctets]
    · show _ :: _ :: (_ ++ _) = _
      simp
  refine ⟨rfl, ?_, ?_⟩
  · rw [hsplit, List.getElem?_append_right (by omega), hfront]
    rfl
  · have hcontent := length_bigDataHeader tmp ht j
    rw [bigDataBody_eq buf tmp ht] at hbody
    rw [hsplit, ← hbody, show 15 = front.length + 1 by omega, List.drop_length_add_append]
    show Octets.read (write _ 0 _) 0 _ = _
    generalize hall : bigDataHeader tmp t j ++ Octets.read buf (i + 1).toNat 231 = all
    have hlen : msgSize.toNat ≤ all.length := by
      rw [← hall, List.length_append, length_read]
      omega
    have hread := read_write_prefix (value uninit w) 0 (all.take msgSize.toNat)
      (all.drop msgSize.toNat)
    rw [List.take_append_drop, List.length_take, Nat.min_eq_left hlen] at hread
    exact hread

/-- A sub-message with its whole header is read back. -/
theorem ofTlv_floodBigData (buf : Mem) {tmp j i : Nat} (htmp : tmp < 65536) (hj : j < 65536)
    {t : List UInt8} (ht : t.length = 4) {msgSize : UInt8} (hheader : 9 ≤ msgSize.toNat)
    (hsize : msgSize.toNat ≤ 240) (msgToSend : Mem) (w : World) :
    Fragment.ofTlv (tlvOf (value (floodBigData buf tmp t j i msgSize msgToSend) w).1) =
      some { nonce := t, total := tmp, position := j
             payload := Octets.read buf (1 + i) (msgSize.toNat - 9) } := by
  obtain ⟨-, htype, hbody⟩ := floodBigData_spec buf tmp ht j i hsize msgToSend w
  obtain ⟨n, hn⟩ : ∃ n, msgSize.toNat = 9 + n := ⟨msgSize.toNat - 9, by omega⟩
  have hlen := length_bigDataHeader tmp ht j
  have hcut :
      (bigDataHeader tmp t j ++ Octets.read buf (i + 1 : Int).toNat 231).take msgSize.toNat =
        bigDataHeader tmp t j ++ Octets.read buf (1 + i) n := by
    rw [hn, ← hlen, List.take_length_add_append, show (i + 1 : Int).toNat = 1 + i by omega,
      show 231 = n + (231 - n) by omega, read_add, List.take_left' (length_read _ _ _)]
  rw [hcut] at hbody
  unfold Fragment.ofTlv
  rw [hbody]
  simp only [htype, List.length_append, length_read, hlen, true_and, Nat.le_add_right, if_true]
  have hall : bigDataHeader tmp t j ++ Octets.read buf (1 + i) n =
      t ++ 0 :: (u16Bytes (swap16 (toU16 tmp)) ++
        (u16Bytes (swap16 (toU16 j)) ++ Octets.read buf (1 + i) n)) := by
    simp [bigDataHeader]
  -- the four fields, each behind the one before
  refine congrArg some (Fragment.mk.injEq .. ▸ ⟨?_, ?_, ?_, ?_⟩)
  · rw [hall]
    exact List.take_left' ht
  · rw [hall, show 5 = t.length + 1 by omega, List.drop_length_add_append]
    exact word_u16Bytes htmp _
  · rw [hall, show 7 = t.length + 3 by omega, List.drop_length_add_append]
    show word (List.drop 2 (u16Bytes _ ++ _)) = j
    rw [List.drop_left' (length_u16Bytes _)]
    exact word_u16Bytes hj _
  · rw [List.drop_left' hlen, hn, Nat.add_sub_cancel_left]

/-- **The loop loses nothing**: from `i` to `j` it floods everything, in
sub-messages of 231 bytes, and it stops where at most 231 bytes are left. -/
theorem bigDataLoop_spec (buf : Mem) {tmp : Nat} (htmp : tmp < 65536) {t : List UInt8}
    (ht : t.length = 4) {fuel i : Nat} (hi : i < tmp) (hfuel : tmp ≤ i + fuel) (msgToSend : Mem)
    (w : World) : ∃ (j n : Nat) (final : Mem) (tlvs : List (List UInt8)) (frags : List Fragment),
    value (bigDataLoop buf tmp t fuel i msgToSend) w = ((j : Int), final, tlvs) ∧
    j = i + n ∧ j < tmp ∧ tmp ≤ j + 231 ∧ tlvs.map Fragment.ofTlv = frags.map some ∧
    Cover buf tmp t i n frags := by
  -- on the fuel: a turn takes 231 bytes, so that `tmp - i` turns are more than enough
  induction fuel generalizing i msgToSend w with
  | zero => omega
  | succ fuel ih =>
    rw [bigDataLoop]
    by_cases hmore : (i : Int) + 231 < tmp
    · rw [if_pos hmore]
      simp only [value_bind, value_pure]
      have hflood := (floodBigData_spec buf tmp ht i i (show (240 : UInt8).toNat ≤ 240 by decide)
        msgToSend w).1
      have hfrag := ofTlv_floodBigData buf htmp (show i < 65536 by omega) ht
        (show 9 ≤ (240 : UInt8).toNat by decide) (show (240 : UInt8).toNat ≤ 240 by decide)
        msgToSend w (i := i)
      generalize value (floodBigData buf tmp t i i 240 msgToSend) w = r at hflood hfrag ⊢
      obtain ⟨msg, n⟩ := r
      obtain rfl : n = 255 := hflood
      have hnext : (i : Int) + (255 - 24) = (i + 231 : Nat) := by omega
      rw [hnext]
      obtain ⟨j, n, final, tlvs, frags, hloop, hj, hlt, hend, hmap, hcover⟩ :=
        ih (show i + 231 < tmp by omega) (by omega) msg
          (after (floodBigData buf tmp t i i 240 msgToSend) w)
      rw [hloop]
      refine ⟨j, 231 + n, final, tlvOf msg :: tlvs,
        { nonce := t, total := tmp, position := i,
          payload := Octets.read buf (1 + i) 231 } :: frags,
        rfl, by omega, hlt, hend, ?_, hcover.cons rfl rfl rfl rfl⟩
      rw [List.map_cons, List.map_cons, hmap]
      exact congrArg (· :: _) hfrag
    · rw [if_neg hmore]
      exact ⟨i, 0, msgToSend, [], [], rfl, rfl, hi, by omega, rfl, cover_nil _ _ _ _⟩

/-- **What a message is cut into**: the sub-messages of the loop, and a last one
whose size leaves the nine bytes of its own header out. -/
theorem writeFragments_spec (buf : Mem) {tmp : Nat} (hlow : 0 < tmp) (htmp : tmp < 65536)
    (w : World) :
    ∃ (t : List UInt8) (j : Nat) (tlvs : List (List UInt8)) (frags : List Fragment)
      (last : List UInt8),
    value (writeFragments buf tmp) w = tlvs ++ [last] ∧
    j < tmp ∧ tmp ≤ j + 231 ∧ tlvs.map Fragment.ofTlv = frags.map some ∧ Cover buf tmp t 0 j frags ∧
    last.drop 15 = (bigDataHeader tmp t ((tmp : Int) - j) ++ Octets.read buf (1 + j) 231).take
      (tmp - 1 - j) := by
  unfold writeFragments
  simp only [value_bind, value_pure]
  have ht := length_randomOnOctets 4 w
  generalize value (randomOnOctets 4) w = t at ht ⊢
  generalize after (randomOnOctets 4) w = v
  obtain ⟨j, n, final, tlvs, frags, hloop, hj, hlt, hend, hmap, hcover⟩ :=
    bigDataLoop_spec buf htmp ht hlow (show tmp ≤ 0 + (tmp : Int).toNat by omega) (fun _ => 0) v
  obtain rfl : j = n := by omega
  rw [show ((0 : Nat) : Int) = 0 from rfl] at hloop
  generalize after (bigDataLoop buf tmp t (tmp : Int).toNat 0 fun _ => 0) v = u
  rw [hloop]
  have hsize : (toU8 ((tmp : Int) - 1 - j)).toNat = tmp - 1 - j := by
    unfold toU8
    rw [UInt8.toNat_ofNat']
    omega
  have hlast := (floodBigData_spec buf tmp ht (tmp - j) j
    (show (toU8 ((tmp : Int) - 1 - j)).toNat ≤ 240 by omega) final u).2.2
  rw [hsize, show ((j : Int) + 1).toNat = 1 + j by omega] at hlast
  exact ⟨t, j, tlvs, frags, _, rfl, hlt, hend, hmap, hcover, hlast⟩

theorem payload_of_ofTlv {tlv : List UInt8} {f : Fragment} (h : Fragment.ofTlv tlv = some f) :
    9 ≤ (tlv.drop 15).length ∧ f.payload = (tlv.drop 15).drop 9 := by
  by_cases hheader : tlv[14]? = some 220 ∧ 9 ≤ (tlv.drop 15).length
  · obtain rfl := Option.some.inj ((if_pos hheader).symm.trans h)
    exact ⟨hheader.2, rfl⟩
  · exact absurd ((if_neg hheader).symm.trans h) (Option.some_ne_none f).symm

/-- The bytes of the last sub-message are too few by nine. -/
theorem not_lossless {buf : Mem} {tmp j : Nat} {t last : List UInt8} {tlvs : List (List UInt8)}
    {frags : List Fragment} (hj : j < tmp) (hmap : tlvs.map Fragment.ofTlv = frags.map some)
    (hcover : Cover buf tmp t 0 j frags) (hlast : (last.drop 15).length ≤ tmp - 1 - j) :
    ¬ Lossless buf tmp (tlvs ++ [last]) := by
  rintro ⟨all, nonce, hall, hcovered⟩
  rw [List.map_append, hmap] at hall
  obtain ⟨front, back, rfl, hfront, hback⟩ := List.map_eq_append_iff.mp hall.symm
  obtain rfl := List.map_injective_iff.mpr (Option.some_injective _) hfront
  obtain ⟨f, rest, rfl, hf, hrest⟩ := List.map_eq_cons_iff.mp hback
  obtain rfl := List.map_eq_nil_iff.mp hrest
  -- the last TLV has a header, and only the rest of it is payload
  obtain ⟨hheader, hpayload⟩ := payload_of_ofTlv hf.symm
  have htotal := congrArg List.length hcovered.payload
  have hpart := congrArg List.length hcover.payload
  have hrest : f.payload.length = (last.drop 15).length - 9 := by
    rw [hpayload, List.length_drop]
  simp only [payloads, List.flatMap_append, List.flatMap_cons, List.flatMap_nil, List.append_nil,
    List.length_append, length_read, hrest] at htotal hpart
  omega

/-- **Big messages always lose their end.** -/
theorem writeBigData_loses {buf : Mem} {size : Int} {tmp : Nat} {w : World}
    (hsize : value (stripped buf size) w = tmp) (hlow : 240 ≤ tmp) (hhigh : tmp ≤ 65535) :
    ¬ Lossless buf tmp (value (writeBigData buf size) w) := by
  have hvalue : value (writeBigData buf size) w =
      value (writeFragments buf tmp) (after (stripped buf size) w) := by
    unfold writeBigData
    simp only [value_bind, hsize]
    rw [if_neg (show ¬ (tmp : Int) < 240 by omega)]
    rfl
  obtain ⟨t, j, tlvs, frags, last, hrun, hlt, -, hmap, hcover, hlast⟩ :=
    writeFragments_spec buf (show 0 < tmp by omega) (show tmp < 65536 by omega)
      (after (stripped buf size) w)
  rw [hvalue, hrun]
  apply not_lossless hlt hmap hcover
  rw [hlast, List.length_take]
  exact Nat.min_le_left _ _

theorem writeBigData_loses_240 :
    ¬ Lossless (fun _ => 65) 240
      (value (writeBigData (fun _ => 65) 240) (World.boot fun _ => 0)) :=
  writeBigData_loses rfl (Nat.le_refl 240) (by decide)

/-- Of 240 letters the loop takes 231; the last TLV has eight bytes of a header. -/
theorem not_lossless_240 :
    ¬ Lossless (fun _ => 65) 240
      (value (writeBigData (fun _ => 65) 240) (World.boot fun _ => 0)) := by
  rintro ⟨frags, nonce, hall, -⟩
  have hcut : ((value (writeBigData (fun _ => 65) 240) (World.boot fun _ => 0)).any
      fun tlv => (Fragment.ofTlv tlv).isNone) = true := by decide +kernel
  obtain ⟨tlv, htlv, hnone⟩ := List.any_eq_true.mp hcut
  have hmem := List.mem_map_of_mem (f := Fragment.ofTlv) htlv
  rw [hall] at hmem
  obtain ⟨f, -, hf⟩ := List.mem_map.mp hmem
  rw [← hf] at hnone
  cases hnone

end FloodPeer
