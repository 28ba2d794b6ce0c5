/-
FloodPeer/Lib/Octets.lean

Raw memory and little-endian words, for programs that copy bytes between
buffers and machine integers.

A memory block is a total function `Nat → UInt8`: a read past the end of an
array returns whatever the memory holds there, so a program that overruns a
buffer still has a meaning and the overrun can be *observed* instead of being
excluded by the type.  `read m off n` is the byte string a `memcpy` of `n`
bytes from `m + off` copies, `write m off bs` is the block after a `memcpy` of
`bs` to `m + off`.

Words are stored little-endian by `toLE` and loaded by `ofLE`; the two are
mutually inverse (`ofLE_toLE`, `toLE_ofLE`).
-/
import Mathlib.Data.Nat.Basic
import Mathlib.Data.List.Basic
import Mathlib.Tactic.Ring
import Mathlib.Tactic.Common

namespace Octets

/-! ### Memory blocks -/

/-- A block of memory, indexed from its first byte. -/
abbrev Mem := Nat → UInt8

/-- The `n` bytes of `m` from offset `off` on. -/
def read (m : Mem) (off : Nat) : Nat → List UInt8
  | 0 => []
  | n + 1 => m off :: read m (off + 1) n

/-- `m` after the bytes `bs` were stored from offset `off` on. -/
def write (m : Mem) (off : Nat) (bs : List UInt8) : Mem := fun i =>
  if i < off then m i else (bs[i - off]?).getD (m i)

/-- The block that starts with `bs` and is zero afterwards. -/
def ofBytes (bs : List UInt8) : Mem := fun i => bs.getD i 0

@[simp] theorem read_zero (m : Mem) (off : Nat) : read m off 0 = [] := rfl

theorem read_succ (m : Mem) (off n : Nat) :
    read m off (n + 1) = m off :: read m (off + 1) n := rfl

@[simp] theorem length_read (m : Mem) (off n : Nat) :
    (read m off n).length = n := by
  induction n generalizing off with
  | zero => rfl
  | succ n ih => simp [read_succ, ih]

theorem getElem?_read (m : Mem) (off n i : Nat) :
    (read m off n)[i]? = if i < n then some (m (off + i)) else none := by
  induction n generalizing off i with
  | zero => simp
  | succ n ih =>
    cases i with
    | zero => simp [read_succ]
    | succ i =>
      rw [read_succ, List.getElem?_cons_succ, ih, show off + 1 + i = off + (i + 1) by omega]
      simp

/-- A read splits at any point. -/
theorem read_add (m : Mem) (off a b : Nat) :
    read m off (a + b) = read m off a ++ read m (off + a) b := by
  induction a generalizing off with
  | zero => simp
  | succ a ih =>
    rw [show a + 1 + b = (a + b) + 1 by omega, read_succ, ih, read_succ,
      show off + (a + 1) = off + 1 + a by omega]
    rfl

/-- Reads of blocks that agree on the range read are equal. -/
theorem read_congr {m m' : Mem} {off off' n : Nat}
    (h : ∀ i < n, m (off + i) = m' (off' + i)) : read m off n = read m' off' n := by
  apply List.ext_getElem?
  intro i
  rw [getElem?_read, getElem?_read]
  by_cases hi : i < n
  · simp [hi, h i hi]
  · simp [hi]

theorem write_apply_of_lt {m : Mem} {off i : Nat} (bs : List UInt8) (h : i < off) :
    write m off bs i = m i := by
  simp [write, h]

theorem write_apply_of_ge {m : Mem} {off i : Nat} {bs : List UInt8}
    (h : off + bs.length ≤ i) : write m off bs i = m i := by
  have hnot : ¬ i < off := by omega
  have hnone : bs[i - off]? = none := List.getElem?_eq_none (by omega)
  simp [write, hnot, hnone]

theorem write_apply_add {m : Mem} {off i : Nat} {bs : List UInt8} (h : i < bs.length) :
    write m off bs (off + i) = bs[i] := by
  simp [write, h]

/-- Reading back exactly what was stored. -/
@[simp] theorem read_write_self (m : Mem) (off : Nat) (bs : List UInt8) :
    read (write m off bs) off bs.length = bs := by
  apply List.ext_getElem?
  intro i
  rw [getElem?_read]
  by_cases hi : i < bs.length
  · simp [hi, write_apply_add hi]
  · simp [hi]

/-- A copy of `n` bytes from another place. -/
theorem write_read_apply (m m' : Mem) (off off' : Nat) {n i : Nat} (h : i < n) :
    write m off (read m' off' n) (off + i) = m' (off' + i) := by
  have hlt : i < (read m' off' n).length := by rwa [length_read]
  rw [write_apply_add hlt]
  apply Option.some.inj
  rw [← List.getElem?_eq_getElem hlt, getElem?_read, if_pos h]

/-- A read that ends before the stored range sees the old contents. -/
theorem read_write_before {m : Mem} {off n w : Nat} (bs : List UInt8) (h : off + n ≤ w) :
    read (write m w bs) off n = read m off n :=
  read_congr fun _ _ => write_apply_of_lt bs (by omega)

/-- Appending at offset `n` extends the first `n` bytes. -/
theorem read_write_append (m : Mem) (n : Nat) (bs : List UInt8) :
    read (write m n bs) 0 (n + bs.length) = read m 0 n ++ bs := by
  rw [read_add, read_write_before bs (by omega), Nat.zero_add, read_write_self]

/-- Storing a prefix of a string that is read in full from offset `off`. -/
theorem read_write_prefix (m : Mem) (off : Nat) (as bs : List UInt8) :
    read (write m off (as ++ bs)) off as.length = as := by
  have h := read_write_self m off (as ++ bs)
  rw [List.length_append, read_add] at h
  exact (List.append_inj h (by simp)).1

/-- Stores that follow each other are one store. -/
theorem write_write_append (m : Mem) {off off' : Nat} {as : List UInt8} (bs : List UInt8)
    (hoff : off' = off + as.length) : write (write m off as) off' bs = write m off (as ++ bs) := by
  funext i
  subst hoff
  by_cases hbefore : i < off
  · rw [write_apply_of_lt _ (by omega), write_apply_of_lt _ hbefore, write_apply_of_lt _ hbefore]
  obtain ⟨k, rfl⟩ : ∃ k, i = off + k := ⟨i - off, by omega⟩
  by_cases hfirst : k < as.length
  · rw [write_apply_of_lt _ (by omega), write_apply_add hfirst,
      write_apply_add (by rw [List.length_append]; omega), List.getElem_append_left hfirst]
  by_cases hsecond : k < as.length + bs.length
  · rw [show off + k = off + as.length + (k - as.length) by omega,
      write_apply_add (by omega),
      show off + as.length + (k - as.length) = off + k by omega,
      write_apply_add (by rw [List.length_append]; omega),
      List.getElem_append_right (by omega)]
  · rw [write_apply_of_ge (by omega), write_apply_of_ge (by omega),
      write_apply_of_ge (by rw [List.length_append]; omega)]

/-- A store tells what was stored, when nothing is known of the block. -/
theorem eq_of_write_eq {off : Nat} {as bs : List UInt8}
    (h : ∀ m : Mem, write m off as = write m off bs) : as = bs := by
  have hle : ∀ {as bs : List UInt8}, (∀ m : Mem, write m off as = write m off bs) →
      bs.length ≤ as.length := by
    intro as bs h
    by_contra hlt
    -- a byte behind `as` keeps its old value
    have hi : as.length < bs.length := Nat.lt_of_not_le hlt
    have hbyte := congrFun (h fun _ => bs[as.length] + 1) (off + as.length)
    rw [write_apply_of_ge le_rfl, write_apply_add hi] at hbyte
    exact absurd hbyte (by simp)
  have hlength : as.length = bs.length :=
    Nat.le_antisymm (hle fun m => (h m).symm) (hle h)
  have hread := read_write_self (fun _ => 0) off as
  rw [h, hlength, read_write_self] at hread
  exact hread.symm

/-- A read that gives a concatenation gives its two parts. -/
theorem read_eq_append_iff {m : Mem} {off n : Nat} {as bs : List UInt8}
    (hn : n = as.length + bs.length) :
    read m off n = as ++ bs ↔
      read m off as.length = as ∧ read m (off + as.length) bs.length = bs := by
  rw [hn, read_add]
  constructor
  · intro h
    exact List.append_inj h (length_read _ _ _)
  · rintro ⟨ha, hb⟩
    rw [ha, hb]

/-! ### Little-endian words -/

/-- The `n` low bytes of `x`, least significant first. -/
def toLE : Nat → Nat → List UInt8
  | 0, _ => []
  | n + 1, x => UInt8.ofNat x :: toLE n (x / 256)

/-- The word stored in `bs`, least significant byte first. -/
def ofLE : List UInt8 → Nat
  | [] => 0
  | b :: bs => b.toNat + 256 * ofLE bs

@[simp] theorem length_toLE (n x : Nat) : (toLE n x).length = n := by
  induction n generalizing x with
  | zero => rfl
  | succ n ih => simp [toLE, ih]

/-- Loading a stored word gives it back, modulo its width. -/
theorem ofLE_toLE (n x : Nat) : ofLE (toLE n x) = x % 256 ^ n := by
  induction n generalizing x with
  | zero => simp [toLE, ofLE, Nat.mod_one]
  | succ n ih =>
    have hpow : 256 ^ (n + 1) = 256 * 256 ^ n := by ring
    rw [toLE, ofLE, ih, hpow, Nat.mod_mul]
    simp

theorem ofLE_lt (bs : List UInt8) : ofLE bs < 256 ^ bs.length := by
  induction bs with
  | nil => simp [ofLE]
  | cons b bs ih =>
    have hb := b.toNat_lt
    have hpow : 256 ^ (bs.length + 1) = 256 * 256 ^ bs.length := by ring
    rw [ofLE, List.length_cons, hpow]
    omega

/-- Storing a loaded word gives its bytes back. -/
theorem toLE_ofLE (bs : List UInt8) : toLE bs.length (ofLE bs) = bs := by
  induction bs with
  | nil => rfl
  | cons b bs ih =>
    have hb := b.toNat_lt
    have hlow : UInt8.ofNat (b.toNat + 256 * ofLE bs) = b := by
      apply UInt8.toNat.inj
      simp only [UInt8.toNat_ofNat']
      omega
    have hhigh : (b.toNat + 256 * ofLE bs) / 256 = ofLE bs := by omega
    rw [List.length_cons, ofLE, toLE, hlow, hhigh, ih]

/-! ### Byte order of 16-bit words -/

/-- `htons` and `ntohs` of a little-endian machine: exchange the two bytes. -/
def swap16 (x : UInt16) : UInt16 :=
  UInt16.ofNat (x.toNat % 256 * 256 + x.toNat / 256)

theorem swap16_toNat (x : UInt16) :
    (swap16 x).toNat = x.toNat % 256 * 256 + x.toNat / 256 := by
  have hx := x.toNat_lt
  simp only [swap16, UInt16.toNat_ofNat']
  omega

@[simp] theorem swap16_swap16 (x : UInt16) : swap16 (swap16 x) = x := by
  have hx := x.toNat_lt
  apply UInt16.toNat.inj
  rw [swap16_toNat, swap16_toNat]
  omega

theorem swap16_eq_zero_iff (x : UInt16) : swap16 x = 0 ↔ x = 0 := by
  constructor
  · intro h
    rw [← swap16_swap16 x, h]
    rfl
  · rintro rfl
    rfl

end Octets
