/-
FloodPeer/Order.lean

`compare_n` is the comparison of a linear order.

The order is the lexicographic one on the bytes of the address, then on the
port; `Neighbor.place` maps a neighbour into it.  Two neighbours with the same
place are the same peer, whatever their pending messages.
-/
import FloodPeer.Util
import Mathlib.Data.List.Lex
import Mathlib.Data.Prod.Lex

namespace FloodPeer

/-- The address of a neighbour as an element of the order `compare_n` decides. -/
def Neighbor.place (key : Neighbor) : List Nat ×ₗ Nat :=
  toLex (key.ip.toList.map UInt8.toNat, key.port.toNat)

/-! ### The loop over the bytes -/

/-- The three outcomes of the loop, on addresses of the same length. -/
theorem compareIp_spec {bs1 bs2 : List UInt8} (h : bs1.length = bs2.length) :
    (compareIp bs1 bs2 = -1 ∧ bs1.map UInt8.toNat < bs2.map UInt8.toNat) ∨
    (compareIp bs1 bs2 = 1 ∧ bs2.map UInt8.toNat < bs1.map UInt8.toNat) ∨
    (compareIp bs1 bs2 = 0 ∧ bs1 = bs2) := by
  induction bs1 generalizing bs2 with
  | nil =>
    cases bs2 with
    | nil => exact .inr (.inr ⟨rfl, rfl⟩)
    | cons => simp at h
  | cons b1 bs1 ih =>
    cases bs2 with
    | nil => simp at h
    | cons b2 bs2 =>
      simp only [compareIp, List.map_cons, List.cons_lt_cons_iff]
      by_cases hlt : b1 < b2
      · exact .inl ⟨if_pos hlt, .inl hlt⟩
      by_cases hgt : b1 > b2
      · exact .inr (.inl ⟨by rw [if_neg hlt, if_pos hgt], .inl hgt⟩)
      · obtain rfl : b1 = b2 :=
          UInt8.le_antisymm (UInt8.not_lt.mp hgt) (UInt8.not_lt.mp hlt)
        simp only [if_neg hlt]
        rcases ih (by simpa using h) with ⟨h0, hl⟩ | ⟨h0, hl⟩ | ⟨h0, rfl⟩
        · exact .inl ⟨h0, .inr ⟨trivial, hl⟩⟩
        · exact .inr (.inl ⟨h0, .inr ⟨trivial, hl⟩⟩)
        · exact .inr (.inr ⟨h0, rfl⟩)

/-! ### The comparison -/

theorem map_toNat_inj {bs1 bs2 : List UInt8} :
    bs1.map UInt8.toNat = bs2.map UInt8.toNat ↔ bs1 = bs2 :=
  List.map_inj_right fun _ _ h => UInt8.toNat.inj h

theorem place_eq_iff {key1 key2 : Neighbor} :
    key1.place = key2.place ↔ key1.ip = key2.ip ∧ key1.port = key2.port := by
  unfold Neighbor.place
  rw [toLex_inj, Prod.mk.injEq, map_toNat_inj, Vector.toList_inj]
  exact and_congr_right fun _ => ⟨fun h => UInt16.toNat.inj h, fun h => h ▸ rfl⟩

theorem compareN_spec (key1 key2 : Neighbor) :
    (compareN key1 key2 = -1 ∧ key1.place < key2.place) ∨
    (compareN key1 key2 = 1 ∧ key2.place < key1.place) ∨
    (compareN key1 key2 = 0 ∧ key1.place = key2.place) := by
  have hlen : key1.ip.toList.length = key2.ip.toList.length := by simp
  unfold compareN Neighbor.place
  simp only [Prod.Lex.toLex_lt_toLex, toLex_inj, Prod.mk.injEq]
  rcases compareIp_spec hlen with ⟨h0, hl⟩ | ⟨h0, hl⟩ | ⟨h0, hl⟩ <;> rw [h0]
  · exact .inl ⟨by simp, .inl hl⟩
  · exact .inr (.inl ⟨by simp, .inl hl⟩)
  · simp only [ne_eq, not_true_eq_false, if_false, hl, true_and, lt_irrefl, false_or]
    by_cases hlt : key1.port < key2.port
    · exact .inl ⟨if_pos hlt, hlt⟩
    by_cases hgt : key1.port > key2.port
    · exact .inr (.inl ⟨by rw [if_neg hlt, if_pos hgt], hgt⟩)
    · refine .inr (.inr ⟨by rw [if_neg hlt, if_neg hgt], ?_⟩)
      exact congrArg _ (UInt16.le_antisymm (UInt16.not_lt.mp hgt) (UInt16.not_lt.mp hlt))

theorem compareN_eq_zero_iff {key1 key2 : Neighbor} :
    compareN key1 key2 = 0 ↔ key1.place = key2.place := by
  rcases compareN_spec key1 key2 with ⟨h0, hl⟩ | ⟨h0, hl⟩ | ⟨h0, hl⟩ <;>
    simp [h0, hl, ne_of_lt, ne_of_gt]

theorem compareN_pos_iff {key1 key2 : Neighbor} :
    compareN key1 key2 > 0 ↔ key2.place < key1.place := by
  rcases compareN_spec key1 key2 with ⟨h0, hl⟩ | ⟨h0, hl⟩ | ⟨h0, hl⟩
  · simp [h0, not_lt_of_gt hl]
  · simp [h0, hl]
  · simp [h0, hl]

theorem compareN_neg_iff {key1 key2 : Neighbor} :
    compareN key1 key2 < 0 ↔ key1.place < key2.place := by
  rcases compareN_spec key1 key2 with ⟨h0, hl⟩ | ⟨h0, hl⟩ | ⟨h0, hl⟩
  · simp [h0, hl]
  · simp [h0, not_lt_of_gt hl]
  · simp [h0, hl]

end FloodPeer
