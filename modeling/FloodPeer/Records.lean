/-
FloodPeer/Records.lean

The operations on the records of `NEIGHBORS` and `POTENTIAL`, as changes of the
state of the peer.

One lemma for each operation says everything it can do: `neighborAdded` for
`add_neighbor`, `potentialAdded` for `add_potential`, `after_removeNeighbor`
and `after_removePotential` for the removals.  What follows in other files
cites these lemmas and does not look into the operations again.
-/
import FloodPeer.TreeMap
import FloodPeer.Delivery

namespace FloodPeer

open Octets StateLogic SortedAssoc

/-! ### Insertion -/

theorem Added.mono {key : Neighbor} {val : Ident} {t t' : Tree} {lo hi lo' hi' : Nat} {rc : Int}
    (h : Added key val t lo hi t' rc) (hlo : lo' ≤ lo) (hhi : hi ≤ hi') :
    Added key val t lo' hi' t' rc := by
  cases h with
  | failed habsent => exact .failed habsent
  | added a ha ha' habsent hinorder =>
    exact .added a (le_trans hlo ha) (lt_of_lt_of_le ha' hhi) habsent hinorder
  | updated e he hplace hinorder => exact .updated e he hplace hinorder

/-- `add_neighbor_aux` under the test for an empty tree that its callers make. -/
def insertRecord (key : Neighbor) (val : Ident) (t : Tree) : Peer (Tree × Int) := do
  if t = .null then
    let t' ← init key val .null .null
    return (t', if t' ≠ .null then 1 else 0)
  else
    addNeighborAux key val t

theorem added_insertRecord {t : Tree} (h : t.Sorted) (key : Neighbor) (val : Ident) (w : World) :
    Added key val t w.next (after (insertRecord key val t) w).next
      (value (insertRecord key val t) w).1 (value (insertRecord key val t) w).2 := by
  unfold insertRecord
  by_cases hnull : t = .null
  · simp only [if_pos hnull]
    subst hnull
    exact added_init key val w
  · simp only [if_neg hnull]
    exact added_addNeighborAux h hnull key val w

theorem quiet_insertRecord (key : Neighbor) (val : Ident) (t : Tree) :
    Keeps Quiet (insertRecord key val t) :=
  Keeps.ite (fun _ => Quiet.bind (primitive_quiet.keeps_init _ _ _ _) fun _ => Quiet.pure _)
    fun _ => primitive_quiet.keeps_addNeighborAux _ _ _

/-- What `add_neighbor` makes of `w`, with its return code. -/
structure NeighborAdded (key : Neighbor) (val : Ident) (w w' : World) (rc : Int) : Prop
    extends Later w w' where
  potential : w'.potential = w.potential
  dataf : w'.dataf = w.dataf
  /-- Old messages are not touched. -/
  msgs : ∀ b < w.next, w'.msgs b = w.msgs b
  /-- The tree, with the message that a new record gets. -/
  tree : ∃ msg, Added { key with msg := msg } val w.neighbors w.next w'.next w'.neighbors rc ∧
    (w.Allocates → msg ≠ none) ∧
    ∀ a, msg = some a → w.next ≤ a ∧ a < w'.next ∧
      (rc = 1 → ∃ m, w'.msgs a = some m ∧ m.Box ∧ m.declared = 0)

/-- `add_neighbor` behind the allocation of the message. -/
def recordNeighbor (key : Neighbor) (val : Ident) (msg : Option Nat) : Peer Int := do
  emptyMsg msg
  let (t, rc) ← insertRecord { key with msg := msg } val (← get).neighbors
  modify fun w => { w with neighbors := t }
  if rc = 1 then
    return rc
  else
    freeIfSet msg
    return rc

/-- The three return codes. -/
theorem Added.rc_cases {key : Neighbor} {val : Ident} {t t' : Tree} {lo hi : Nat} {rc : Int}
    (h : Added key val t lo hi t' rc) : rc = 0 ∨ rc = 1 ∨ rc = 2 := by
  cases h with
  | failed => exact .inl rfl
  | added => exact .inr (.inl rfl)
  | updated => exact .inr (.inr rfl)

theorem neighbors_emptyMsg (msg : Option Nat) (w : World) :
    (after (emptyMsg msg) w).neighbors = w.neighbors := by
  cases msg <;> rfl

/-- `add_neighbor` is an allocation and `recordNeighbor`. -/
theorem addNeighbor_eq {w : World} (h : w.neighbors.Sorted) (key : Neighbor) (val : Ident) :
    after (addNeighbor key val) w =
      after (recordNeighbor key val (value malloc w)) (after malloc w) ∧
    value (addNeighbor key val) w =
      value (recordNeighbor key val (value malloc w)) (after malloc w) := by
  unfold addNeighbor recordNeighbor insertRecord
  simp only [after_bind, value_bind, after_get, value_get]
  generalize value malloc w = msg
  generalize hu : after (emptyMsg msg) (after malloc w) = u
  have hu' : u.neighbors = w.neighbors := by
    rw [← hu, neighbors_emptyMsg]
    exact (quiet_malloc w).neighbors
  by_cases hnull : u.neighbors = .null
  · simp only [after_bind, value_bind, after_pure, value_pure, after_modify, after_ite, value_ite]
    by_cases ht : value (init { key with msg := msg } val .null .null) u = .null
    · simp [hnull, ht]
    · simp [hnull, ht]
  · simp only [after_bind, value_bind, after_pure, value_pure, after_modify, after_ite, value_ite]
    have hadd := added_addNeighborAux (hu' ▸ h) hnull { key with msg := msg } val u
    rcases hadd.rc_cases with hrc | hrc | hrc <;> simp [hnull, hrc]

theorem allocates_malloc {w : World} (h : w.Allocates) : value malloc w ≠ none := by
  rw [(malloc_of_true (h 0)).1]
  exact Option.some_ne_none _

/-- What `recordNeighbor` does with the message it is given. -/
theorem msgs_freeIfSet (msg : Option Nat) (w : World) (b : Nat) (hb : msg ≠ some b) :
    (after (freeIfSet msg) w).msgs b = w.msgs b := by
  cases msg with
  | none => rfl
  | some a =>
    have hne : b ≠ a := fun h => hb (by rw [h])
    show (if b = a then none else w.msgs b) = w.msgs b
    rw [if_neg hne]

theorem msgs_emptyMsg (msg : Option Nat) (w : World) (b : Nat) (hb : msg ≠ some b) :
    (after (emptyMsg msg) w).msgs b = w.msgs b := by
  cases msg with
  | none => rfl
  | some a =>
    have hne : b ≠ a := fun h => hb (by rw [h])
    show (if b = a then _ else w.msgs b) = w.msgs b
    rw [if_neg hne]

theorem box_emptyMsg (a : Nat) (w : World) :
    ∃ m, (after (emptyMsg (some a)) w).msgs a = some m ∧ m.Box ∧ m.declared = 0 := by
  have hempty : MessageH.declared
      { magic := 93, version := 2, bodyLength := 0, body := w.memory.head } = 0 :=
    (declared_eq_zero_iff _).mpr rfl
  exact ⟨_, if_pos rfl, ⟨rfl, rfl, by rw [hempty]; exact Nat.zero_le _⟩, hempty⟩

/-- Freeing takes no time and leaves the trees and the flood list alone. -/
theorem freeIfSet_same (msg : Option Nat) (w : World) :
    (after (freeIfSet msg) w).next = w.next ∧
    (after (freeIfSet msg) w).neighbors = w.neighbors ∧
    (after (freeIfSet msg) w).potential = w.potential ∧
    (after (freeIfSet msg) w).dataf = w.dataf := by
  cases msg <;> exact ⟨rfl, rfl, rfl, rfl⟩

/-- Everything that `add_neighbor` can do. -/
theorem neighborAdded {w : World} (h : w.neighbors.Sorted) (key : Neighbor) (val : Ident) :
    NeighborAdded key val w (after (addNeighbor key val) w) (value (addNeighbor key val) w) := by
  have hlater := registrar_later.keeps_addNeighbor key val w
  obtain ⟨hafter, hvalue⟩ := addNeighbor_eq h key val
  have hmalloc := quiet_malloc w
  have hfresh : ∀ a, value malloc w = some a → w.next = a ∧ a < (after malloc w).next := by
    intro a ha
    rcases malloc_cases w with ⟨hv, -⟩ | ⟨hv, hn⟩
    · rw [ha] at hv
      cases hv
    · rw [ha] at hv
      obtain rfl := Option.some.inj hv
      exact ⟨rfl, by omega⟩
  have halloc : w.Allocates → value malloc w ≠ none := allocates_malloc
  rw [hafter] at hlater ⊢
  rw [hvalue]
  clear hafter hvalue
  unfold recordNeighbor at hlater ⊢
  simp only [after_bind, value_bind, after_get, value_get] at hlater ⊢
  generalize value malloc w = msg at hfresh halloc hlater ⊢
  -- the state in which the tree is changed
  obtain ⟨u, hu⟩ : ∃ u, after (emptyMsg msg) (after malloc w) = u := ⟨_, rfl⟩
  have hneighbors : u.neighbors = w.neighbors := by
    rw [← hu, neighbors_emptyMsg]
    exact hmalloc.neighbors
  have hother : u.potential = w.potential ∧ u.dataf = w.dataf := by
    rw [← hu]
    cases msg <;> exact ⟨hmalloc.potential, hmalloc.dataf⟩
  have hmsgs : ∀ b, msg ≠ some b → u.msgs b = w.msgs b := by
    intro b hb
    rw [← hu, msgs_emptyMsg _ _ _ hb, hmalloc.msgs]
  have hnext : (after malloc w).next = u.next := by
    rw [← hu]
    cases msg <;> rfl
  have hbox : ∀ a, msg = some a → ∃ m, u.msgs a = some m ∧ m.Box ∧ m.declared = 0 := by
    rintro a rfl
    rw [← hu]
    exact box_emptyMsg a _
  have hmono := hmalloc.toLater.next
  have hold : ∀ b < w.next, msg ≠ some b := by
    intro b hb hsome
    obtain ⟨hwb, -⟩ := hfresh b hsome
    omega
  rw [hu] at hlater ⊢
  have hins := added_insertRecord (hneighbors ▸ h) { key with msg := msg } val u
  have hquiet := quiet_insertRecord { key with msg := msg } val u.neighbors u
  generalize value (insertRecord { key with msg := msg } val u.neighbors) u = r at *
  generalize after (insertRecord { key with msg := msg } val u.neighbors) u = v at *
  obtain ⟨t, rc⟩ := r
  have hvnext := hquiet.toLater.next
  simp only [after_ite, value_ite, after_bind, value_bind, after_modify, after_pure,
    value_pure] at hlater ⊢
  simp only [ite_self]
  have htnext : World.next { v with neighbors := t } = v.next := rfl
  by_cases hone : rc = 1
  · rw [if_pos hone] at hlater ⊢
    refine { hlater with
      potential := hquiet.potential.trans hother.1
      dataf := hquiet.dataf.trans hother.2
      msgs := fun b hb => ?_
      tree := ⟨msg, ?_, halloc, fun a ha => ?_⟩ }
    · rw [← hmsgs b (hold b hb)]
      exact congrFun hquiet.msgs b
    · rw [hneighbors] at hins
      exact hins.mono (by omega) (le_refl _)
    · obtain ⟨hlo, hhi⟩ := hfresh a ha
      obtain ⟨m, hm, hb⟩ := hbox a ha
      exact ⟨by omega, lt_of_lt_of_le hhi (by rw [htnext]; omega), fun _ => ⟨m, by
        rw [← hm]
        exact congrFun hquiet.msgs a, hb⟩⟩
  · rw [if_neg hone] at hlater ⊢
    obtain ⟨hfnext, hfneighbors, hfpotential, hfdataf⟩ :=
      freeIfSet_same msg { v with neighbors := t }
    refine { hlater with
      potential := hfpotential.trans (hquiet.potential.trans hother.1)
      dataf := hfdataf.trans (hquiet.dataf.trans hother.2)
      msgs := fun b hb => ?_
      tree := ⟨msg, ?_, halloc, fun a ha => ?_⟩ }
    · rw [msgs_freeIfSet _ _ _ (hold b hb), ← hmsgs b (hold b hb)]
      exact congrFun hquiet.msgs b
    · rw [hneighbors] at hins
      rw [hfnext, hfneighbors]
      exact hins.mono (by omega) (le_refl _)
    · obtain ⟨hlo, hhi⟩ := hfresh a ha
      rw [hfnext, htnext]
      exact ⟨by omega, lt_of_lt_of_le hhi (by omega), fun h1 => absurd h1 hone⟩

/-- What `add_potential` makes of `w`, with its return code. -/
structure PotentialAdded (key : Neighbor) (val : Ident) (w w' : World) (rc : Int) : Prop
    extends Later w w' where
  neighbors : w'.neighbors = w.neighbors
  dataf : w'.dataf = w.dataf
  msgs : w'.msgs = w.msgs
  tree : Added { key with msg := none } val w.potential w.next w'.next w'.potential rc

theorem addPotential_eq (key : Neighbor) (val : Ident) (w : World) :
    (after (addPotential key val) w, value (addPotential key val) w) =
      ({ after (insertRecord { key with msg := none } val w.potential) w with
          potential := (value (insertRecord { key with msg := none } val w.potential) w).1 },
        (value (insertRecord { key with msg := none } val w.potential) w).2) := by
  unfold addPotential insertRecord
  simp only [after_bind, value_bind, after_get, value_get]
  by_cases hnull : w.potential = .null
  · simp [hnull]
  · simp [hnull]

/-- Everything that `add_potential` can do. -/
theorem potentialAdded {w : World} (h : w.potential.Sorted) (key : Neighbor) (val : Ident) :
    PotentialAdded key val w (after (addPotential key val) w) (value (addPotential key val) w) := by
  have hlater := registrar_later.keeps_addPotential key val w
  obtain ⟨hafter, hvalue⟩ := Prod.mk.inj (addPotential_eq key val w)
  have hins := added_insertRecord h { key with msg := none } val w
  have hquiet := quiet_insertRecord { key with msg := none } val w.potential w
  rw [hafter] at hlater ⊢
  rw [hvalue]
  exact { hlater with
    neighbors := hquiet.neighbors
    dataf := hquiet.dataf
    msgs := hquiet.msgs
    tree := hins }

/-! ### Removal -/

/-- Everything that `remove_neighbor` can do. -/
theorem after_removeNeighbor {w : World} (h : w.neighbors.Sorted) (key : Neighbor) :
    ∃ t : Tree, t.Sorted ∧ t.inorder = erase entryPlace key.place w.neighbors.inorder ∧
      after (removeNeighbor key) w =
        { after (freeIfSet ((w.neighbors.find? key).bind fun e => e.1.msg)) w with
          neighbors := t } := by
  refine ⟨value (removeNeighborAux key w.neighbors) w, sorted_removeNeighborAux h key w,
    inorder_removeNeighborAux h key w, ?_⟩
  rw [← after_removeNeighborAux h]
  rfl

/-- Everything that `remove_potential` can do to records without messages. -/
theorem after_removePotential {w : World} (h : w.potential.Sorted)
    (hdirect : ∀ e ∈ w.potential.inorder, e.1.msg = none) (key : Neighbor) :
    ∃ t : Tree, t.Sorted ∧ t.inorder = erase entryPlace key.place w.potential.inorder ∧
      after (removePotential key) w = { w with potential := t } := by
  refine ⟨value (removeNeighborAux key w.potential) w, sorted_removeNeighborAux h key w,
    inorder_removeNeighborAux h key w, ?_⟩
  have hfree : (w.potential.find? key).bind (fun e => e.1.msg) = none := by
    cases hfind : w.potential.find? key with
    | none => rfl
    | some e => exact hdirect e ((find?_eq_some_iff h).mp hfind).1
  have hafter := after_removeNeighborAux h key w
  rw [hfree] at hafter
  unfold removePotential
  simp only [after_bind, value_get, after_get, after_modify, hafter]
  rfl

/-! ### Membership -/

/-- The nodes of a tree after an insertion or an update. -/
theorem Added.mem {key : Neighbor} {val : Ident} {t t' : Tree} {lo hi : Nat} {rc : Int}
    (hadd : Added key val t lo hi t' rc) (h : t.Sorted) {e : NeighborPtr × Ident}
    (he : e ∈ t'.inorder) :
    (e ∈ t.inorder ∧ (rc = 2 → entryPlace e ≠ key.place)) ∨
    (rc = 1 ∧ (∀ e' ∈ t.inorder, entryPlace e' ≠ key.place) ∧
      ∃ a, lo ≤ a ∧ a < hi ∧ e = ({ key with addr := a }, val)) ∨
    (rc = 2 ∧ ∃ e₀ ∈ t.inorder, entryPlace e₀ = key.place ∧ e = touchEntry val e₀) := by
  cases hadd with
  | failed habsent => exact .inl ⟨he, fun h2 => absurd h2 (by decide)⟩
  | added a hlo hhi habsent hinorder =>
    rw [hinorder, mem_upsert_iff entryPlace h] at he
    rcases he with ⟨he, -⟩ | ⟨e₀, he₀, hplace, -⟩ | ⟨-, rfl⟩
    · exact .inl ⟨he, fun h2 => absurd h2 (by decide)⟩
    · exact absurd hplace (habsent e₀ he₀)
    · exact .inr (.inl ⟨rfl, habsent, a, hlo, hhi, rfl⟩)
  | updated e₁ he₁ hplace₁ hinorder =>
    rw [hinorder e₁, mem_upsert_iff entryPlace h] at he
    rcases he with ⟨he, hne⟩ | ⟨e₀, he₀, hplace, rfl⟩ | ⟨hnone, -⟩
    · exact .inl ⟨he, fun _ => hne⟩
    · exact .inr (.inr ⟨rfl, e₀, he₀, hplace, rfl⟩)
    · exact absurd hplace₁ (hnone e₁ he₁)

/-- Conversely, no node is lost, though its times may change. -/
theorem Added.mem_of_mem {key : Neighbor} {val : Ident} {t t' : Tree} {lo hi : Nat} {rc : Int}
    (hadd : Added key val t lo hi t' rc) (h : t.Sorted) {e : NeighborPtr × Ident}
    (he : e ∈ t.inorder) :
    e ∈ t'.inorder ∧ (rc = 2 → entryPlace e ≠ key.place) ∨
      rc = 2 ∧ entryPlace e = key.place ∧ touchEntry val e ∈ t'.inorder := by
  cases hadd with
  | failed habsent => exact .inl ⟨he, fun h2 => absurd h2 (by decide)⟩
  | added a hlo hhi habsent hinorder =>
    refine .inl ⟨?_, fun h2 => absurd h2 (by decide)⟩
    rw [hinorder, mem_upsert_iff entryPlace h]
    exact .inl ⟨he, habsent e he⟩
  | updated e₁ he₁ hplace₁ hinorder =>
    by_cases hplace : entryPlace e = key.place
    · refine .inr ⟨rfl, hplace, ?_⟩
      rw [hinorder e₁, mem_upsert_iff entryPlace h]
      exact .inr (.inl ⟨e, he, hplace, rfl⟩)
    · refine .inl ⟨?_, fun _ => hplace⟩
      rw [hinorder e₁, mem_upsert_iff entryPlace h]
      exact .inl ⟨he, hplace⟩

/-- A pointer to a key stays good. -/
theorem Added.owns {key : Neighbor} {val : Ident} {t t' : Tree} {lo hi : Nat} {rc : Int}
    (hadd : Added key val t lo hi t' rc) (h : t.Sorted) {k : NeighborPtr} (hk : t.owns k) :
    t'.owns k := by
  obtain ⟨e, he, rfl⟩ := List.mem_map.mp hk
  rcases hadd.mem_of_mem h he with ⟨he', -⟩ | ⟨-, -, he'⟩
  · exact List.mem_map.mpr ⟨e, he', rfl⟩
  · exact List.mem_map.mpr ⟨touchEntry val e, he', rfl⟩

end FloodPeer
