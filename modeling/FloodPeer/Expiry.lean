/-
FloodPeer/Expiry.lean

What the two sweeps of the main loop leave in the trees.

`find_by` takes a snapshot of pointers into the tree, and then one node after
the other is removed.  A removal frees one key and moves other nodes around, but
the keys themselves stay where they are: the rest of the snapshot stays good
(`Snapshot.step`), and in the end exactly the old records are gone
(`sweeps_exact`).
-/
import FloodPeer.Filing

namespace FloodPeer

open Octets StateLogic SortedAssoc

/-! ### Old records -/

/-- `is_old` at the time `u`. -/
def Ident.oldAt (val : Ident) (u : Nat) : Bool := decide ((u : Int) - val.lastHello > 120)

/-- The records that are not old at the time `u`. -/
def Tree.recent (t : Tree) (u : Nat) : List (NeighborPtr × Ident) :=
  t.inorder.filter fun e => decide ((u : Int) - e.2.lastHello ≤ 120)

theorem value_isOld {w : World} {u : Nat} (h : w.clock = Stream'.const u) (t : Tree) :
    value (isOld t) w = onRecord (·.oldAt u) t := by
  cases t with
  | null => rfl
  | node k val left right =>
    show decide ((w.clock.head : Int) - val.lastHello > 120) = _
    rw [h]
    rfl

/-- With memory, `find_by(t,is_old)` returns all old records. -/
theorem findBy_isOld (t : Tree) {w : World} {u : Nat} (hclock : w.clock = Stream'.const u)
    (halloc : w.Allocates) :
    ∃ l, value (findBy t isOld) w = some l ∧
      l.contents.map (·.sym) = t.selected (·.oldAt u) := by
  have hdecides : Decides isOld (onRecord (·.oldAt u)) fun v => v.clock = Stream'.const u :=
    fun t _ h => value_isOld h t
  rcases findBy_spec primitive_quiet.keeps_isOld (fun _ _ h => h.frozen)
    (fun t v h htrue => (hdecides t v h) ▸ htrue) t hclock with
    ⟨-, hnot⟩ | ⟨l, hl, -, -, hall, -⟩
  · exact absurd halloc hnot
  · rw [← chosen_onRecord]
    exact ⟨l, hl, hall halloc hdecides⟩

/-! ### The snapshot -/

/-- A list of pointers to different keys of the tree `t`. -/
structure Snapshot (t : Tree) (l : List NgbEntry) : Prop where
  sorted : t.Sorted
  owns : ∀ ent ∈ l, t.owns ent.sym
  apart : l.Pairwise fun x y => x.sym.toNeighbor.place ≠ y.sym.toNeighbor.place

/-- The places that a list of pointers names. -/
def places (l : List NgbEntry) : List (List Nat ×ₗ Nat) := l.map fun ent => ent.sym.toNeighbor.place

/-- The removal of the first key leaves the others in the tree. -/
theorem Snapshot.step {t t' : Tree} {ent : NgbEntry} {l : List NgbEntry}
    (h : Snapshot t (ent :: l)) (hsorted : t'.Sorted)
    (hinorder : t'.inorder = erase entryPlace ent.sym.toNeighbor.place t.inorder) :
    Snapshot t' l := by
  obtain ⟨hne, hapart⟩ := List.pairwise_cons.mp h.apart
  refine ⟨hsorted, fun x hx => ?_, hapart⟩
  obtain ⟨e, he, hkey⟩ := List.mem_map.mp (h.owns x (List.mem_cons_of_mem _ hx))
  refine List.mem_map.mpr ⟨e, ?_, hkey⟩
  rw [hinorder, mem_erase_iff]
  refine ⟨he, fun hplace => hne x hx ?_⟩
  rw [← hplace, ← hkey]
  rfl

/-- The list that `find_by` returns is a snapshot. -/
theorem snapshot_of_selected {t : Tree} (h : t.Sorted) {sel : Ident → Bool} {l : List NgbEntry}
    (hl : l.map (·.sym) = t.selected sel) : Snapshot t l := by
  have hsub : (l.map (·.sym)).Sublist (t.inorder.map Prod.fst) := by
    rw [hl]
    exact List.filter_sublist.map _
  refine ⟨h, fun ent hent => hsub.subset (List.mem_map_of_mem hent), ?_⟩
  have hascending := List.pairwise_map.mp (ascending_of_sublist h hsub)
  exact hascending.imp fun hlt => ne_of_lt (compareN_neg_iff.mp hlt)

/-- The assertion of a sweep between two removals: the pointers `l` are still
good, the tree has these entries, and the other tree is what it was. -/
structure Sweeping (entries : List (NeighborPtr × Ident)) (other : Tree) (l : List NgbEntry)
    (t t' : Tree) : Prop where
  snapshot : Snapshot t l
  entries : t.inorder = entries
  other : t' = other

/-- What is left when all that was selected is removed. -/
theorem eraseAll_selected {t : Tree} (h : t.Sorted) {sel : Ident → Bool} {l : List NgbEntry}
    (hl : l.map (·.sym) = t.selected sel) :
    eraseAll entryPlace (places l) t.inorder = t.inorder.filter fun e => !sel e.2 := by
  have hplaces : places l = (t.inorder.filter fun e => sel e.2).map entryPlace := by
    have hmap : places l = (l.map (·.sym)).map fun k => k.toNeighbor.place := by
      rw [List.map_map]
      rfl
    rw [hmap, hl, Tree.selected, List.map_map]
    rfl
  rw [hplaces]
  exact h.eraseAll_filter fun e => sel e.2

theorem filter_not_old (t : Tree) (u : Nat) :
    (t.inorder.filter fun e => !e.2.oldAt u) = t.recent u := by
  apply List.filter_congr
  intro e _
  unfold Ident.oldAt
  by_cases hle : (u : Int) - e.2.lastHello ≤ 120
  · simp [hle]
  · simp [hle, not_le.mp hle]

/-! ### `NEIGHBORS` -/

/-- What `remove_neighbor_everywhere` does to the trees. -/
theorem trees_removeNeighborEverywhere {w : World} (h : w.neighbors.Sorted) (peer : NeighborPtr) :
    (after (removeNeighborEverywhere peer) w).neighbors.Sorted ∧
    (after (removeNeighborEverywhere peer) w).neighbors.inorder =
      erase entryPlace peer.toNeighbor.place w.neighbors.inorder ∧
    (after (removeNeighborEverywhere peer) w).potential = w.potential := by
  have hboxes := filer_boxes.keeps_removeFromFloods peer w.dataf.contents w
  show (after (removeNeighbor peer.toNeighbor)
      (after (removeFromFloods peer _) w)).neighbors.Sorted ∧
    (after (removeNeighbor peer.toNeighbor) (after (removeFromFloods peer _) w)).neighbors.inorder =
      _ ∧ (after (removeNeighbor peer.toNeighbor) (after (removeFromFloods peer _) w)).potential = _
  generalize after (removeFromFloods peer w.dataf.contents) w = v at hboxes ⊢
  rw [← hboxes.neighbors] at h ⊢
  obtain ⟨t, hsorted, hinorder, hafter⟩ := after_removeNeighbor h peer.toNeighbor
  obtain ⟨-, -, hpotential, -⟩ :=
    freeIfSet_same ((v.neighbors.find? peer.toNeighbor).bind fun e => e.1.msg) v
  rw [hafter]
  exact ⟨hsorted, hinorder, hpotential.trans hboxes.potential⟩

section Sweeps

variable {entries : List (NeighborPtr × Ident)} {other : Tree}

/-- One turn of the loop of `send_goaway_asymetrical`. -/
theorem triple_expire (msg : MessageH) (taille : Nat) (ent : NgbEntry) (l : List NgbEntry) :
    Triple (fun w => Sweeping entries other (ent :: l) w.neighbors w.potential)
      (expire msg taille ent.sym)
      fun _ w => Sweeping (erase entryPlace ent.sym.toNeighbor.place entries) other l
        w.neighbors w.potential := by
  intro w h
  have howns := h.snapshot.owns ent List.mem_cons_self
  have hsend := sends_sendMessage msg taille ent.sym.toNeighbor
    (after (note (.dropping ent.sym (w.pending ent.sym.toNeighbor))) w)
  obtain ⟨hsorted, hinorder, hpotential⟩ :=
    trees_removeNeighborEverywhere (hsend.neighbors ▸ h.snapshot.sorted) ent.sym
  rw [hsend.neighbors] at hinorder
  rw [hsend.potential] at hpotential
  rw [after_expire, if_pos howns]
  exact ⟨h.snapshot.step hsorted hinorder, h.entries ▸ hinorder, hpotential.trans h.other⟩

/-- The loop: all that was in the snapshot is removed. -/
theorem triple_goawayLoop (msg : MessageH) (taille : Nat) (l : List NgbEntry) (count : Int) :
    Triple (fun w => Sweeping entries other l w.neighbors w.potential)
      (goawayLoop msg taille l count)
      fun _ w => Sweeping (eraseAll entryPlace (places l) entries) other [] w.neighbors
        w.potential := by
  induction l generalizing entries count with
  | nil =>
    rw [places, List.map_nil, eraseAll_nil]
    exact fun _ h => h
  | cons ent rest ih =>
    rw [places, List.map_cons, eraseAll_cons]
    exact (triple_expire msg taille ent rest).bind fun n => ih (count + n)

end Sweeps

theorem trees_sendGoawayAsymetrical {w : World} {u : Nat} (h : w.neighbors.Sorted)
    (hclock : w.clock = Stream'.const u) (halloc : w.Allocates) :
    (after sendGoawayAsymetrical w).neighbors.Sorted ∧
    (after sendGoawayAsymetrical w).neighbors.inorder = w.neighbors.recent u ∧
    (after sendGoawayAsymetrical w).potential = w.potential := by
  by_cases hnull : w.neighbors = .null
  · have hrun : after sendGoawayAsymetrical w = w := congrArg (fun m => after m w) (if_pos hnull)
    rw [hrun]
    refine ⟨h, ?_, rfl⟩
    rw [hnull]
    rfl
  obtain ⟨l, hl, hkeys⟩ := findBy_isOld w.neighbors hclock halloc
  have hquiet := (primitive_quiet.keeps_findBy primitive_quiet.keeps_isOld w.neighbors w).trans
    (quiet_uninit _)
  have hrun : after sendGoawayAsymetrical w =
      after (goawayLoop (goawayMessage (after (findBy w.neighbors isOld) w).memory.head) 7
        l.contents 0) (after uninit (after (findBy w.neighbors isOld) w)) := by
    refine (congrArg (fun m => after m w) (if_neg hnull)).trans ?_
    simp only [after_bind, value_get, after_get, hl]
    rfl
  rw [hrun, ← filter_not_old, ← eraseAll_selected h hkeys]
  have hgood : Sweeping w.neighbors.inorder w.potential l.contents
      (after uninit (after (findBy w.neighbors isOld) w)).neighbors
      (after uninit (after (findBy w.neighbors isOld) w)).potential := by
    rw [hquiet.neighbors]
    exact ⟨snapshot_of_selected h hkeys, rfl, hquiet.potential⟩
  have hswept := triple_goawayLoop
    (goawayMessage (after (findBy w.neighbors isOld) w).memory.head) 7 l.contents 0 _ hgood
  exact ⟨hswept.snapshot.sorted, hswept.entries, hswept.other⟩

/-! ### `POTENTIAL` -/

section Sweeps

variable {entries : List (NeighborPtr × Ident)} {other : Tree}

theorem trees_removePotential {w : World} (h : w.potential.Sorted) (key : Neighbor) :
    (after (removePotential key) w).potential.Sorted ∧
    (after (removePotential key) w).potential.inorder =
      erase entryPlace key.place w.potential.inorder ∧
    (after (removePotential key) w).neighbors = w.neighbors := by
  refine ⟨sorted_removeNeighborAux h key w, inorder_removeNeighborAux h key w, ?_⟩
  show (after (removeNeighborAux key w.potential) w).neighbors = _
  rw [after_removeNeighborAux h]
  exact (freeIfSet_same _ w).2.1

/-- One turn of the loop of `remove_old_potential`. -/
theorem triple_removePotential (ent : NgbEntry) (l : List NgbEntry) :
    Triple (fun w => Sweeping entries other (ent :: l) w.potential w.neighbors)
      (removePotential ent.sym.toNeighbor)
      fun _ w => Sweeping (erase entryPlace ent.sym.toNeighbor.place entries) other l
        w.potential w.neighbors := by
  intro w h
  obtain ⟨hsorted, hinorder, hneighbors⟩ :=
    trees_removePotential h.snapshot.sorted ent.sym.toNeighbor
  exact ⟨h.snapshot.step hsorted hinorder, h.entries ▸ hinorder, hneighbors.trans h.other⟩

/-- The loop, as far as the pointers `pre`: those behind it are still good. -/
theorem triple_potentialLoop (pre post : List NgbEntry) :
    Triple (fun w => Sweeping entries other (pre ++ post) w.potential w.neighbors)
      (potentialLoop pre)
      fun _ w => Sweeping (eraseAll entryPlace (places pre) entries) other post
        w.potential w.neighbors := by
  induction pre generalizing entries with
  | nil =>
    rw [places, List.map_nil, eraseAll_nil]
    exact fun _ h => h
  | cons x rest ih =>
    rw [places, List.map_cons, eraseAll_cons]
    exact (triple_removePotential x (rest ++ post)).bind fun _ => ih

end Sweeps

theorem trees_removeOldPotential {w : World} {u : Nat} (h : w.potential.Sorted)
    (hclock : w.clock = Stream'.const u) (halloc : w.Allocates) :
    (after removeOldPotential w).potential.Sorted ∧
    (after removeOldPotential w).potential.inorder = w.potential.recent u ∧
    (after removeOldPotential w).neighbors = w.neighbors := by
  by_cases hnull : w.potential = .null
  · have hrun : after removeOldPotential w = w := congrArg (fun m => after m w) (if_pos hnull)
    rw [hrun]
    refine ⟨h, ?_, rfl⟩
    rw [hnull]
    rfl
  obtain ⟨l, hl, hkeys⟩ := findBy_isOld w.potential hclock halloc
  have hquiet := primitive_quiet.keeps_findBy primitive_quiet.keeps_isOld w.potential w
  have hrun : after removeOldPotential w =
      after (potentialLoop l.contents) (after (findBy w.potential isOld) w) := by
    refine (congrArg (fun m => after m w) (if_neg hnull)).trans ?_
    simp only [after_bind, value_get, after_get, hl]
  rw [hrun, ← filter_not_old, ← eraseAll_selected h hkeys]
  have hgood : Sweeping w.potential.inorder w.neighbors (l.contents ++ [])
      (after (findBy w.potential isOld) w).potential
      (after (findBy w.potential isOld) w).neighbors := by
    rw [List.append_nil, hquiet.potential]
    exact ⟨snapshot_of_selected h hkeys, rfl, hquiet.neighbors⟩
  have hswept := triple_potentialLoop l.contents [] _ hgood
  exact ⟨hswept.snapshot.sorted, hswept.entries, hswept.other⟩

/-- **The sweeps are exact.**  At the time `u`, with memory, each of them keeps
exactly the records of its tree that are at most 120 seconds old, unchanged, and
does nothing to the other tree. -/
theorem sweeps_exact {w : World} {u : Nat} (hneighbors : w.neighbors.Sorted)
    (hpotential : w.potential.Sorted) (hclock : w.clock = Stream'.const u) (halloc : w.Allocates) :
    ((after sendGoawayAsymetrical w).neighbors.Sorted ∧
      (after sendGoawayAsymetrical w).neighbors.inorder = w.neighbors.recent u ∧
      (after sendGoawayAsymetrical w).potential = w.potential) ∧
    (after removeOldPotential w).potential.Sorted ∧
      (after removeOldPotential w).potential.inorder = w.potential.recent u ∧
      (after removeOldPotential w).neighbors = w.neighbors :=
  ⟨trees_sendGoawayAsymetrical hneighbors hclock halloc,
    trees_removeOldPotential hpotential hclock halloc⟩

/-- Two potential neighbours; the left one was last heard of 150 seconds before the clock
began. -/
def twoRumours : Tree :=
  .node { ip := .replicate 16 4, port := 5, msg := none, addr := 3 } ⟨0, 0, 0⟩
    (.node { ip := .replicate 16 3, port := 5, msg := none, addr := 4 } ⟨0, -150, 0⟩ .null .null)
    .null

/-- Both trees at the time `10`, when only the right ones have been heard of lately. -/
theorem sweeps_exact_twoNodes :
    let w := { World.boot (Stream'.const 10) with neighbors := twoNodes, potential := twoRumours }
    (after sendGoawayAsymetrical w).neighbors.inorder.map (·.1.addr) = [1] ∧
      (after removeOldPotential w).potential.inorder.map (·.1.addr) = [3] := by
  intro w
  have hrumours : twoRumours.Sorted := by
    unfold Tree.Sorted SortedAssoc.Ascending
    decide +kernel
  obtain ⟨⟨-, hneighbors, -⟩, -, hpotential, -⟩ :=
    sweeps_exact (w := w) (u := 10) sorted_twoNodes hrumours rfl fun _ => rfl
  rw [hneighbors, hpotential]
  decide

end FloodPeer
