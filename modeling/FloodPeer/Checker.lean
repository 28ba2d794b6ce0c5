/-
FloodPeer/Checker.lean

What `check` says about a tree.

`check` is meant to recognise the search trees, and it rejects none of them.
But it compares the key of a node with those of its two children only
(`check_eq_one_iff`), so that a key which is on the wrong side of a node further
up is not seen.  The keys that can be so are the in-order neighbours of a node
below its children; `check_exact_iff` says for which trees the answer is right.
The trees that the program builds are among them (`check_of_sorted`).
-/
import FloodPeer.TreeMap
import FloodPeer.Lib.SearchTree

namespace FloodPeer

open SearchTree

/-- The tree of the places in the order of `compare_n`. -/
def Tree.places : Tree → BinaryTree (List Nat ×ₗ Nat)
  | .null => .nil
  | .node k _ left right => .node k.toNeighbor.place left.places right.places

/-- The search tree property: at every node, no key of the left subtree is
greater and no key of the right subtree is smaller. -/
def Tree.IsSearchTree : Tree → Prop
  | .null => True
  | .node k _ left right =>
    (∀ a ∈ left.inorder, compareN a.1.toNeighbor k.toNeighbor ≤ 0) ∧
    (∀ b ∈ right.inorder, compareN b.1.toNeighbor k.toNeighbor ≥ 0) ∧
    left.IsSearchTree ∧ right.IsSearchTree

instance decidableIsSearchTree : (t : Tree) → Decidable t.IsSearchTree
  | .null => .isTrue trivial
  | .node _ _ left right =>
    have := decidableIsSearchTree left
    have := decidableIsSearchTree right
    inferInstanceAs (Decidable (_ ∧ _ ∧ _ ∧ _))

/-! ### Keys and places -/

theorem compareN_le_zero_iff {key1 key2 : Neighbor} :
    compareN key1 key2 ≤ 0 ↔ key1.place ≤ key2.place := by
  rw [← not_lt, ← not_lt]
  exact not_congr compareN_pos_iff

theorem compareN_ge_zero_iff {key1 key2 : Neighbor} :
    compareN key1 key2 ≥ 0 ↔ key2.place ≤ key1.place := by
  rw [ge_iff_le, ← not_lt, ← not_lt]
  exact not_congr compareN_neg_iff

theorem inorder_places (t : Tree) : SearchTree.inorder t.places = t.inorder.map entryPlace := by
  induction t with
  | null => rfl
  | node k v left right ihl ihr =>
    show SearchTree.inorder left.places ++ k.toNeighbor.place :: SearchTree.inorder right.places = _
    rw [ihl, ihr, inorder_node, List.map_append, List.map_cons]
    rfl

theorem isSearchTree_iff {t : Tree} : t.IsSearchTree ↔ Ordered t.places := by
  induction t with
  | null => exact Iff.rfl
  | node k v left right ihl ihr =>
    show (_ ∧ _ ∧ left.IsSearchTree ∧ right.IsSearchTree) ↔
      ((∀ a ∈ SearchTree.inorder left.places, a ≤ k.toNeighbor.place) ∧
        (∀ b ∈ SearchTree.inorder right.places, k.toNeighbor.place ≤ b) ∧
        Ordered left.places ∧ Ordered right.places)
    rw [ihl, ihr, inorder_places, inorder_places, List.forall_mem_map, List.forall_mem_map]
    apply and_congr
    · exact forall₂_congr fun _ _ => compareN_le_zero_iff
    · exact and_congr_left fun _ => forall₂_congr fun _ _ => compareN_ge_zero_iff

/-- A search tree is one whose keys do not descend from left to right. -/
theorem isSearchTree_iff_inorder {t : Tree} :
    t.IsSearchTree ↔
      t.inorder.Pairwise fun a b => compareN a.1.toNeighbor b.1.toNeighbor ≤ 0 := by
  rw [isSearchTree_iff, ordered_iff_pairwise, inorder_places, List.pairwise_map]
  exact List.Pairwise.iff fun _ _ => compareN_le_zero_iff.symm

/-! ### What `check` computes -/

theorem check_node_eq_one_iff {k : NeighborPtr} {v : Ident} {left right : Tree} :
    check (.node k v left right) = 1 ↔
      ¬ left.key?.any (fun lk => compareN k.toNeighbor lk.toNeighbor < 0) ∧
      ¬ right.key?.any (fun rk => compareN k.toNeighbor rk.toNeighbor > 0) ∧
      check left ≠ 0 ∧ check right ≠ 0 := by
  rw [← and_assoc, ← not_or, check]
  split
  · next hchild => exact ⟨nofun, fun h => absurd hchild h.1⟩
  · next hchild =>
    rw [and_iff_right hchild]
    split
    · next hsub => exact ⟨fun _ => hsub, fun _ => rfl⟩
    · next hsub => exact ⟨nofun, fun h => absurd h hsub⟩

theorem check_ne_zero_iff {t : Tree} : check t ≠ 0 ↔ check t = 1 := by
  cases t with
  | null => decide
  | node k v left right =>
    refine ⟨fun h => ?_, fun h => by rw [h]; decide⟩
    rw [check] at h ⊢
    split at h
    · exact absurd rfl h
    · next hchild =>
      rw [if_neg hchild]
      split at h
      · next hsub => exact if_pos hsub
      · exact absurd rfl h

/-- The left child is not greater. -/
theorem any_left_iff {k : NeighborPtr} {t : Tree} :
    t.key?.any (fun lk => compareN k.toNeighbor lk.toNeighbor < 0) ↔
      ¬ ∀ a ∈ root? t.places, a ≤ k.toNeighbor.place := by
  cases t with
  | null => simp [Tree.key?, Tree.places, root?]
  | node lk v left right => simp [Tree.key?, Tree.places, root?, compareN_neg_iff]

/-- The right child is not smaller. -/
theorem any_right_iff {k : NeighborPtr} {t : Tree} :
    t.key?.any (fun rk => compareN k.toNeighbor rk.toNeighbor > 0) ↔
      ¬ ∀ b ∈ root? t.places, k.toNeighbor.place ≤ b := by
  cases t with
  | null => simp [Tree.key?, Tree.places, root?]
  | node rk v left right => simp [Tree.key?, Tree.places, root?, compareN_pos_iff]

/-- `check` compares children. -/
theorem check_eq_one_iff {t : Tree} : check t = 1 ↔ ChildrenOrdered t.places := by
  induction t with
  | null => exact ⟨fun _ => trivial, fun _ => rfl⟩
  | node k v left right ihl ihr =>
    rw [check_node_eq_one_iff, any_left_iff, any_right_iff, check_ne_zero_iff, check_ne_zero_iff,
      not_not, not_not, ihl, ihr]
    exact Iff.rfl

/-- `check` rejects no search tree. -/
theorem check_of_isSearchTree {t : Tree} (h : t.IsSearchTree) : check t = 1 :=
  check_eq_one_iff.mpr (isSearchTree_iff.mp h).children

/-- The trees of the program pass. -/
theorem check_of_sorted {t : Tree} (h : t.Sorted) : check t = 1 := by
  apply check_of_isSearchTree
  rw [isSearchTree_iff_inorder]
  exact List.Pairwise.imp (fun hab => compareN_le_zero_iff.mpr (le_of_lt hab)) h

/-- **The checker**: its answer is right for the trees with a child on the wrong
side of its parent, and for those whose nodes are in order with their in-order
neighbours below the children. -/
theorem check_exact_iff (t : Tree) :
    (check t = 1 ↔ t.IsSearchTree) ↔ ¬ ChildrenOrdered t.places ∨ InnerOrdered t.places := by
  rw [check_eq_one_iff, isSearchTree_iff, ordered_iff]
  constructor
  · intro h
    by_cases hchildren : ChildrenOrdered t.places
    · exact .inr (h.mp hchildren).2
    · exact .inl hchildren
  · rintro (hchildren | hinner)
    · exact ⟨fun h => absurd h hchildren, fun h => absurd h.1 hchildren⟩
    · exact ⟨fun h => ⟨h, hinner⟩, And.left⟩

/-- A tree of three ports: `1` is to the left of `2`, and `3` to the right of `1`. -/
def crossed : Tree :=
  let key (port : UInt16) : NeighborPtr :=
    { ip := Vector.replicate 16 1, port := port, msg := none, addr := port.toNat }
  let val : Ident := { id := 0, lastHello := 0, lastHelloLong := 0 }
  .node (key 2) val (.node (key 1) val .null (.node (key 3) val .null .null)) .null

/-- `3` is not seen on the wrong side of `2`. -/
theorem check_crossed : check crossed = 1 ∧ ¬ crossed.IsSearchTree := by
  decide

end FloodPeer
