/-
FloodPeer/TreeMap.lean

The search trees of `abr.c` as finite maps.

A tree is `Sorted` when its in-order list ascends in the order of `compare_n`.
On sorted trees `get_ident` is `SortedAssoc.lookup`, `add_neighbor_aux` is
`SortedAssoc.upsert` and `remove_neighbor_aux` is `SortedAssoc.erase` on that
list, whatever the shape of the tree.
-/
import FloodPeer.Frames
import FloodPeer.Order
import FloodPeer.Lib.SortedAssoc

namespace FloodPeer

open StateLogic SortedAssoc

/-- The key of a node in the order of the tree. -/
def entryPlace (e : NeighborPtr × Ident) : List Nat ×ₗ Nat := e.1.toNeighbor.place

/-- The search tree property. -/
def Tree.Sorted (t : Tree) : Prop := Ascending entryPlace t.inorder

/-- The node for the address of `key`, found in the in-order list. -/
def Tree.find? (t : Tree) (key : Neighbor) : Option (NeighborPtr × Ident) :=
  lookup entryPlace key.place t.inorder

@[simp] theorem inorder_null : Tree.null.inorder = [] := rfl

@[simp] theorem inorder_node (k : NeighborPtr) (v : Ident) (left right : Tree) :
    (Tree.node k v left right).inorder = left.inorder ++ (k, v) :: right.inorder := rfl

theorem sorted_null : Tree.null.Sorted := List.Pairwise.nil

theorem sorted_node_iff {k : NeighborPtr} {v : Ident} {left right : Tree} :
    (Tree.node k v left right).Sorted ↔ left.Sorted ∧ right.Sorted ∧
      (∀ a ∈ left.inorder, entryPlace a < k.toNeighbor.place) ∧
      ∀ b ∈ right.inorder, k.toNeighbor.place < entryPlace b :=
  ascending_node_iff entryPlace

/-! ### Search -/

theorem getIdent_eq {t : Tree} (h : t.Sorted) (key : Neighbor) :
    getIdent key t = (t.find? key).map Prod.snd := by
  induction t with
  | null => rfl
  | node k v left right ihl ihr =>
    obtain ⟨hl, hr, hlk, hkr⟩ := sorted_node_iff.mp h
    simp only [getIdent, Tree.find?, inorder_node]
    by_cases heq : compareN k.toNeighbor key = 0
    · rw [if_pos heq, lookup_of_key_eq entryPlace (x := (k, v)) (compareN_eq_zero_iff.mp heq) hlk]
      rfl
    rw [if_neg heq]
    by_cases hgt : compareN k.toNeighbor key > 0
    · rw [if_pos hgt, lookup_of_lt_key entryPlace (x := (k, v)) (compareN_pos_iff.mp hgt) hkr,
        ihl hl]
      rfl
    · have hlt : compareN k.toNeighbor key < 0 := by omega
      rw [if_neg hgt, lookup_of_key_lt entryPlace (x := (k, v))
        (compareN_neg_iff.mp hlt) hlk, ihr hr]
      rfl

theorem find?_eq_some_iff {t : Tree} (h : t.Sorted) {key : Neighbor} {e : NeighborPtr × Ident} :
    t.find? key = some e ↔ e ∈ t.inorder ∧ e.1.toNeighbor.place = key.place :=
  lookup_eq_some_iff entryPlace h

/-! ### Deletion -/

/-- `remove_min` takes the first node off a tree with a left child. -/
theorem inorder_removeMin (k : NeighborPtr) (v : Ident) {left : Tree} (right : Tree)
    (hleft : left ≠ .null) : ∃ mk mv ml mr,
      (removeMin (.node k v left right)).1 = .node mk mv ml mr ∧
      (Tree.node k v left right).inorder =
        (mk, mv) :: (removeMin (.node k v left right)).2.inorder := by
  induction left generalizing k v right with
  | null => exact absurd rfl hleft
  | node lk lv lleft lright ih _ =>
    cases lleft with
    | null => exact ⟨lk, lv, .null, lright, rfl, by simp [removeMin]⟩
    | node k2 v2 l2 r2 =>
      obtain ⟨mk, mv, ml, mr, hmin, hrest⟩ := ih lk lv lright (by simp)
      refine ⟨mk, mv, ml, mr, hmin, ?_⟩
      rw [inorder_node, hrest]
      rfl

/-- The tree put in the place of a node holds the nodes of its subtrees. -/
theorem inorder_replacement (l r : Tree) :
    (replacement l r).inorder = l.inorder ++ r.inorder := by
  cases r with
  | null => simp [replacement]
  | node rk rv rleft rright =>
    cases rleft with
    | null => simp [replacement]
    | node k2 v2 l2 r2 =>
      obtain ⟨mk, mv, ml, mr, hmin, hrest⟩ :=
        @inorder_removeMin rk rv (.node k2 v2 l2 r2) rright (by simp)
      simp only [replacement]
      rcases hpair : removeMin (.node rk rv (.node k2 v2 l2 r2) rright) with ⟨m, r'⟩
      rw [hpair] at hmin hrest
      obtain rfl : m = .node mk mv ml mr := hmin
      rw [hrest]
      rfl

theorem inorder_removeNeighborAux {t : Tree} (h : t.Sorted) (key : Neighbor) (w : World) :
    (value (removeNeighborAux key t) w).inorder = erase entryPlace key.place t.inorder := by
  induction t generalizing w with
  | null => rfl
  | node k v left right ihl ihr =>
    obtain ⟨hl, hr, hlk, hkr⟩ := sorted_node_iff.mp h
    simp only [removeNeighborAux, value_ite, value_bind, value_pure, inorder_node]
    by_cases heq : compareN k.toNeighbor key = 0
    · rw [if_pos heq, inorder_replacement,
        erase_of_key_eq entryPlace (x := (k, v)) (compareN_eq_zero_iff.mp heq) hlk hkr]
    rw [if_neg heq]
    by_cases hgt : compareN k.toNeighbor key > 0
    · rw [if_pos hgt, erase_of_lt_key entryPlace (x := (k, v)) (compareN_pos_iff.mp hgt) hkr,
        inorder_node, ihl hl]
    · have hlt : compareN k.toNeighbor key < 0 := by omega
      rw [if_neg hgt, erase_of_key_lt entryPlace (x := (k, v))
        (compareN_neg_iff.mp hlt) hlk, inorder_node, ihr hr]

/-- All that happens besides is that the message of the removed node is freed. -/
theorem after_removeNeighborAux {t : Tree} (h : t.Sorted) (key : Neighbor) (w : World) :
    after (removeNeighborAux key t) w =
      after (freeIfSet ((t.find? key).bind fun e => e.1.msg)) w := by
  induction t generalizing w with
  | null => rfl
  | node k v left right ihl ihr =>
    obtain ⟨hl, hr, hlk, hkr⟩ := sorted_node_iff.mp h
    simp only [removeNeighborAux, after_ite, after_bind, after_pure, Tree.find?, inorder_node]
    by_cases heq : compareN k.toNeighbor key = 0
    · rw [if_pos heq, lookup_of_key_eq entryPlace (x := (k, v)) (compareN_eq_zero_iff.mp heq) hlk]
      rfl
    rw [if_neg heq]
    by_cases hgt : compareN k.toNeighbor key > 0
    · rw [if_pos hgt, lookup_of_lt_key entryPlace (x := (k, v)) (compareN_pos_iff.mp hgt) hkr,
        ihl hl]
      rfl
    · have hlt : compareN k.toNeighbor key < 0 := by omega
      rw [if_neg hgt, lookup_of_key_lt entryPlace (x := (k, v))
        (compareN_neg_iff.mp hlt) hlk, ihr hr]
      rfl

theorem sorted_removeNeighborAux {t : Tree} (h : t.Sorted) (key : Neighbor) (w : World) :
    (value (removeNeighborAux key t) w).Sorted := by
  unfold Tree.Sorted
  rw [inorder_removeNeighborAux h]
  exact Ascending.erase h

/-! ### Insertion -/

/-- The two outcomes of `init`: nothing, or a node whose key is at a fresh
address. -/
theorem init_cases (key : Neighbor) (val : Ident) (left right : Tree) (w : World) :
    value (init key val left right) w = .null ∨
    ∃ a, w.next ≤ a ∧ a < (after (init key val left right) w).next ∧
      value (init key val left right) w = .node { key with addr := a } val left right := by
  simp only [init, value_bind, after_bind]
  rcases malloc_cases w with ⟨hv, -⟩ | ⟨hv, hn⟩ <;> rw [hv]
  · exact .inl rfl
  generalize after malloc w = w₁ at hn ⊢
  simp only [value_bind, after_bind]
  rcases malloc_cases w₁ with ⟨hv₁, -⟩ | ⟨hv₁, hn₁⟩ <;> rw [hv₁]
  · exact .inl rfl
  generalize after malloc w₁ = w₂ at hn₁ ⊢
  simp only [value_bind, after_bind]
  rcases malloc_cases w₂ with ⟨hv₂, -⟩ | ⟨hv₂, hn₂⟩ <;> rw [hv₂]
  · exact .inl rfl
  exact .inr ⟨w₂.next, by omega, by rw [after_pure]; omega, rfl⟩

/-- The update branch of `add_neighbor_aux`: it keeps the key and the
identifier of the record. -/
def touchEntry (val : Ident) (e : NeighborPtr × Ident) : NeighborPtr × Ident :=
  (e.1, { e.2 with lastHello := val.lastHello, lastHelloLong := val.lastHelloLong })

/-- What `add_neighbor_aux` makes of a tree, with its return code.  Addresses
handed out meanwhile are in `[lo, hi)`. -/
inductive Added (key : Neighbor) (val : Ident) (t : Tree) (lo hi : Nat) : Tree → Int → Prop
  /-- There was no memory for a new node. -/
  | failed (habsent : ∀ e ∈ t.inorder, entryPlace e ≠ key.place) : Added key val t lo hi t 0
  /-- A new node, its key at a fresh address. -/
  | added {t' : Tree} (a : Nat) (hlo : lo ≤ a) (hhi : a < hi)
      (habsent : ∀ e ∈ t.inorder, entryPlace e ≠ key.place)
      (hinorder : t'.inorder = upsert entryPlace key.place ({ key with addr := a }, val)
        (touchEntry val) t.inorder) : Added key val t lo hi t' 1
  /-- New times in an existing record. -/
  | updated {t' : Tree} (e : NeighborPtr × Ident) (he : e ∈ t.inorder)
      (hplace : entryPlace e = key.place)
      (hinorder : ∀ fresh, t'.inorder = upsert entryPlace key.place fresh
        (touchEntry val) t.inorder) : Added key val t lo hi t' 2

section Insertion

variable {key : Neighbor} {val : Ident} {k : NeighborPtr} {v : Ident} {left right : Tree}
  {lo hi : Nat} {rc : Int}

theorem Added.toLeft {left' : Tree} (h : (Tree.node k v left right).Sorted)
    (hk : key.place < k.toNeighbor.place) (hadd : Added key val left lo hi left' rc) :
    Added key val (.node k v left right) lo hi (.node k v left' right) rc := by
  obtain ⟨-, -, -, hkr⟩ := sorted_node_iff.mp h
  have hright : ∀ e ∈ (k, v) :: right.inorder, entryPlace e ≠ key.place := by
    intro e he
    rcases List.mem_cons.mp he with rfl | he
    · exact ne_of_gt hk
    · exact ne_of_gt (lt_trans hk (hkr e he))
  cases hadd with
  | failed habsent =>
    exact .failed fun e he => (List.mem_append.mp he).elim (habsent e) (hright e)
  | added a hlo hhi habsent hinorder =>
    refine .added a hlo hhi (fun e he => (List.mem_append.mp he).elim (habsent e) (hright e)) ?_
    rw [inorder_node, inorder_node, upsert_of_lt_key entryPlace (x := (k, v)) hk, hinorder]
  | updated e he hplace hinorder =>
    refine .updated e (List.mem_append_left _ he) hplace fun fresh => ?_
    rw [inorder_node, inorder_node, upsert_of_lt_key entryPlace (x := (k, v)) hk, hinorder fresh]

theorem Added.toRight {right' : Tree} (h : (Tree.node k v left right).Sorted)
    (hk : k.toNeighbor.place < key.place) (hadd : Added key val right lo hi right' rc) :
    Added key val (.node k v left right) lo hi (.node k v left right') rc := by
  obtain ⟨-, -, hlk, -⟩ := sorted_node_iff.mp h
  have hleft : ∀ e ∈ (k, v) :: right.inorder, e ∈ right.inorder ∨ entryPlace e ≠ key.place := by
    intro e he
    rcases List.mem_cons.mp he with rfl | he
    · exact .inr (ne_of_lt hk)
    · exact .inl he
  have hall : (∀ e ∈ right.inorder, entryPlace e ≠ key.place) →
      ∀ e ∈ (Tree.node k v left right).inorder, entryPlace e ≠ key.place := by
    intro habsent e he
    rcases List.mem_append.mp he with he | he
    · exact ne_of_lt (lt_trans (hlk e he) hk)
    · exact (hleft e he).elim (habsent e) id
  cases hadd with
  | failed habsent => exact .failed (hall habsent)
  | added a hlo hhi habsent hinorder =>
    refine .added a hlo hhi (hall habsent) ?_
    rw [inorder_node, inorder_node, upsert_of_key_lt entryPlace (x := (k, v)) hk hlk, hinorder]
  | updated e he hplace hinorder =>
    refine .updated e (by simp [he]) hplace fun fresh => ?_
    rw [inorder_node, inorder_node, upsert_of_key_lt entryPlace (x := (k, v)) hk hlk,
      hinorder fresh]

/-- `init` under a parent without the child in question. -/
theorem added_init (key : Neighbor) (val : Ident) (w : World) :
    Added key val .null w.next (after (init key val .null .null) w).next
      (value (init key val .null .null) w)
      (if value (init key val .null .null) w ≠ .null then 1 else 0) := by
  rcases init_cases key val .null .null w with hv | ⟨a, hlo, hhi, hv⟩
  · rw [hv]
    exact .failed (by simp)
  · rw [hv]
    exact .added a hlo hhi (by simp) rfl

end Insertion

theorem added_addNeighborAux {t : Tree} (h : t.Sorted) (ht : t ≠ .null) (key : Neighbor)
    (val : Ident) (w : World) :
    Added key val t w.next (after (addNeighborAux key val t) w).next
      (value (addNeighborAux key val t) w).1 (value (addNeighborAux key val t) w).2 := by
  induction t with
  | null => exact absurd rfl ht
  | node k v left right ihl ihr =>
    obtain ⟨hl, hr, hlk, hkr⟩ := sorted_node_iff.mp h
    simp only [addNeighborAux, value_ite, after_ite, value_bind, after_bind, value_pure,
      after_pure]
    by_cases hgt : compareN k.toNeighbor key > 0
    · simp only [if_pos hgt]
      by_cases hnull : left = .null
      · subst hnull
        simpa using (added_init key val w).toLeft h (compareN_pos_iff.mp hgt)
      · simpa [hnull] using (ihl hl hnull).toLeft h (compareN_pos_iff.mp hgt)
    by_cases hlt : compareN k.toNeighbor key < 0
    · simp only [if_neg hgt, if_pos hlt]
      by_cases hnull : right = .null
      · subst hnull
        simpa using (added_init key val w).toRight h (compareN_neg_iff.mp hlt)
      · simpa [hnull] using (ihr hr hnull).toRight h (compareN_neg_iff.mp hlt)
    · simp only [if_neg hgt, if_neg hlt]
      have hzero : compareN k.toNeighbor key = 0 := by omega
      have heq : entryPlace (k, v) = key.place := compareN_eq_zero_iff.mp hzero
      refine .updated (k, v) (by simp) heq fun fresh => ?_
      rw [inorder_node, inorder_node, upsert_of_key_eq entryPlace (x := (k, v)) heq hlk]
      rfl

/-- Insertion keeps the search tree property. -/
theorem Added.sorted {key : Neighbor} {val : Ident} {t t' : Tree} {lo hi : Nat} {rc : Int}
    (hadd : Added key val t lo hi t' rc) (h : t.Sorted) : t'.Sorted := by
  cases hadd with
  | failed habsent => exact h
  | added a hlo hhi habsent hinorder =>
    unfold Tree.Sorted
    rw [hinorder]
    exact Ascending.upsert entryPlace h rfl fun _ => rfl
  | updated e he hplace hinorder =>
    unfold Tree.Sorted
    rw [hinorder e]
    exact Ascending.upsert entryPlace h hplace fun _ => rfl

end FloodPeer
