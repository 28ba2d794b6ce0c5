/-
FloodPeer/Lib/SearchTree.lean

Search trees, and what is left open when each node is compared with its
children only.

A tree is `Ordered` when the values in the left subtree of every node are at
most its own and those in the right subtree at least; this says that its
in-order list ascends (`ordered_iff_pairwise`).  The comparison of each node
with its two children is less, `ChildrenOrdered`.  What is missing are the
neighbours of a node in the in-order list that lie two or more levels below it:
the end of the right spine under its left child, and of the left spine under
its right child.  Once these are in order too, `InnerOrdered`, nothing else can
be out of place (`ordered_iff`).
-/
import Mathlib.Data.Tree.Basic
import Mathlib.Data.List.Pairwise
import Mathlib.Order.Defs.LinearOrder

namespace SearchTree

variable {α : Type*}

/-! ### Trees as lists -/

/-- The values of a tree, left to right. -/
def inorder : BinaryTree α → List α
  | .nil => []
  | .node x l r => inorder l ++ x :: inorder r

/-- The value at the root. -/
def root? : BinaryTree α → Option α
  | .nil => none
  | .node x _ _ => some x

/-- The value at the end of the left spine. -/
def first? : BinaryTree α → Option α
  | .nil => none
  | .node x l _ => (first? l).or (some x)

/-- The value at the end of the right spine. -/
def last? : BinaryTree α → Option α
  | .nil => none
  | .node x _ r => (last? r).or (some x)

theorem first?_eq (t : BinaryTree α) : first? t = (inorder t).head? := by
  induction t with
  | nil => rfl
  | node x l r ihl _ =>
    show (first? l).or (some x) = (inorder l ++ x :: inorder r).head?
    rw [ihl, List.head?_append, List.head?_cons]

theorem last?_eq (t : BinaryTree α) : last? t = (inorder t).getLast? := by
  induction t with
  | nil => rfl
  | node x l r _ ihr =>
    show (last? r).or (some x) = (inorder l ++ x :: inorder r).getLast?
    rw [ihr, List.getLast?_append, List.getLast?_cons]
    cases (inorder r).getLast? <;> rfl

theorem mem_inorder_of_root? {t : BinaryTree α} {a : α} (h : a ∈ root? t) : a ∈ inorder t := by
  cases t with
  | nil => cases h
  | node x l r =>
    obtain rfl := Option.some.inj h
    exact List.mem_append_right _ List.mem_cons_self

theorem mem_inorder_of_left {t : BinaryTree α} {a : α} (h : a ∈ inorder t.left) :
    a ∈ inorder t := by
  cases t with
  | nil => exact h
  | node x l r => exact List.mem_append_left _ h

theorem mem_inorder_of_right {t : BinaryTree α} {a : α} (h : a ∈ inorder t.right) :
    a ∈ inorder t := by
  cases t with
  | nil => exact h
  | node x l r => exact List.mem_append_right _ (List.mem_cons_of_mem _ h)

theorem mem_inorder_of_first? {t : BinaryTree α} {a : α} (h : a ∈ first? t) : a ∈ inorder t :=
  List.mem_of_head? (first?_eq t ▸ h)

theorem mem_inorder_of_last? {t : BinaryTree α} {a : α} (h : a ∈ last? t) : a ∈ inorder t :=
  List.mem_of_getLast? (last?_eq t ▸ h)

/-- The left spine ends below the root, or at it. -/
theorem first?_cases {t : BinaryTree α} {a : α} (h : a ∈ first? t) :
    a ∈ first? t.left ∨ a ∈ root? t := by
  cases t with
  | nil => cases h
  | node x l r =>
    rcases Option.or_eq_some_iff.mp h with hl | ⟨-, hx⟩
    · exact .inl hl
    · exact .inr hx

/-- The right spine ends below the root, or at it. -/
theorem last?_cases {t : BinaryTree α} {a : α} (h : a ∈ last? t) :
    a ∈ last? t.right ∨ a ∈ root? t := by
  cases t with
  | nil => cases h
  | node x l r =>
    rcases Option.or_eq_some_iff.mp h with hr | ⟨-, hx⟩
    · exact .inl hr
    · exact .inr hx

/-! ### Orders on trees -/

section LE

variable [LE α]

/-- The search tree property. -/
def Ordered : BinaryTree α → Prop
  | .nil => True
  | .node x l r =>
    (∀ a ∈ inorder l, a ≤ x) ∧ (∀ b ∈ inorder r, x ≤ b) ∧ Ordered l ∧ Ordered r

/-- Every node is in order with its children. -/
def ChildrenOrdered : BinaryTree α → Prop
  | .nil => True
  | .node x l r =>
    (∀ a ∈ root? l, a ≤ x) ∧ (∀ b ∈ root? r, x ≤ b) ∧ ChildrenOrdered l ∧ ChildrenOrdered r

/-- Every node is in order with its in-order neighbours below its children. -/
def InnerOrdered : BinaryTree α → Prop
  | .nil => True
  | .node x l r =>
    (∀ a ∈ last? l.right, a ≤ x) ∧ (∀ b ∈ first? r.left, x ≤ b) ∧ InnerOrdered l ∧ InnerOrdered r

theorem Ordered.children {t : BinaryTree α} (h : Ordered t) : ChildrenOrdered t := by
  induction t with
  | nil => trivial
  | node x l r ihl ihr =>
    obtain ⟨hlx, hxr, hl, hr⟩ := h
    exact ⟨fun a ha => hlx a (mem_inorder_of_root? ha), fun b hb => hxr b (mem_inorder_of_root? hb),
      ihl hl, ihr hr⟩

theorem Ordered.inner {t : BinaryTree α} (h : Ordered t) : InnerOrdered t := by
  induction t with
  | nil => trivial
  | node x l r ihl ihr =>
    obtain ⟨hlx, hxr, hl, hr⟩ := h
    refine ⟨fun a ha => ?_, fun b hb => ?_, ihl hl, ihr hr⟩
    · exact hlx a (mem_inorder_of_right (mem_inorder_of_last? ha))
    · exact hxr b (mem_inorder_of_left (mem_inorder_of_first? hb))

end LE

section Preorder

variable [Preorder α]

/-- A search tree is an ascending list. -/
theorem ordered_iff_pairwise {t : BinaryTree α} :
    Ordered t ↔ (inorder t).Pairwise (· ≤ ·) := by
  induction t with
  | nil => exact ⟨fun _ => List.Pairwise.nil, fun _ => trivial⟩
  | node x l r ihl ihr =>
    show (_ ∧ _ ∧ Ordered l ∧ Ordered r) ↔ (inorder l ++ x :: inorder r).Pairwise (· ≤ ·)
    rw [ihl, ihr, List.pairwise_append, List.pairwise_cons]
    constructor
    · rintro ⟨hlx, hxr, hl, hr⟩
      refine ⟨hl, ⟨hxr, hr⟩, fun a ha b hb => ?_⟩
      rcases List.mem_cons.mp hb with rfl | hb
      · exact hlx a ha
      · exact le_trans (hlx a ha) (hxr b hb)
    · rintro ⟨hl, ⟨hxr, hr⟩, hlr⟩
      exact ⟨fun a ha => hlr a ha x List.mem_cons_self, hxr, hl, hr⟩

theorem Ordered.first?_le {t : BinaryTree α} (h : Ordered t) {a : α} (ha : a ∈ inorder t) :
    ∃ b ∈ first? t, b ≤ a := by
  have hne : inorder t ≠ [] := List.ne_nil_of_mem ha
  refine ⟨(inorder t).head hne, ?_, (ordered_iff_pairwise.mp h).rel_head ha⟩
  rw [first?_eq]
  exact List.head?_eq_some_head hne

theorem Ordered.le_last? {t : BinaryTree α} (h : Ordered t) {a : α} (ha : a ∈ inorder t) :
    ∃ b ∈ last? t, a ≤ b := by
  have hne : inorder t ≠ [] := List.ne_nil_of_mem ha
  refine ⟨(inorder t).getLast hne, ?_, (ordered_iff_pairwise.mp h).rel_getLast ha⟩
  rw [last?_eq]
  exact List.getLast?_eq_some_getLast hne

/-- **What the children leave open**: the in-order neighbours below them. -/
theorem ordered_iff {t : BinaryTree α} : Ordered t ↔ ChildrenOrdered t ∧ InnerOrdered t := by
  refine ⟨fun h => ⟨h.children, h.inner⟩, ?_⟩
  induction t with
  | nil => exact fun _ => trivial
  | node x l r ihl ihr =>
    rintro ⟨⟨hlc, hrc, hl, hr⟩, hli, hri, hl', hr'⟩
    have hleft : Ordered l := ihl ⟨hl, hl'⟩
    have hright : Ordered r := ihr ⟨hr, hr'⟩
    refine ⟨fun a ha => ?_, fun b hb => ?_, hleft, hright⟩
    · -- nothing in the left subtree is above the end of its right spine
      obtain ⟨z, hz, haz⟩ := hleft.le_last? ha
      rcases last?_cases hz with hz | hz
      · exact le_trans haz (hli z hz)
      · exact le_trans haz (hlc z hz)
    · obtain ⟨z, hz, hzb⟩ := hright.first?_le hb
      rcases first?_cases hz with hz | hz
      · exact le_trans (hri z hz) hzb
      · exact le_trans (hrc z hz) hzb

end Preorder

end SearchTree
