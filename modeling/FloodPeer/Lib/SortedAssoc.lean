/-
FloodPeer/Lib/SortedAssoc.lean

Finite maps as ascending lists.

`f : α → κ` gives the key of an entry; a list is `Ascending f` when its keys
increase strictly.  Such a list is a finite map, and the in-order list of a
search tree is one.  The lemmas here say what the three map operations do at
the root of such a tree, that is on a list `l ++ x :: r` whose middle element
is compared with the key.
-/
import Mathlib.Order.Lattice
import Mathlib.Data.List.Basic
import Mathlib.Data.List.Nodup
import Mathlib.Tactic.Common

namespace SortedAssoc

variable {α κ : Type*} [LinearOrder κ] (f : α → κ)

/-- The keys increase strictly along the list. -/
def Ascending (l : List α) : Prop := l.Pairwise fun a b => f a < f b

theorem ascending_node_iff {l r : List α} {x : α} :
    Ascending f (l ++ x :: r) ↔
      Ascending f l ∧ Ascending f r ∧ (∀ a ∈ l, f a < f x) ∧ ∀ b ∈ r, f x < f b := by
  unfold Ascending
  rw [List.pairwise_append, List.pairwise_cons]
  constructor
  · rintro ⟨hl, ⟨hxr, hr⟩, hlr⟩
    exact ⟨hl, hr, fun a ha => hlr a ha x (by simp), hxr⟩
  · rintro ⟨hl, hr, hlx, hxr⟩
    refine ⟨hl, ⟨hxr, hr⟩, fun a ha b hb => ?_⟩
    rcases List.mem_cons.mp hb with rfl | hb
    · exact hlx a ha
    · exact lt_trans (hlx a ha) (hxr b hb)

variable {f}

/-- Entries with the same key are the same entry. -/
theorem Ascending.eq_of_key_eq {l : List α} (h : Ascending f l) {a b : α}
    (ha : a ∈ l) (hb : b ∈ l) (hab : f a = f b) : a = b := by
  induction l with
  | nil => cases ha
  | cons x xs ih =>
    have hx : ∀ b ∈ xs, f x < f b := fun b => List.rel_of_pairwise_cons h
    rcases List.mem_cons.mp ha with rfl | ha' <;> rcases List.mem_cons.mp hb with rfl | hb'
    · rfl
    · exact absurd hab (ne_of_lt (hx _ hb'))
    · exact absurd hab (ne_of_gt (hx _ ha'))
    · exact ih (List.Pairwise.of_cons h) ha' hb'

variable (f)

/-! ### Search -/

/-- The entry with key `k`. -/
def lookup (k : κ) (l : List α) : Option α := l.find? fun a => f a = k

theorem lookup_of_key_eq {l r : List α} {x : α} {k : κ} (hk : f x = k)
    (hl : ∀ a ∈ l, f a < f x) : lookup f k (l ++ x :: r) = some x := by
  have hnone : l.find? (fun a => f a = k) = none := by
    rw [List.find?_eq_none]
    intro a ha
    simpa using ne_of_lt (hk ▸ hl a ha)
  simp [lookup, List.find?_append, hnone, hk]

theorem lookup_of_lt_key {l r : List α} {x : α} {k : κ} (hk : k < f x)
    (hr : ∀ b ∈ r, f x < f b) : lookup f k (l ++ x :: r) = lookup f k l := by
  have hnone : r.find? (fun a => f a = k) = none := by
    rw [List.find?_eq_none]
    intro b hb
    simpa using ne_of_gt (lt_trans hk (hr b hb))
  simp [lookup, List.find?_append, hnone, ne_of_gt hk]

theorem lookup_of_key_lt {l r : List α} {x : α} {k : κ} (hk : f x < k)
    (hl : ∀ a ∈ l, f a < f x) : lookup f k (l ++ x :: r) = lookup f k r := by
  have hnone : l.find? (fun a => f a = k) = none := by
    rw [List.find?_eq_none]
    intro a ha
    simpa using ne_of_lt (lt_trans (hl a ha) hk)
  simp [lookup, List.find?_append, hnone, ne_of_lt hk]

theorem lookup_eq_some_iff {l : List α} (h : Ascending f l) {k : κ} {a : α} :
    lookup f k l = some a ↔ a ∈ l ∧ f a = k := by
  constructor
  · intro ha
    exact ⟨List.mem_of_find?_eq_some ha, by simpa using List.find?_some ha⟩
  · rintro ⟨hmem, rfl⟩
    cases hb : lookup f (f a) l with
    | none =>
      have hnone := List.find?_eq_none.mp hb a hmem
      simp at hnone
    | some b =>
      have hfb : f b = f a := by simpa using List.find?_some hb
      rw [h.eq_of_key_eq (List.mem_of_find?_eq_some hb) hmem hfb]

theorem lookup_eq_none_iff {l : List α} {k : κ} :
    lookup f k l = none ↔ ∀ a ∈ l, f a ≠ k := by
  simp [lookup]

/-! ### Insertion or update -/

/-- Apply `upd` to the entry with key `k`, or insert `fresh` at its place. -/
def upsert (k : κ) (fresh : α) (upd : α → α) : List α → List α
  | [] => [fresh]
  | x :: xs =>
    if f x = k then upd x :: xs
    else if k < f x then fresh :: x :: xs
    else x :: upsert k fresh upd xs

variable {k : κ} {fresh : α} {upd : α → α}

theorem upsert_of_lt_key {l r : List α} {x : α} (hk : k < f x) :
    upsert f k fresh upd (l ++ x :: r) = upsert f k fresh upd l ++ x :: r := by
  induction l with
  | nil => simp [upsert, ne_of_gt hk, hk]
  | cons y ys ih =>
    simp only [List.cons_append, upsert]
    split_ifs <;> simp [ih]

theorem upsert_of_all_lt {l r : List α} (hl : ∀ a ∈ l, f a < k) :
    upsert f k fresh upd (l ++ r) = l ++ upsert f k fresh upd r := by
  induction l with
  | nil => rfl
  | cons y ys ih =>
    have hy := hl y (by simp)
    rw [List.cons_append, upsert, if_neg (ne_of_lt hy), if_neg (not_lt_of_gt hy),
      ih fun a ha => hl a (by simp [ha])]
    rfl

theorem upsert_of_key_lt {l r : List α} {x : α} (hk : f x < k)
    (hl : ∀ a ∈ l, f a < f x) :
    upsert f k fresh upd (l ++ x :: r) = l ++ x :: upsert f k fresh upd r := by
  rw [upsert_of_all_lt f fun a ha => lt_trans (hl a ha) hk, upsert, if_neg (ne_of_lt hk),
    if_neg (not_lt_of_gt hk)]

theorem upsert_of_key_eq {l r : List α} {x : α} (hk : f x = k)
    (hl : ∀ a ∈ l, f a < f x) :
    upsert f k fresh upd (l ++ x :: r) = l ++ upd x :: r := by
  rw [upsert_of_all_lt f fun a ha => hk ▸ hl a ha, upsert, if_pos hk]

/-- Without an element under the key, `fresh` is put somewhere. -/
theorem upsert_of_forall_ne {l : List α} (h : ∀ a ∈ l, f a ≠ k) :
    ∃ l₁ l₂, l = l₁ ++ l₂ ∧ upsert f k fresh upd l = l₁ ++ fresh :: l₂ := by
  induction l with
  | nil => exact ⟨[], [], rfl, rfl⟩
  | cons x xs ih =>
    have hx : f x ≠ k := h x List.mem_cons_self
    rw [upsert, if_neg hx]
    by_cases hlt : k < f x
    · exact ⟨[], x :: xs, rfl, if_pos hlt⟩
    · obtain ⟨l₁, l₂, rfl, heq⟩ := ih fun a ha => h a (List.mem_cons_of_mem _ ha)
      refine ⟨x :: l₁, l₂, rfl, ?_⟩
      rw [if_neg hlt, heq]
      rfl

/-- Membership after an insertion or update. -/
theorem mem_upsert_iff {l : List α} (h : Ascending f l) {a : α} :
    a ∈ upsert f k fresh upd l ↔
      (a ∈ l ∧ f a ≠ k) ∨ (∃ b ∈ l, f b = k ∧ a = upd b) ∨
        ((∀ b ∈ l, f b ≠ k) ∧ a = fresh) := by
  induction l with
  | nil => simp [upsert]
  | cons x xs ih =>
    have hx : ∀ b ∈ xs, f x < f b := fun b => List.rel_of_pairwise_cons h
    have ih := ih (List.Pairwise.of_cons h)
    rw [upsert]
    split_ifs with hk hlt
    · -- the key is here, and not again behind
      subst hk
      have hne : ∀ b ∈ xs, f b ≠ f x := fun b hb => ne_of_gt (hx _ hb)
      constructor
      · intro ha
        rcases List.mem_cons.mp ha with rfl | ha
        · exact .inr (.inl ⟨x, by simp, rfl, rfl⟩)
        · exact .inl ⟨by simp [ha], hne a ha⟩
      · rintro (⟨ha, hak⟩ | ⟨b, hb, hbk, rfl⟩ | ⟨hnone, -⟩)
        · rcases List.mem_cons.mp ha with rfl | ha
          · exact absurd rfl hak
          · simp [ha]
        · rcases List.mem_cons.mp hb with rfl | hb
          · simp
          · exact absurd hbk (hne b hb)
        · exact absurd rfl (hnone x (by simp))
    · -- its place has been passed: the key is nowhere
      have hne : ∀ b ∈ x :: xs, f b ≠ k := by
        intro b hb
        rcases List.mem_cons.mp hb with rfl | hb
        · exact hk
        · exact ne_of_gt (lt_trans hlt (hx _ hb))
      constructor
      · intro ha
        rcases List.mem_cons.mp ha with rfl | ha
        · exact .inr (.inr ⟨hne, rfl⟩)
        · exact .inl ⟨ha, hne a ha⟩
      · rintro (⟨ha, -⟩ | ⟨b, hb, hbk, -⟩ | ⟨-, rfl⟩)
        · exact List.mem_cons_of_mem _ ha
        · exact absurd hbk (hne b hb)
        · simp
    · rw [List.mem_cons, ih]
      constructor
      · rintro (rfl | ⟨ha, hak⟩ | ⟨b, hb, hbk, rfl⟩ | ⟨hnone, rfl⟩)
        · exact .inl ⟨by simp, hk⟩
        · exact .inl ⟨by simp [ha], hak⟩
        · exact .inr (.inl ⟨b, by simp [hb], hbk, rfl⟩)
        · exact .inr (.inr ⟨by simpa [hk] using hnone, rfl⟩)
      · rintro (⟨ha, hak⟩ | ⟨b, hb, hbk, rfl⟩ | ⟨hnone, rfl⟩)
        · rcases List.mem_cons.mp ha with rfl | ha
          · exact .inl rfl
          · exact .inr (.inl ⟨ha, hak⟩)
        · rcases List.mem_cons.mp hb with rfl | hb
          · exact absurd hbk hk
          · exact .inr (.inr (.inl ⟨b, hb, hbk, rfl⟩))
        · exact .inr (.inr (.inr ⟨fun b hb => hnone b (by simp [hb]), rfl⟩))

/-- An insertion or update that keeps the key keeps the list ascending. -/
theorem Ascending.upsert {l : List α} (h : Ascending f l) (hfresh : f fresh = k)
    (hupd : ∀ a, f (upd a) = f a) : Ascending f (upsert f k fresh upd l) := by
  induction l with
  | nil => simp [SortedAssoc.upsert, Ascending]
  | cons x xs ih =>
    have hx : ∀ b ∈ xs, f x < f b := fun b => List.rel_of_pairwise_cons h
    have hxs := List.Pairwise.of_cons h
    rw [SortedAssoc.upsert]
    split_ifs with hk hlt
    · exact List.Pairwise.cons (fun b hb => by rw [hupd]; exact hx _ hb) hxs
    · refine List.Pairwise.cons (fun b hb => ?_) h
      rw [hfresh]
      rcases List.mem_cons.mp hb with rfl | hb
      · exact hlt
      · exact lt_trans hlt (hx _ hb)
    · refine List.Pairwise.cons (fun b hb => ?_) (ih hxs)
      rcases (mem_upsert_iff f hxs).mp hb with ⟨hb, -⟩ | ⟨c, hc, -, rfl⟩ | ⟨-, rfl⟩
      · exact hx _ hb
      · rw [hupd]; exact hx _ hc
      · rw [hfresh]; exact lt_of_le_of_ne (le_of_not_gt hlt) hk

/-! ### Removal -/

/-- The list without the entry with key `k`. -/
def erase (k : κ) (l : List α) : List α := l.filter fun a => f a ≠ k

theorem mem_erase_iff {l : List α} {a : α} : a ∈ erase f k l ↔ a ∈ l ∧ f a ≠ k := by
  simp [erase]

variable {f}

theorem Ascending.erase {l : List α} (h : Ascending f l) : Ascending f (erase f k l) :=
  List.Pairwise.filter _ h

variable (f)

theorem erase_of_forall_ne {l : List α} (h : ∀ a ∈ l, f a ≠ k) : erase f k l = l := by
  rw [erase, List.filter_eq_self]
  simpa using h

theorem erase_of_key_eq {l r : List α} {x : α} (hk : f x = k)
    (hl : ∀ a ∈ l, f a < f x) (hr : ∀ b ∈ r, f x < f b) :
    erase f k (l ++ x :: r) = l ++ r := by
  have hlk := erase_of_forall_ne f (k := k) fun a ha => hk ▸ ne_of_lt (hl a ha)
  have hrk := erase_of_forall_ne f (k := k) fun b hb => hk ▸ ne_of_gt (hr b hb)
  unfold erase at *
  rw [List.filter_append, hlk, List.filter_cons_of_neg (by simp [hk]), hrk]

theorem erase_of_lt_key {l r : List α} {x : α} (hk : k < f x)
    (hr : ∀ b ∈ r, f x < f b) : erase f k (l ++ x :: r) = erase f k l ++ x :: r := by
  have hrk := erase_of_forall_ne f (k := k) fun b hb => ne_of_gt (lt_trans hk (hr b hb))
  unfold erase at *
  rw [List.filter_append, List.filter_cons_of_pos (by simpa using ne_of_gt hk), hrk]

theorem erase_of_key_lt {l r : List α} {x : α} (hk : f x < k)
    (hl : ∀ a ∈ l, f a < f x) : erase f k (l ++ x :: r) = l ++ x :: erase f k r := by
  have hlk := erase_of_forall_ne f (k := k) fun a ha => ne_of_lt (lt_trans (hl a ha) hk)
  unfold erase at *
  rw [List.filter_append, hlk, List.filter_cons_of_pos (by simpa using ne_of_lt hk)]

/-! ### Repeated removal -/

/-- The list without the entries whose keys are among `ks`. -/
def eraseAll (ks : List κ) (l : List α) : List α := l.filter fun a => f a ∉ ks

@[simp] theorem eraseAll_nil (l : List α) : eraseAll f [] l = l := by
  simp [eraseAll]

/-- One removal after the other. -/
theorem eraseAll_cons (k : κ) (ks : List κ) (l : List α) :
    eraseAll f (k :: ks) l = eraseAll f ks (erase f k l) := by
  unfold eraseAll erase
  rw [List.filter_filter]
  apply List.filter_congr
  intro a _
  simp [Bool.and_comm]

theorem Ascending.inj {f : α → κ} {l : List α} (h : Ascending f l) {a b : α} (ha : a ∈ l)
    (hb : b ∈ l) (hab : f a = f b) : a = b := by
  have hpair : (l.map f).Nodup := List.pairwise_map.mpr (h.imp ne_of_lt)
  exact List.inj_on_of_nodup_map hpair ha hb hab

/-- Removing what has a property is the same as keeping the rest. -/
theorem Ascending.eraseAll_filter {f : α → κ} {l : List α} (h : Ascending f l) (p : α → Bool) :
    eraseAll f ((l.filter p).map f) l = l.filter fun a => !p a := by
  apply List.filter_congr
  intro a ha
  have hmem : f a ∈ (l.filter p).map f ↔ p a = true := by
    constructor
    · intro hmap
      obtain ⟨b, hb, hab⟩ := List.mem_map.mp hmap
      obtain ⟨hb, hp⟩ := List.mem_filter.mp hb
      obtain rfl := h.inj hb ha hab
      exact hp
    · intro hp
      exact List.mem_map_of_mem (List.mem_filter.mpr ⟨ha, hp⟩)
  cases hp : p a <;> simp [hmem, hp]

end SortedAssoc
