/-
FloodPeer/Lib/Keyed.lean

Lists of entries as finite maps, in no particular order.

`f : α → κ` gives the key of an entry; `entry f l k` is the first entry of the
list with the key `k`.  When no two entries have the same key, an entry is found
by its key, whatever the order of the list (`entry_eq_some_iff`), and taking an
entry out leaves the map without it (`entry_remove`).  A list can also be
searched by a digest of the keys: as far as the digest tells the keys apart this
is the same map (`entry_digest`).
-/
import Mathlib.Data.Set.Function
import Mathlib.Data.List.Find
import Mathlib.Data.List.Nodup
import Mathlib.Logic.Function.Basic

namespace Keyed

variable {α κ δ : Type*} {f : α → κ} {l l' pre post : List α} {k : κ} {a b x : α}

/-- Different entries have different keys. -/
def Distinct (f : α → κ) (l : List α) : Prop := (l.map f).Nodup

theorem Distinct.eq_of_key_eq (h : Distinct f l) (ha : a ∈ l) (hb : b ∈ l) (hab : f a = f b) :
    a = b :=
  List.inj_on_of_nodup_map h ha hb hab

theorem Distinct.perm (h : Distinct f l) (hperm : l.Perm l') : Distinct f l' :=
  (hperm.map f).nodup_iff.mp h

/-- Keys that a digest tells apart have different digests. -/
theorem Distinct.digest {d : κ → δ} (h : Distinct f l) (hd : Set.InjOn d {k | k ∈ l.map f}) :
    Distinct (d ∘ f) l := by
  unfold Distinct
  rw [← List.map_map]
  exact List.Nodup.map_on (fun _ hx _ hy => hd hx hy) h

/-! ### The map of a list -/

variable [DecidableEq κ] [DecidableEq δ]

/-- The first entry with the key `k`. -/
def entry (f : α → κ) (l : List α) (k : κ) : Option α := l.find? fun a => f a = k

theorem entry_eq_none_iff : entry f l k = none ↔ ∀ a ∈ l, f a ≠ k := by
  simp [entry]

theorem key_of_entry (h : entry f l k = some a) : f a = k := by
  simpa using List.find?_some h

theorem mem_of_entry (h : entry f l k = some a) : a ∈ l :=
  List.mem_of_find?_eq_some h

theorem entry_eq_some_iff (h : Distinct f l) : entry f l k = some a ↔ a ∈ l ∧ f a = k := by
  constructor
  · intro ha
    exact ⟨mem_of_entry ha, key_of_entry ha⟩
  · rintro ⟨hmem, rfl⟩
    cases hb : entry f l (f a) with
    | none => exact absurd rfl (entry_eq_none_iff.mp hb a hmem)
    | some b =>
      obtain rfl := h.eq_of_key_eq (mem_of_entry hb) hmem (key_of_entry hb)
      rfl

/-- The order of the list does not matter. -/
theorem entry_perm (h : Distinct f l) (hperm : l.Perm l') : entry f l = entry f l' := by
  funext k
  ext a
  show entry f l k = some a ↔ entry f l' k = some a
  rw [entry_eq_some_iff h, entry_eq_some_iff (h.perm hperm), hperm.mem_iff]

/-- An entry in front of those with the same key is found in their place. -/
theorem entry_insert (hpre : ∀ a ∈ pre, f a ≠ f x) :
    entry f (pre ++ x :: post) = Function.update (entry f (pre ++ post)) (f x) (some x) := by
  funext k
  unfold entry
  by_cases hk : k = f x
  · subst hk
    rw [Function.update_self, List.find?_append, List.find?_eq_none.mpr (by simpa using hpre)]
    simp
  · rw [Function.update_of_ne hk, List.find?_append, List.find?_append,
      List.find?_cons_of_neg (by simpa using Ne.symm hk)]

/-- Taking an entry out. -/
theorem entry_remove (h : Distinct f (pre ++ x :: post)) :
    entry f (pre ++ post) = Function.update (entry f (pre ++ x :: post)) (f x) none := by
  have hx : f x ∉ (pre ++ post).map f := by
    have hperm : ((pre ++ x :: post).map f).Perm (f x :: (pre ++ post).map f) :=
      List.perm_middle.map f
    exact (List.nodup_cons.mp (hperm.nodup_iff.mp h)).1
  have hne : ∀ a ∈ pre ++ post, f a ≠ f x := fun a ha heq => hx (heq ▸ List.mem_map_of_mem ha)
  rw [entry_insert fun a ha => hne a (List.mem_append_left _ ha), Function.update_idem]
  funext k
  by_cases hk : k = f x
  · subst hk
    rw [Function.update_self]
    exact entry_eq_none_iff.mpr hne
  · rw [Function.update_of_ne hk]

/-- A digest that tells the keys apart finds the same entries. -/
theorem entry_digest {d : κ → δ} {s : Set κ} (hd : Set.InjOn d s) (hl : ∀ a ∈ l, f a ∈ s)
    (hk : k ∈ s) : entry (d ∘ f) l (d k) = entry f l k := by
  unfold entry
  apply List.find?_congr
  intro a ha
  show decide (d (f a) = d k) = decide (f a = k)
  exact decide_eq_decide.mpr (hd.eq_iff (hl a ha) hk)

/-- An update through such a digest is an update at the key. -/
theorem update_digest {β : Type*} {d : κ → δ} {s : Set κ} (hd : Set.InjOn d s)
    {m : δ → β} {m' : κ → β} (hm : ∀ n ∈ s, m (d n) = m' n) (hk : k ∈ s) (v : β) :
    ∀ n ∈ s, Function.update m (d k) v (d n) = Function.update m' k v n := by
  intro n hn
  by_cases h : n = k
  · rw [h, Function.update_self, Function.update_self]
  · rw [Function.update_of_ne h, Function.update_of_ne fun heq => h (hd hn hk heq), hm n hn]

end Keyed
