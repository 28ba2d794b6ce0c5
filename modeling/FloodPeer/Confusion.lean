/-
FloodPeer/Confusion.lean

`compare_n_s` on the lists of recipients.

The comparator answers `0` for one and the same neighbour.  It also answers `0`
for two neighbours whose deadlines differ by a multiple of 65536 seconds, since
the difference is returned as a `short` (`Confused`).  What follows says what
`remove_elem` and `add_elem` do to a list of recipients as long as nobody is
confused with the one that they look for.
-/
import FloodPeer.Recipients

namespace FloodPeer

open Octets StateLogic

/-! ### The comparator -/

/-- Where the recipient is. -/
def NgbEntry.place (n : NgbEntry) : List Nat ×ₗ Nat := n.sym.toNeighbor.place

/-- Two neighbours that `compare_n_s` takes for one. -/
def Confused (x y : NgbEntry) : Prop :=
  x.place ≠ y.place ∧ x.waitTime ≠ y.waitTime ∧ (65536 : Int) ∣ x.waitTime - y.waitTime

instance (x y : NgbEntry) : Decidable (Confused x y) := by
  unfold Confused; infer_instance

theorem compareNS_eq_zero_iff {x y : NgbEntry} :
    compareNS x y = 0 ↔ x.place = y.place ∨ Confused x y := by
  unfold compareNS
  by_cases hplace : x.place = y.place
  · have hsame : compareN x.sym.toNeighbor y.sym.toNeighbor = 0 := compareN_eq_zero_iff.mpr hplace
    simp [if_pos hsame, hplace]
  · have hother : compareN x.sym.toNeighbor y.sym.toNeighbor ≠ 0 := fun h =>
      hplace (compareN_eq_zero_iff.mp h)
    simp only [if_neg hother]
    by_cases hwait : x.waitTime - y.waitTime = 0
    · have heq : x.waitTime = y.waitTime := by omega
      simp [hplace, Confused, heq]
    · have hne : x.waitTime ≠ y.waitTime := by omega
      rw [if_neg hwait, toShort_eq_zero_iff]
      simp [hplace, Confused, hne]

/-- Deadlines less than 32768 seconds apart are compared as they are. -/
structure Near (x y : NgbEntry) : Prop where
  place : x.place ≠ y.place
  lower : -32768 < x.waitTime - y.waitTime
  upper : x.waitTime - y.waitTime < 32768

section Near

variable {x y : NgbEntry}

theorem Near.toShort (h : Near x y) :
    FloodPeer.toShort (x.waitTime - y.waitTime) = x.waitTime - y.waitTime := by
  have hlower := h.lower
  have hupper := h.upper
  unfold FloodPeer.toShort
  rw [Int.bmod_eq_of_le] <;> omega

theorem Near.compareNS (h : Near x y) : FloodPeer.compareNS x y =
    if x.waitTime = y.waitTime then 1 else x.waitTime - y.waitTime := by
  unfold FloodPeer.compareNS
  rw [if_neg fun hsame => h.place (compareN_eq_zero_iff.mp hsame)]
  extract_lets i
  have hi : FloodPeer.toShort i = i := h.toShort
  simp only [hi, i, sub_eq_zero]

theorem Near.compareNS_neg_iff (h : Near x y) :
    FloodPeer.compareNS x y < 0 ↔ x.waitTime < y.waitTime := by
  rw [h.compareNS]
  split <;> omega

theorem Near.compareNS_pos_iff (h : Near x y) :
    0 < FloodPeer.compareNS x y ↔ y.waitTime ≤ x.waitTime := by
  rw [h.compareNS]
  split <;> omega

theorem Near.not_confused (h : Near x y) : ¬ Confused x y := by
  rintro ⟨-, hne, hdvd⟩
  have hlower := h.lower
  have hupper := h.upper
  omega

end Near

/-! ### Taking out -/

/-- Nobody in front of `y` is confused with `y`. -/
def Spares (l : List NgbEntry) (y : NgbEntry) : Prop :=
  ∀ x ∈ l.takeWhile (fun x => x.place ≠ y.place), ¬ Confused x y

instance (l : List NgbEntry) (y : NgbEntry) : Decidable (Spares l y) := by
  unfold Spares; infer_instance

/-- The places of the recipients are different. -/
def Apart (l : List NgbEntry) : Prop := (l.map NgbEntry.place).Nodup

instance (l : List NgbEntry) : Decidable (Apart l) := by
  unfold Apart; infer_instance

theorem find?_place {l : List NgbEntry} (hapart : Apart l) {y : NgbEntry} (hy : y ∈ l) :
    l.find? (fun x => x.place = y.place) = some y := by
  obtain ⟨n, hn⟩ : ∃ n, l.find? (fun x => x.place = y.place) = some n :=
    Option.isSome_iff_exists.mp (List.find?_isSome.mpr ⟨y, hy, by simp⟩)
  have hplace : n.place = y.place := by simpa using List.find?_some hn
  rw [hn, List.inj_on_of_nodup_map hapart (List.mem_of_find?_eq_some hn) hy hplace]

/-- `remove_elem` takes the recipient out that it looks for, and nobody else. -/
theorem Removes.own {y : NgbEntry} {l rest : List (ListEntry NgbEntry)} {taken : Option NgbEntry}
    (h : Removes compareNS y l rest taken) (hspares : Spares (l.map (·.content)) y)
    (hapart : Apart (l.map (·.content))) :
    rest = l.filter (fun x => x.content.place ≠ y.place) ∧
      taken = (l.map (·.content)).find? (fun x => x.place = y.place) := by
  have hother : ∀ x : ListEntry NgbEntry, compareNS x.content y ≠ 0 → x.content.place ≠ y.place :=
    fun x hx hplace => hx (compareNS_eq_zero_iff.mpr (.inl hplace))
  cases h with
  | absent hall =>
    constructor
    · rw [List.filter_eq_self.mpr fun x hx => decide_eq_true (hother x (hall x hx))]
    · symm
      rw [List.find?_eq_none]
      intro c hc
      obtain ⟨x, hx, rfl⟩ := List.mem_map.mp hc
      simpa using hother x (hall x hx)
  | found pre e post hl hpre he =>
    subst hl
    have hbefore : ∀ c ∈ pre.map (·.content), c.place ≠ y.place := by
      intro c hc
      obtain ⟨x, hx, rfl⟩ := List.mem_map.mp hc
      exact hother x (hpre x hx)
    -- the cell that is taken out is the first that compares equal, and so the neighbour's
    have hplace : e.content.place = y.place := by
      by_contra hne
      refine hspares e.content ?_ ((compareNS_eq_zero_iff.mp he).resolve_left hne)
      rw [List.map_append, List.takeWhile_append_of_pos (by simpa using hbefore)]
      refine List.mem_append_right _ ?_
      simp [hne]
    -- there is no second cell for it
    have hafter : ∀ x ∈ post, x.content.place ≠ y.place := by
      intro x hx heq
      unfold Apart at hapart
      rw [List.map_append, List.map_append, List.map_cons, List.map_cons,
        List.nodup_append, List.nodup_cons] at hapart
      apply hapart.2.1.1
      rw [hplace, ← heq]
      exact List.mem_map_of_mem (List.mem_map_of_mem hx)
    constructor
    · rw [List.filter_append, List.filter_cons_of_neg (by simpa using hplace),
        List.filter_eq_self.mpr fun x hx => decide_eq_true (hother x (hpre x hx)),
        List.filter_eq_self.mpr fun x hx => decide_eq_true (hafter x hx)]
    · rw [List.map_append, List.find?_append, List.find?_eq_none.mpr (by simpa using hbefore)]
      simp [hplace]

theorem entries_withoutPeer {l : CList NgbEntry} {bound : Nat} (hl : l.Linked bound)
    {peer : NeighborPtr} (hspares : Spares l.contents (ngbProbe peer)) (hapart : Apart l.contents) :
    (withoutPeer peer l).entries =
      l.entries.filter fun x => x.content.place ≠ peer.toNeighbor.place :=
  ((removeElem_spec hl (ngbProbe peer)).1.own hspares hapart).1

theorem contents_withoutPeer {l : CList NgbEntry} {bound : Nat} (hl : l.Linked bound)
    {peer : NeighborPtr} (hspares : Spares l.contents (ngbProbe peer)) (hapart : Apart l.contents) :
    (withoutPeer peer l).contents =
      l.contents.filter fun x => x.place ≠ peer.toNeighbor.place := by
  unfold CList.contents
  rw [entries_withoutPeer hl hspares hapart, List.filter_map]
  rfl

/-- Which recipient is taken out, and what is left. -/
theorem Removes.first {y : NgbEntry} {l rest : List (ListEntry NgbEntry)}
    {taken : Option NgbEntry} (h : Removes compareNS y l rest taken) :
    rest.map (·.content) = (l.map (·.content)).eraseP (fun x => compareNS x y = 0) ∧
      taken = (l.map (·.content)).find? (fun x => compareNS x y = 0) := by
  have hmap : ∀ {l : List (ListEntry NgbEntry)}, (∀ x ∈ l, compareNS x.content y ≠ 0) →
      ∀ c ∈ l.map (·.content), ¬ decide (compareNS c y = 0) = true := by
    intro l hl c hc
    obtain ⟨x, hx, rfl⟩ := List.mem_map.mp hc
    simpa using hl x hx
  cases h with
  | absent hall =>
    exact ⟨(List.eraseP_of_forall_not (hmap hall)).symm, (List.find?_eq_none.mpr (hmap hall)).symm⟩
  | found pre e post hl hpre he =>
    subst hl
    constructor
    · rw [List.map_append, List.map_append, List.eraseP_append_right _ (hmap hpre)]
      simp [he]
    · rw [List.map_append, List.find?_append, List.find?_eq_none.mpr (hmap hpre)]
      simp [he]

theorem Removes.perm {y n : NgbEntry} {l rest : List (ListEntry NgbEntry)}
    (h : Removes compareNS y l rest (some n)) :
    (l.map (·.content)).Perm (n :: rest.map (·.content)) := by
  generalize htaken : some n = taken at h
  cases h with
  | absent => cases htaken
  | found pre e post hl =>
    obtain rfl := Option.some.inj htaken
    rw [hl, List.map_append, List.map_append, List.map_cons]
    exact List.perm_middle

/-! ### Putting back -/

/-- The recipient in front of which `n` would be inserted is not confused with
`n`. -/
def Inserted (l : List NgbEntry) (n : NgbEntry) : Prop :=
  ∀ x ∈ (l.dropWhile fun x => compareNS x n < 0).head?, ¬ Confused x n

instance (l : List NgbEntry) (n : NgbEntry) : Decidable (Inserted l n) := by
  unfold Inserted; infer_instance

/-- With a cell for it, a recipient that is not in the list is inserted, in front
of the first greater one. -/
theorem Inserts.split {n : NgbEntry} {found : Option Nat} {l l' : List (ListEntry NgbEntry)}
    {rc : Int} (h : Inserts compareNS n found l l' rc) (hfound : found ≠ none)
    (hnew : ∀ x ∈ l.map (·.content), x.place ≠ n.place) (hclear : Inserted (l.map (·.content)) n) :
    ∃ a pre post, l = pre ++ post ∧ (∀ x ∈ pre, compareNS x.content n < 0) ∧
      (∀ x ∈ post.head?, 0 < compareNS x.content n) ∧
      l' = pre ++ { addr := a, content := n } :: post := by
  cases h with
  | failed hnone => exact absurd hnone hfound
  | clash pre e post hl hpre he =>
    subst hl
    have hplace : e.content.place ≠ n.place :=
      hnew _ (List.mem_map_of_mem (List.mem_append_right _ List.mem_cons_self))
    refine absurd ((compareNS_eq_zero_iff.mp he).resolve_left hplace) (hclear _ ?_)
    rw [List.map_append, List.dropWhile_append_of_pos, List.map_cons,
      List.dropWhile_cons_of_neg (by simp [he])]
    · rfl
    · intro c hc
      obtain ⟨x, hx, rfl⟩ := List.mem_map.mp hc
      exact decide_eq_true (hpre x hx)
  | inserted a pre post _ hl hpre hpost => exact ⟨a, pre, post, hl, hpre, hpost, rfl⟩

theorem Inserts.perm {n : NgbEntry} {found : Option Nat} {l l' : List (ListEntry NgbEntry)}
    {rc : Int} (h : Inserts compareNS n found l l' rc) (hfound : found ≠ none)
    (hnew : ∀ x ∈ l.map (·.content), x.place ≠ n.place) (hclear : Inserted (l.map (·.content)) n) :
    (l'.map (·.content)).Perm (n :: l.map (·.content)) := by
  obtain ⟨a, pre, post, rfl, -, -, rfl⟩ := h.split hfound hnew hclear
  rw [List.map_append, List.map_cons, List.map_append]
  exact List.perm_middle

end FloodPeer
