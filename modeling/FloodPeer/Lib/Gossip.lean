/-
FloodPeer/Lib/Gossip.lean

A node of a gossip protocol.

A node has a record of every address it has heard from, another of every address
it has only been told of, and a bounded store of the newest data, each with the
addresses that have yet to answer for it.  An event changes the node in a way
that `Node.step` says; what holds of a node after any run of events is proved
here once, for whatever refines it.
-/
import FloodPeer.Lib.Runs
import Mathlib.Data.Finset.Basic
import Mathlib.Data.List.Nodup

namespace Gossip

open Runs

variable {A K V R : Type*}

/-! ### Nodes -/

/-- A datum, and who has yet to answer for it. -/
@[ext] structure Item (A K V : Type*) where
  key : K
  value : V
  waiting : Finset A

/-- The state of a node. -/
@[ext] structure Node (A K V R : Type*) where
  known : A → Option R
  rumoured : A → Option R
  store : List (Item A K V)

/-- A node that has just started. -/
def Node.empty : Node A K V R where
  known := fun _ => none
  rumoured := fun _ => none
  store := []

/-- What can happen to a node. -/
inductive Event (A K V R : Type*) where
  | quiet
  /-- `a` has been heard. -/
  | heard (a : A) (r : R)
  /-- Somebody says that there is an `a`. -/
  | told (a : A) (r : R)
  | forgot (a : A)
  /-- `a` is given up. -/
  | left (a : A)
  | filed (item : Item A K V)
  /-- `a` shows that it has the datum. -/
  | answered (k : K) (a : A)

/-- The last `capacity` of them. -/
def newest {α : Type*} (capacity : ℕ) (l : List α) : List α := l.drop (l.length - capacity)

section Steps

variable [DecidableEq A] [DecidableEq K]

def Item.without (i : Item A K V) (a : A) : Item A K V := { i with waiting := i.waiting.erase a }

/-- `a` has answered for the datum `k`. -/
def Item.answered (k : K) (a : A) (i : Item A K V) : Item A K V :=
  if i.key = k then i.without a else i

variable (merge : R → Option R → R) (capacity : ℕ)

/-- What an event does; `merge` makes the record of an address from a new one and
the old one. -/
def Node.step (e : Event A K V R) (n : Node A K V R) : Node A K V R :=
  match e with
  | .quiet => n
  | .heard a r =>
    { n with
      known := Function.update n.known a (some (merge r (n.known a)))
      rumoured := Function.update n.rumoured a none }
  | .told a r =>
    if n.known a = none then
      { n with rumoured := Function.update n.rumoured a (some (merge r (n.rumoured a))) }
    else n
  | .forgot a => { n with rumoured := Function.update n.rumoured a none }
  | .left a =>
    { n with known := Function.update n.known a none, store := n.store.map (·.without a) }
  | .filed i => { n with store := newest capacity (n.store ++ [i]) }
  | .answered k a => { n with store := n.store.map (·.answered k a) }

/-- A datum is filed for addresses that are known, under a key of its own. -/
def Node.Admits (capacity : ℕ) (n : Node A K V R) : Event A K V R → Prop
  | .filed i => ((newest capacity (n.store ++ [i])).map Item.key).Nodup ∧
      ∀ a ∈ i.waiting, n.known a ≠ none
  | _ => True

omit [DecidableEq A] [DecidableEq K] in
theorem admits_of_ne {capacity : ℕ} {n : Node A K V R} {e : Event A K V R}
    (h : ∀ i, e ≠ .filed i) : n.Admits capacity e := by
  cases e with
  | filed i => exact absurd rfl (h i)
  | _ => trivial

/-- A step of the protocol. -/
def Follows (e : Event A K V R) (n n' : Node A K V R) : Prop :=
  n.Admits capacity e ∧ n' = n.step merge capacity e

/-- A step as far as the two maps are concerned. -/
def Spreads (e : Event A K V R) (n n' : Node A K V R) : Prop :=
  n'.known = (n.step merge capacity e).known ∧ n'.rumoured = (n.step merge capacity e).rumoured

/-! ### What holds of every node -/

/-- Nobody is both known and rumoured, only known addresses are waited for, and the
keys of the store are different. -/
structure Node.Sane (capacity : ℕ) (n : Node A K V R) : Prop where
  apart : ∀ a, n.known a ≠ none → n.rumoured a = none
  owed : ∀ i ∈ n.store, ∀ a ∈ i.waiting, n.known a ≠ none
  distinct : (n.store.map Item.key).Nodup
  bounded : n.store.length ≤ capacity

omit [DecidableEq A] [DecidableEq K] in
theorem sane_empty : (Node.empty : Node A K V R).Sane capacity where
  apart := fun _ h => absurd rfl h
  owed := fun _ hi => absurd hi List.not_mem_nil
  distinct := List.nodup_nil
  bounded := Nat.zero_le _

variable {merge capacity} {n n' : Node A K V R} {i : Item A K V} {a : A} {k : K}

omit [DecidableEq K] in
@[simp] theorem key_without : (i.without a).key = i.key := rfl

@[simp] theorem key_answered : (i.answered k a).key = i.key := by
  unfold Item.answered
  split <;> rfl

@[simp] theorem value_answered : (i.answered k a).value = i.value := by
  unfold Item.answered
  split <;> rfl

theorem waiting_answered_subset : (i.answered k a).waiting ⊆ i.waiting := by
  unfold Item.answered
  split
  · exact Finset.erase_subset _ _
  · exact Finset.Subset.refl _

theorem newest_sublist {α : Type*} (l : List α) : (newest capacity l).Sublist l :=
  List.drop_sublist _ _

theorem length_newest {α : Type*} (l : List α) : (newest capacity l).length ≤ capacity := by
  unfold newest
  rw [List.length_drop]
  omega

theorem step_told (a : A) (r : R) (n : Node A K V R) : n.step merge capacity (.told a r) =
    if n.known a = none then
      { n with rumoured := Function.update n.rumoured a (some (merge r (n.rumoured a))) }
    else n := rfl

omit [DecidableEq K] in
theorem update_none {f : A → Option R} (h : f a = none) (b : A) :
    Function.update f b none a = none := by
  rw [Function.update_apply]
  split
  · rfl
  · exact h

/-- One step. -/
theorem Node.Sane.step (h : n.Sane capacity) {e : Event A K V R}
    (hstep : Follows merge capacity e n n') : n'.Sane capacity := by
  obtain ⟨hadmits, rfl⟩ := hstep
  cases e with
  | quiet => exact h
  | heard a r =>
    refine ⟨fun b hb => ?_, fun i hi b hb => ?_, h.distinct, h.bounded⟩
    · by_cases hba : b = a
      · subst hba
        exact Function.update_self _ _ _
      · rw [show (n.step merge capacity (.heard a r)).known b = _ from
          Function.update_of_ne hba _ _] at hb
        rw [show (n.step merge capacity (.heard a r)).rumoured b = _ from
          Function.update_of_ne hba _ _]
        exact h.apart b hb
    · by_cases hba : b = a
      · subst hba
        rw [show (n.step merge capacity (.heard b r)).known b = _ from Function.update_self _ _ _]
        exact Option.some_ne_none _
      · rw [show (n.step merge capacity (.heard a r)).known b = _ from
          Function.update_of_ne hba _ _]
        exact h.owed i hi b hb
  | told a r =>
    by_cases ha : n.known a = none
    · rw [step_told, if_pos ha]
      refine ⟨fun b hb => ?_, h.owed, h.distinct, h.bounded⟩
      have hba : b ≠ a := fun heq => hb (heq ▸ ha)
      exact (Function.update_of_ne hba _ _).trans (h.apart b hb)
    · rw [step_told, if_neg ha]
      exact h
  | forgot a =>
    refine ⟨fun b hb => ?_, h.owed, h.distinct, h.bounded⟩
    exact update_none (h.apart b hb) a
  | left a =>
    refine ⟨fun b hb => ?_, fun i hi b hb => ?_, ?_, ?_⟩
    · by_cases hba : b = a
      · subst hba
        exact absurd (Function.update_self _ _ _) hb
      · rw [show (n.step merge capacity (.left a)).known b = _ from
          Function.update_of_ne hba _ _] at hb
        exact h.apart b hb
    · obtain ⟨j, hj, rfl⟩ := List.mem_map.mp hi
      obtain ⟨hba, hb⟩ := Finset.mem_erase.mp hb
      rw [show (n.step merge capacity (.left a)).known b = _ from Function.update_of_ne hba _ _]
      exact h.owed j hj b hb
    · show ((n.store.map (·.without a)).map Item.key).Nodup
      rw [List.map_map]
      exact h.distinct
    · exact (List.length_map _).trans_le h.bounded
  | filed i =>
    refine ⟨h.apart, fun j hj b hb => ?_, hadmits.1, length_newest _⟩
    rcases List.mem_append.mp ((newest_sublist _).subset hj) with hj | hj
    · exact h.owed j hj b hb
    · obtain rfl := List.mem_singleton.mp hj
      exact hadmits.2 b hb
  | answered k a =>
    refine ⟨h.apart, fun i hi b hb => ?_, ?_, (List.length_map _).trans_le h.bounded⟩
    · obtain ⟨j, hj, rfl⟩ := List.mem_map.mp hi
      exact h.owed j hj b (waiting_answered_subset hb)
    · show ((n.store.map (·.answered k a)).map Item.key).Nodup
      rw [List.map_map, show Item.key ∘ (·.answered k a) = (Item.key : Item A K V → K) from
        funext fun _ => key_answered]
      exact h.distinct

theorem sane_of_run {tr : List (Node A K V R × Event A K V R)} (h : n.Sane capacity)
    (hrun : Run (Follows merge capacity) n tr n') : n'.Sane capacity :=
  hrun.invariant h fun _ _ _ hn hstep => hn.step hstep

/-! ### Who answers for a datum -/

/-- While a datum is not filed anew, it stays what it is, and it is waited for by
fewer and fewer. -/
theorem Follows.item {e : Event A K V R} (hstep : Follows merge capacity e n n')
    (hold : ∀ j, e = .filed j → j.key ≠ k) {i' : Item A K V} (hi' : i' ∈ n'.store)
    (hk : i'.key = k) : ∃ i ∈ n.store, i.key = k ∧ i.value = i'.value ∧
      i'.waiting ⊆ i.waiting ∧
      ∀ a ∈ i.waiting, a ∉ i'.waiting → e = .answered k a ∨ e = .left a := by
  obtain ⟨-, rfl⟩ := hstep
  have hsame : ∀ i ∈ n.store, i' = i → ∃ i ∈ n.store, i.key = k ∧ i.value = i'.value ∧
      i'.waiting ⊆ i.waiting ∧ ∀ a ∈ i.waiting, a ∉ i'.waiting →
        e = .answered k a ∨ e = .left a := by
    rintro i hi rfl
    exact ⟨i', hi, hk, rfl, Finset.Subset.refl _, fun a ha hna => absurd ha hna⟩
  cases e with
  | quiet => exact hsame i' hi' rfl
  | heard b r => exact hsame i' hi' rfl
  | told b r =>
    have hstore : (n.step merge capacity (.told b r)).store = n.store := by
      rw [step_told]
      split <;> rfl
    exact hsame i' (hstore ▸ hi') rfl
  | forgot b => exact hsame i' hi' rfl
  | left b =>
    obtain ⟨i, hi, rfl⟩ := List.mem_map.mp hi'
    refine ⟨i, hi, hk, rfl, Finset.erase_subset _ _, fun a ha hna => .inr ?_⟩
    have hab : a = b := by
      by_contra hne
      exact hna (Finset.mem_erase.mpr ⟨hne, ha⟩)
    rw [hab]
  | filed j =>
    rcases List.mem_append.mp ((newest_sublist _).subset hi') with hi | hj
    · exact hsame i' hi rfl
    · obtain rfl := List.mem_singleton.mp hj
      exact absurd hk (hold i' rfl)
  | answered k' b =>
    obtain ⟨i, hi, rfl⟩ := List.mem_map.mp hi'
    rw [key_answered] at hk
    refine ⟨i, hi, hk, value_answered.symm, waiting_answered_subset, fun a ha hna => .inl ?_⟩
    unfold Item.answered at hna
    split at hna
    · rename_i hkey
      have hab : a = b := by
        by_contra hne
        exact hna (Finset.mem_erase.mpr ⟨hne, ha⟩)
      rw [hab, ← hkey, hk]
    · exact absurd ha hna

/-- The same for runs. -/
theorem item_of_run {tr : List (Node A K V R × Event A K V R)}
    (hrun : Run (Follows merge capacity) n tr n')
    (hold : ∀ x ∈ tr, ∀ j, x.2 = .filed j → j.key ≠ k) {i' : Item A K V} (hi' : i' ∈ n'.store)
    (hk : i'.key = k) : ∃ i ∈ n.store, i.key = k ∧ i.value = i'.value ∧
      i'.waiting ⊆ i.waiting ∧
      ∀ a ∈ i.waiting, a ∉ i'.waiting → ∃ x ∈ tr, x.2 = .answered k a ∨ x.2 = .left a := by
  induction hrun generalizing i' with
  | nil => exact ⟨i', hi', hk, rfl, Finset.Subset.refl _, fun a ha hna => absurd ha hna⟩
  | @snoc tr u w e _ hstep ih =>
    have hlast : (u, e) ∈ tr ++ [(u, e)] := List.mem_append_right _ (List.mem_singleton_self _)
    obtain ⟨j, hj, hjk, hjvalue, hjsub, hjwhy⟩ := hstep.item (hold _ hlast) hi' hk
    obtain ⟨i, hi, hik, hivalue, hisub, hiwhy⟩ :=
      ih (fun x hx => hold x (List.mem_append_left _ hx)) hj hjk
    refine ⟨i, hi, hik, hivalue.trans hjvalue, hjsub.trans hisub, fun a ha hna => ?_⟩
    by_cases haj : a ∈ j.waiting
    · exact ⟨_, hlast, hjwhy a haj hna⟩
    · obtain ⟨x, hx, hwhy⟩ := hiwhy a ha haj
      exact ⟨x, List.mem_append_left _ hx, hwhy⟩

/-- **An answer is final.**  Who has answered for a datum is not waited for until
the datum is filed anew. -/
theorem not_waiting_of_answered {past later : List (Node A K V R × Event A K V R)}
    {u : Node A K V R}
    (hrun : Run (Follows merge capacity) n (past ++ (u, .answered k a) :: later) n')
    (hold : ∀ x ∈ later, ∀ j, x.2 = .filed j → j.key ≠ k) {i : Item A K V} (hi : i ∈ n'.store)
    (hk : i.key = k) : a ∉ i.waiting := by
  obtain ⟨-, v, ⟨-, rfl⟩, hlater⟩ := hrun.split_cons
  obtain ⟨j, hj, hjk, -, hsub, -⟩ := item_of_run hlater hold hi hk
  obtain ⟨j, -, rfl⟩ := List.mem_map.mp hj
  intro ha
  have hmem := hsub ha
  rw [key_answered] at hjk
  unfold Item.answered at hmem
  rw [if_pos hjk] at hmem
  exact Finset.notMem_erase a _ hmem

/-- Who was not waited for when a datum was filed is not waited for later. -/
theorem not_waiting_of_filed {past later : List (Node A K V R × Event A K V R)}
    {u : Node A K V R}
    (hrun : Run (Follows merge capacity) n (past ++ (u, .filed i) :: later) n')
    (hold : ∀ x ∈ later, ∀ j, x.2 = .filed j → j.key ≠ i.key) (ha : a ∉ i.waiting)
    {j : Item A K V} (hj : j ∈ n'.store) (hk : j.key = i.key) : a ∉ j.waiting := by
  obtain ⟨-, v, ⟨hadmits, rfl⟩, hlater⟩ := hrun.split_cons
  obtain ⟨j', hj', hjk, -, hsub, -⟩ := item_of_run hlater hold hj hk
  have hmem : j' ∈ newest capacity (u.store ++ [i]) := hj'
  have hpos : 0 < capacity := by
    by_contra hzero
    have hlength := List.length_pos_of_mem hmem
    have hle := @length_newest capacity _ (u.store ++ [i])
    omega
  have hlast : i ∈ newest capacity (u.store ++ [i]) := by
    unfold newest
    rw [List.drop_append_of_le_length]
    · exact List.mem_append_right _ (List.mem_singleton_self _)
    · rw [List.length_append, List.length_singleton]
      omega
  obtain rfl := List.inj_on_of_nodup_map hadmits.1 hmem hlast hjk
  exact fun hmem => ha (hsub hmem)

/-! ### Where rumours come from -/

/-- An address is rumoured because somebody has told of it, and since then it has
neither been heard nor been forgotten. -/
theorem told_of_run {tr : List (Node A K V R × Event A K V R)}
    (hrun : Run (Spreads merge capacity) n tr n') (hnone : n.rumoured a = none)
    (hsome : n'.rumoured a ≠ none) : ∃ past u r later, tr = past ++ (u, .told a r) :: later ∧
      ∀ x ∈ later, x.2 ≠ .forgot a ∧ ∀ r, x.2 ≠ .heard a r := by
  induction hrun with
  | nil => exact absurd hnone hsome
  | @snoc tr u w e _ hstep ih =>
    rw [hstep.2] at hsome
    by_cases htold : ∃ r, e = .told a r
    · obtain ⟨r, rfl⟩ := htold
      exact ⟨tr, u, r, [], rfl, fun _ hx => absurd hx List.not_mem_nil⟩
    -- the rumour is older, and this event leaves it alone
    have hkept : u.rumoured a ≠ none ∧ e ≠ .forgot a ∧ ∀ r, e ≠ .heard a r := by
      refine ⟨fun hu => hsome ?_, ?_, ?_⟩
      · cases e with
        | heard b r => exact update_none hu b
        | told b r =>
          have hab : a ≠ b := fun heq => htold ⟨r, heq ▸ rfl⟩
          rw [step_told]
          split
          · exact (Function.update_of_ne hab _ _).trans hu
          · exact hu
        | forgot b => exact update_none hu b
        | _ => exact hu
      · rintro rfl
        exact hsome (Function.update_self _ _ _)
      · rintro r rfl
        exact hsome (Function.update_self _ _ _)
    obtain ⟨past, v, r, later, rfl, hlater⟩ := ih hkept.1
    refine ⟨past, v, r, later ++ [(u, e)], by rw [List.append_assoc, List.cons_append], ?_⟩
    intro x hx
    rcases List.mem_append.mp hx with hx | hx
    · exact hlater x hx
    · obtain rfl := List.mem_singleton.mp hx
      exact hkept.2

/-! ### What holds of every record -/

/-- All records have a property. -/
structure Node.Records (P : R → Prop) (n : Node A K V R) : Prop where
  known : ∀ a r, n.known a = some r → P r
  rumoured : ∀ a r, n.rumoured a = some r → P r

omit [DecidableEq K] in
theorem property_update {P : R → Prop} {m : A → Option R} (h : ∀ b r, m b = some r → P r)
    (a : A) {o : Option R} (ho : ∀ r, o = some r → P r) (b : A) (r : R)
    (hr : Function.update m a o b = some r) : P r := by
  by_cases hb : b = a
  · subst hb
    rw [Function.update_self] at hr
    exact ho r hr
  · rw [Function.update_of_ne hb] at hr
    exact h b r hr

/-- A property of the records that are made is a property of all. -/
theorem Node.Records.step {P : R → Prop} (h : n.Records P) (e : Event A K V R)
    (hmade : ∀ a r, e = .heard a r ∨ e = .told a r → ∀ o, P (merge r o)) :
    (n.step merge capacity e).Records P := by
  cases e with
  | heard a r =>
    exact ⟨property_update h.known a fun s hs => Option.some.inj hs ▸ hmade a r (.inl rfl) _,
      property_update h.rumoured a fun s hs => absurd hs (Option.some_ne_none s).symm⟩
  | told a r =>
    rw [step_told]
    split
    · exact ⟨h.known, property_update h.rumoured a fun s hs =>
        Option.some.inj hs ▸ hmade a r (.inr rfl) _⟩
    · exact h
  | forgot a =>
    exact ⟨h.known, property_update h.rumoured a fun s hs =>
      absurd hs (Option.some_ne_none s).symm⟩
  | left a =>
    exact ⟨property_update h.known a fun s hs => absurd hs (Option.some_ne_none s).symm,
      h.rumoured⟩
  | _ => exact ⟨h.known, h.rumoured⟩

end Steps

end Gossip
