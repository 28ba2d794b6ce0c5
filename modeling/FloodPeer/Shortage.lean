/-
FloodPeer/Shortage.lean

Flooding when memory runs out.

`add_message_to_flood` adds to `DATAF` whatever `init_flood` returns.  When
there is no memory for the entry or for its index, but then for the cell, a null
pointer is added (`NullStored`).  A recipient that has been sent the datum is
taken out before `add_elem` asks for its new cell; without memory it is lost.
In a run in which neither happens `DATAF` stays intact, and in no other
(`intact_iff_provided`).
-/
import FloodPeer.Backoff

namespace FloodPeer

open Octets StateLogic Runs

/-- The answers of the allocator from `init_flood` on: there is no memory for the
entry or for its index, and then there is some for the cell. -/
def NullStored (mallocs : Stream' Bool) : Prop :=
  (mallocs.head = false ∧ mallocs.tail.head = true) ∨
    (mallocs.head = true ∧ mallocs.tail.head = false ∧ mallocs.tail.tail.head = true)

/-- In this state `add_message_to_flood` adds a null pointer. -/
def World.StoresNull (w : World) : Prop :=
  w.mallocs.head = true ∧ NullStored (after (getSymmetrical w.neighbors) w).mallocs

instance (mallocs : Stream' Bool) : Decidable (NullStored mallocs) := by
  unfold NullStored; infer_instance

instance (w : World) : Decidable w.StoresNull := by
  unfold World.StoresNull; infer_instance

/-- The move does not lack memory where it matters, and nobody is confused with
the recipient that it puts back. -/
structure Provided (w : World) (m : Move) : Prop where
  filed : (m.given w).isSome → ¬ w.StoresNull
  resent : ∀ t, m.effect w = .resent t → w.mallocs.head = true ∧
    Requeues t.flood.symNeighbors.contents t.recipient w.rands.head t.time

instance (l : List NgbEntry) (nw : NgbEntry) (r : Nat) (currentTime : Int) :
    Decidable (Requeues l nw r currentTime) := by
  unfold Requeues; infer_instance

instance (w : World) (m : Move) : Decidable (Provided w m) :=
  match h : m.effect w with
  | .resent t =>
    decidable_of_iff (((m.given w).isSome → ¬ w.StoresNull) ∧ w.mallocs.head = true ∧
        Requeues t.flood.symNeighbors.contents t.recipient w.rands.head t.time)
      ⟨fun hall => ⟨hall.1, fun _ ht => Effect.resent.inj (h.symm.trans ht) ▸ hall.2⟩,
        fun hprovided => ⟨hprovided.filed, hprovided.resent t h⟩⟩
  | .nothing | .answered .. | .gone _ =>
    decidable_of_iff ((m.given w).isSome → ¬ w.StoresNull)
      ⟨fun hfiled => ⟨hfiled, fun _ ht => nomatch h.symm.trans ht⟩,
        fun hprovided => hprovided.filed⟩

/-- After the move every cell of `DATAF` has an entry, so that `get` and
`flood_messages` are defined, and the recipient that has been sent the datum is
still one. -/
structure Intact (m : Move) (w w' : World) : Prop where
  filled : none ∉ w'.dataf.contents
  get : ∀ index, after (getFlood index) w' = w'
  entries : ∀ e ∈ w'.dataf.entries, (w'.floodAt e.addr).isSome
  kept : ∀ t, m.effect w = .resent t →
    ∃ f', w'.floodAt t.cell = some f' ∧ f'.waiting.Perm t.flood.waiting

/-! ### Adding an entry -/

section Adding

variable {w w' : World} {msgSend : Mem} {size : UInt8} {toDelete : Option NeighborPtr}

theorem value_getSymmetrical_isSome (t : Tree) (w : World) :
    (value (getSymmetrical t) w).isSome = w.mallocs.head := by
  unfold getSymmetrical findBy
  rw [value_bind]
  cases hhead : w.mallocs.head with
  | true =>
    rw [(malloc_of_true hhead).1]
    rfl
  | false =>
    rw [(malloc_of_false hhead).1]
    rfl

/-- After `add_limited`, the added pointer counts. -/
theorem filled_of_entries {a : Nat} {content : Option FloodEntry}
    (hfilled : none ∉ w.dataf.contents) (hentries : w'.dataf.entries =
      recent (w.dataf.entries ++ [{ addr := a, content := content }])) :
    none ∉ w'.dataf.contents ↔ content ≠ none := by
  have hstaying : none ∉ w.staying := fun hnone => hfilled ((List.drop_sublist _ _).subset hnone)
  rw [contents_of_entries hentries, List.mem_append, List.mem_singleton]
  constructor
  · intro h hnone
    exact h (.inr hnone.symm)
  · rintro h (hnone | hnone)
    · exact hstaying hnone
    · exact h hnone.symm

theorem filled_fileEntry_iff (hr : w.Register) (hfilled : none ∉ w.dataf.contents)
    (msgSend : Mem) (size : UInt8) (l : CList NgbEntry) :
    none ∉ (after (fileEntry msgSend size l) w).dataf.contents ↔ ¬ NullStored w.mallocs := by
  have hinit := primitive_quiet.keeps_initFlood (indexAt msgSend)
    (4 :: size :: Octets.read msgSend 0 size.toNat) l (after (note (.valueRead 0 size.toNat)) w)
  have hcases := initFlood_cases msgSend size l (after (note (.valueRead 0 size.toNat)) w)
  have hmallocs : (after (note (.valueRead 0 size.toNat)) w).mallocs = w.mallocs := rfl
  rw [hmallocs] at hcases
  dsimp only at hcases
  unfold fileEntry NullStored
  simp only [after_bind, value_get, after_get]
  generalize value (initFlood (indexAt msgSend) (4 :: size :: Octets.read msgSend 0 size.toNat) l)
    (after (note (.valueRead 0 size.toNat)) w) = flood at hcases ⊢
  generalize after (initFlood (indexAt msgSend) (4 :: size :: Octets.read msgSend 0 size.toNat) l)
    (after (note (.valueRead 0 size.toNat)) w) = v at hinit hcases ⊢
  have hv : v.Register := Register.of_same hr hinit.dataf hinit.next
  have hvfilled : none ∉ v.dataf.contents := by
    rw [hinit.dataf]
    exact hfilled
  generalize hstored : (value (addLimited malloc v.dataf flood nbdata) v).1 = stored
  have hadded : none ∉ stored.contents ↔ ¬ (v.mallocs.head = true ∧ flood = none) := by
    rcases addLimited_cases hv flood with ⟨hhead, hsame⟩ | ⟨hhead, -, -, -, hentries⟩
    · rw [← hstored, hsame, hhead]
      exact iff_of_true hvfilled fun h => Bool.false_ne_true h.1
    · rw [hstored] at hentries
      have hlast := @filled_of_entries v { v with dataf := stored } _ _ hvfilled hentries
      rw [hhead]
      exact hlast.trans (not_congr (and_iff_right rfl).symm)
  -- no entry, no index, or both: the answer for the cell is the next one
  show none ∉ stored.contents ↔ _
  rw [hadded]
  apply not_congr
  rcases hcases with ⟨h₀, hflood, hrest⟩ | ⟨h₀, h₁, hflood, hrest⟩ | ⟨h₀, h₁, hflood⟩
  · rw [hflood, hrest]
    simp [h₀]
  · rw [hflood, hrest]
    simp [h₀, h₁]
  · rw [hflood]
    simp [h₀, h₁]

theorem filled_addMessageToFlood_iff (hr : w.Register) (hfilled : none ∉ w.dataf.contents) :
    none ∉ (after (addMessageToFlood msgSend size toDelete) w).dataf.contents ↔
      ¬ w.StoresNull := by
  obtain ⟨u, hquiet, hmallocs, -, hafter⟩ := after_addMessageToFlood msgSend size toDelete w
  have hdataf : u.dataf = w.dataf := hquiet.dataf
  have hlist := value_getSymmetrical_isSome w.neighbors w
  unfold World.StoresNull
  rw [hafter, ← hmallocs, ← hlist]
  cases value (getSymmetrical w.neighbors) w with
  | none =>
    show none ∉ u.dataf.contents ↔ _
    rw [hdataf]
    exact iff_of_true hfilled fun h => Bool.false_ne_true h.1
  | some l =>
    have hu : u.Register := Register.of_same hr hdataf hquiet.next
    have hufilled : none ∉ u.dataf.contents := by
      rw [hdataf]
      exact hfilled
    exact (filled_fileEntry_iff hu hufilled msgSend size (firstRecipients toDelete l)).trans
      (not_congr (and_iff_right rfl).symm)

/-- The same, for a move that adds a value. -/
theorem Adds.filled_iff (h : Adds msgSend size toDelete w w') (hr : w.Register)
    (hfilled : none ∉ w.dataf.contents) : none ∉ w'.dataf.contents ↔ ¬ w.StoresNull := by
  obtain ⟨u, halike, hdataf, hneighbors, hafter, -⟩ := h.call
  have hu : u.Register := Register.of_same hr hdataf halike.next.ge
  have hufilled : none ∉ u.dataf.contents := by
    rw [hdataf]
    exact hfilled
  have hstores : u.StoresNull ↔ w.StoresNull := by
    unfold World.StoresNull
    rw [hneighbors, halike.mallocs, (agrees_getSymmetrical w.neighbors u w halike).2.mallocs]
  rw [hafter, filled_addMessageToFlood_iff hu hufilled, hstores]

end Adding

/-! ### Putting a recipient back -/

/-- The list keeps its recipients exactly when there is memory for the new cell and
nobody is confused with the one that comes back. -/
theorem PutBack.perm_iff {found : Option Nat} {r : Nat} {currentTime : Int} {nw : NgbEntry}
    {l l' : CList NgbEntry} (h : PutBack found r currentTime nw l l') (hmem : nw ∈ l.contents)
    (hapart : Apart l.contents) : (l'.contents.map (·.sym)).Perm (l.contents.map (·.sym)) ↔
      found ≠ none ∧ Requeues l.contents nw r currentTime := by
  refine ⟨fun hperm => ?_, fun hback => h.perm hback.1 hapart hback.2⟩
  cases h with
  | absent hall =>
    obtain ⟨x, hx, heq⟩ := List.mem_map.mp hmem
    exact absurd (compareNS_eq_zero_iff.mpr (.inl (congrArg NgbEntry.place heq))) (hall x hx)
  | back n rest rc hremoves hinserts =>
    -- one recipient less would show in the length
    have hshort : l'.entries ≠ rest := by
      intro hrest
      have hlength := hperm.length_eq
      have hsplit := hremoves.perm.length_eq
      unfold CList.contents at hlength
      rw [hrest] at hlength
      simp only [List.length_map, List.length_cons] at hlength hsplit
      omega
    rw [hremoves.requeues_iff]
    generalize hents : l'.entries = ents at hinserts hshort
    cases hinserts with
    | failed => exact absurd rfl hshort
    | clash => exact absurd rfl hshort
    | inserted a pre post hfound hl hpre hpost =>
      refine ⟨by rw [hfound]; exact nofun, ?_⟩
      intro x hx hconfused
      have hpre' : ∀ c ∈ pre.map (·.content),
          decide (compareNS c (n.resent r currentTime) < 0) = true := by
        intro c hc
        obtain ⟨y, hy, rfl⟩ := List.mem_map.mp hc
        exact decide_eq_true (hpre y hy)
      rw [hl, List.map_append, List.dropWhile_append_of_pos hpre'] at hx
      cases post with
      | nil => cases hx
      | cons z post =>
        have hz : 0 < compareNS z.content (n.resent r currentTime) := hpost z rfl
        rw [List.map_cons, List.dropWhile_cons_of_neg (by simpa using hz.le)] at hx
        obtain rfl : z.content = x := Option.some.inj hx
        exact absurd (compareNS_eq_zero_iff.mpr (.inr hconfused)) (ne_of_gt hz)

/-- What a turn that sends the datum does to `DATAF`. -/
theorem putBack_of_resent {m : Move} {w w' : World} {t : Transmission} (h : m.Does w w')
    (hr : w.Register) (heffect : m.effect w = .resent t) :
    ∃ l' found, w'.dataf =
        w.dataf.relist (fun a f => if a = t.cell then l' else f.symNeighbors) ∧
      PutBack found w.rands.head t.time t.recipient t.flood.symNeighbors l' ∧
      (found = none ↔ w.mallocs.head = false) := by
  obtain ⟨tmp, rfl, hunder, hown, hfive, hdue, hsend⟩ := effect_resent heffect
  have hone := (value_sendData_iff t.flood t.recipient.sym.toNeighbor w).mpr hsend
  have hlinked := (hr.lists _ _ (under_eq_some hunder).1).mono
    (sends_sendData t.flood.data t.recipient.sym.toNeighbor w).next
  rw [show w' = _ from h, after_floodTurn hunder, if_neg hfive, if_pos hdue, if_pos hown,
    if_neg hone]
  obtain ⟨l', found, hdataf, hback, hfound, -⟩ :=
    dataf_requeue hlinked t.cell t.time tmp t.recipient
  obtain ⟨msgs, sendtos, memory, log, hafter⟩ :=
    after_sendData_eq t.flood.data t.recipient.sym.toNeighbor w
  rw [hafter] at hdataf hback hfound ⊢
  exact ⟨l', found, hdataf, hback, hfound⟩

/-! ### One move -/

/-- A `DATAF` without null pointers. -/
theorem get_of_filled {w : World} (hfilled : none ∉ w.dataf.contents) (index : DataIndex) :
    after (getFlood index) w = w := by
  have hnull : ¬ none ∈ walked (fun c => compareFlood c (floodProbe index) = 0) w.dataf.contents :=
    fun hnone => hfilled (walked_subset _ _ hnone)
  exact congrArg (fun m => after m w) (if_neg hnull)

theorem entries_of_filled {w : World} (hr : w.Register) (hfilled : none ∉ w.dataf.contents) :
    ∀ e ∈ w.dataf.entries, (w.floodAt e.addr).isSome := by
  intro e he
  obtain ⟨a, content⟩ := e
  cases content with
  | none => exact absurd (List.mem_map.mpr ⟨_, he, rfl⟩) hfilled
  | some f =>
    rw [(floodAt_eq_some_iff hr.linked).mpr he]
    rfl

/-- **One move** keeps `DATAF` intact exactly when it is provided for. -/
theorem Move.Does.intact_iff {m : Move} {w w' : World} (h : m.Does w w') (hw : w.Sound)
    (hr : w.Register) (hapart : w.Apart) (hfilled : none ∉ w.dataf.contents) :
    Intact m w w' ↔ Provided w m := by
  obtain ⟨hr', hfiles⟩ := h.files hw hr
  -- the two halves
  have hnull : none ∉ w'.dataf.contents ↔ ((m.given w).isSome → ¬ w.StoresNull) := by
    cases hgiven : m.given w with
    | none =>
      rw [hgiven] at hfiles
      refine iff_of_true ?_ nofun
      rw [← none_mem_labels_iff, labels_eq, Relists.label hfiles, ← labels_eq, none_mem_labels_iff]
      exact hfilled
    | some v =>
      rw [(h.adds hgiven).filled_iff hr hfilled]
      exact ⟨fun hnot _ => hnot, fun hnot => hnot rfl⟩
  have hkept : ∀ t, m.effect w = .resent t →
      ((∃ f', w'.floodAt t.cell = some f' ∧ f'.waiting.Perm t.flood.waiting) ↔
        w.mallocs.head = true ∧
          Requeues t.flood.symNeighbors.contents t.recipient w.rands.head t.time) := by
    intro t heffect
    obtain ⟨tmp, -, hunder, -⟩ := effect_resent heffect
    obtain ⟨hflood, hmem⟩ := under_eq_some hunder
    obtain ⟨l', found, hdataf, hback, hfound⟩ := putBack_of_resent h hr heffect
    have hentry : w'.floodAt t.cell = some { t.flood with symNeighbors := l' } := by
      rw [floodAt_of_relist hdataf, hflood]
      simp
    have hhead : found ≠ none ↔ w.mallocs.head = true := by
      rw [Ne, hfound, Bool.not_eq_false]
    rw [← hhead, ← hback.perm_iff hmem (hapart t.cell t.flood hflood)]
    constructor
    · rintro ⟨f', hf', hperm⟩
      obtain rfl := Option.some.inj (hentry.symm.trans hf')
      exact hperm
    · intro hperm
      exact ⟨_, hentry, hperm⟩
  constructor
  · intro hintact
    exact ⟨hnull.mp hintact.filled, fun t ht => (hkept t ht).mp (hintact.kept t ht)⟩
  · intro hprovided
    have hfilled' := hnull.mpr hprovided.filed
    exact ⟨hfilled', get_of_filled hfilled', entries_of_filled hr' hfilled',
      fun t ht => (hkept t ht).mpr (hprovided.resent t ht)⟩

/-! ### Runs -/

theorem filled_of_initial {w : World} (h : w.Initial) : none ∉ w.dataf.contents := by
  rw [h.dataf]
  exact nofun

/-- **Allocation failures do not corrupt flooding** in the runs whose moves are all
provided for, and in no others. -/
theorem intact_iff_provided {w₀ w : World} {tr : List (World × Move)} (hinit : w₀.Initial)
    (hrun : Run Move.Does w₀ tr w) :
    (∀ past m u v, Stage Move.Does w₀ tr w past m u v → Intact m u v) ↔
      ∀ x ∈ tr, Provided x.1 x.2 := by
  let I : World → Prop := fun v => (v.Sound ∧ v.Register ∧ v.Apart) ∧ none ∉ v.dataf.contents
  apply @Run.stages_iff _ _ Move.Does _ _ _ Provided Intact I hrun
    ⟨apart_of_run hinit .nil, filled_of_initial hinit⟩
  rintro v m v' ⟨⟨hv, hr, hapart⟩, hfilled⟩ hmove
  refine ⟨hmove.intact_iff hv hr hapart hfilled, fun hintact => ⟨?_, hintact.filled⟩⟩
  exact ⟨hmove.sound hv, (hmove.files hv hr).1, hmove.apart hv hr hapart⟩

/-- There is memory for all but one of the allocations. -/
def failingAt (k : Nat) : World := { bootAt 0 with mallocs := fun n => decide (n ≠ k) }

/-- A neighbour becomes symmetrical, and it is sent the message. -/
def sendToOne : List Move := [longHello 7, .say (some [97]), .turn 10 5 7]

theorem intact_sendToOne :
    (∀ x ∈ actHistory sendToOne (bootAt 0), Provided x.1 x.2) ∧ ∀ past m u v,
      Stage Move.Does (bootAt 0) (actHistory sendToOne (bootAt 0)) (actAll sendToOne (bootAt 0))
        past m u v → Intact m u v := by
  have hprovided : ∀ x ∈ actHistory sendToOne (bootAt 0), Provided x.1 x.2 := by decide +kernel
  have hrun := run_actAll sendToOne (bootAt 0)
  exact ⟨hprovided, (intact_iff_provided (initial_boot _) hrun).mpr hprovided⟩

/-- The entry for a local message cannot be allocated, and a null pointer is added.  The new cell
for the recipient cannot be allocated, and it is lost. -/
theorem not_intact_of_shortage :
    (¬ ∀ past m u v, Stage Move.Does (failingAt 1) (actHistory [.say (some [97])] (failingAt 1))
      (actAll [.say (some [97])] (failingAt 1)) past m u v → Intact m u v) ∧
    ¬ ∀ past m u v, Stage Move.Does (failingAt 10) (actHistory sendToOne (failingAt 10))
      (actAll sendToOne (failingAt 10)) past m u v → Intact m u v := by
  constructor
  · intro h
    have hintact := h [] _ _ _ ⟨.nil, Move.does_act _ _, [], rfl, .nil⟩
    have hnull : none ∈ ((Move.say (some [97])).act (failingAt 1)).dataf.contents := by
      decide +kernel
    exact hintact.filled hnull
  · intro h
    let w := actAll [longHello 7, .say (some [97])] (failingAt 10)
    have hrun : Run Move.Does (failingAt 10) _ w := run_actAll [longHello 7, .say (some [97])] _
    have hintact := h _ (.turn 10 5 7) w _ ⟨hrun, Move.does_act _ _, [], rfl, .nil⟩
    -- the turn sends the datum to the only recipient
    have hturn : ∀ x ∈ w.under 10 7, w.neighbors.owns x.2.sym ∧ x.2.timesSent ≠ 5 ∧
        (x.2.waitTime ≤ 5 ∧ x.1.Sendable) ∧ x.1.waiting.length = 1 := by
      decide +kernel
    obtain ⟨⟨f, nw⟩, hunder⟩ := Option.isSome_iff_exists.mp
      (show (w.under 10 7).isSome by decide +kernel)
    obtain ⟨hown, hfive, hdue, hwaiting⟩ := hturn _ hunder
    have heffect : (Move.turn 10 5 7).effect w = .resent ⟨10, 5, f, nw⟩ := by
      rw [effect_turn hunder, if_neg (not_not.mpr hown), if_neg hfive, if_pos hdue]
    -- and afterwards there is none
    obtain ⟨f', hf', hperm⟩ := hintact.kept _ heffect
    have hnone : ∀ x ∈ ((Move.turn 10 5 7).act w).floodAt 10, x.waiting.length = 0 := by
      decide +kernel
    have hlength : f'.waiting.length = 1 := hperm.length_eq.trans hwaiting
    exact absurd (hlength.symm.trans (hnone f' hf')) (by decide)

end FloodPeer
