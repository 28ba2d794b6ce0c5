/-
FloodPeer/Backoff.lean

When a datum is sent, and how often.

The attempts to send an entry of `DATAF` to one neighbour are a `Schedule`: the
first is due a second after the entry was made, and the pauses between them
double.  They keep to it in the runs in which `remove_elem` takes the recipient
out that has just been sent the datum (`Alone`).  Nothing is transmitted without
an attempt, so the transmissions are as far apart.
-/
import FloodPeer.History
import FloodPeer.Sending
import FloodPeer.Lib.Schedule

namespace FloodPeer

open Octets StateLogic Runs Backoff

/-! ### The recipients of one entry -/

/-- What becomes of the recipients of the entry `f` in the cell `a`. -/
inductive Shifts (m : Move) (w : World) (a : Nat) (f : FloodEntry) (l' : List NgbEntry) : Prop
  | fewer (hother : ∀ t, m.effect w = .resent t → t.cell ≠ a)
      (hsub : l'.Sublist f.symNeighbors.contents)
  /-- One of them, `n`, is taken out, and it may be put back. -/
  | resent (t : Transmission) (heffect : m.effect w = .resent t) (hcell : t.cell = a)
      (hflood : t.flood = f) (n : NgbEntry) (rest : List NgbEntry)
      (hperm : f.symNeighbors.contents.Perm (n :: rest))
      (hown : Spares f.symNeighbors.contents t.recipient → n = t.recipient)
      (hback : ∀ x ∈ l', x ∈ rest ∨ x = n.resent w.rands.head t.time)
      (hapart : Apart l')

/-- The lists of recipients never have two entries for one place. -/
def World.Apart (w : World) : Prop :=
  ∀ a f, w.floodAt a = some f → FloodPeer.Apart f.symNeighbors.contents

theorem contents_sublist_withoutPeer {l : CList NgbEntry} {bound : Nat} (hl : l.Linked bound)
    (peer : NeighborPtr) : (withoutPeer peer l).contents.Sublist l.contents :=
  (removeElem_spec hl (ngbProbe peer)).1.sublist.map _

theorem contents_sublist_iterate {l : CList NgbEntry} {bound : Nat} (hl : l.Linked bound)
    (peer : NeighborPtr) (n : Nat) : ((withoutPeer peer)^[n] l).contents.Sublist l.contents := by
  induction n generalizing l with
  | zero => exact List.Sublist.refl _
  | succ n ih =>
    rw [Function.iterate_succ_apply]
    exact (ih (linked_withoutPeer hl peer)).trans (contents_sublist_withoutPeer hl peer)

/-- One recipient, out and in again. -/
theorem Requeued.shift {w : World} {currentTime : Int} {nw : NgbEntry} {l l' : CList NgbEntry}
    (h : Requeued w currentTime nw l l') (hmem : nw ∈ l.contents)
    (hapart : Apart l.contents) : ∃ n rest, l.contents.Perm (n :: rest) ∧
      (Spares l.contents nw → n = nw) ∧
      (∀ x ∈ l'.contents, x ∈ rest ∨ x = n.resent w.rands.head currentTime) ∧
      Apart l'.contents := by
  cases h with
  | absent hl =>
    obtain ⟨e, he, rfl⟩ := List.mem_map.mp hmem
    exact absurd (compareNS_eq_zero_iff.mpr (.inl rfl)) (hl e he)
  | back n rest found rc hremoves hinserts =>
    have hperm : l.contents.Perm (n :: rest.map (·.content)) := hremoves.perm
    have hnodup : ((n :: rest.map (·.content)).map NgbEntry.place).Nodup :=
      (hperm.map _).nodup_iff.mp hapart
    refine ⟨n, rest.map (·.content), hperm, fun hspares => ?_, fun x hx => ?_, ?_⟩
    · obtain ⟨-, hfind⟩ := hremoves.own hspares hapart
      exact Option.some.inj (hfind.trans (find?_place hapart hmem))
    · obtain ⟨e, he, rfl⟩ := List.mem_map.mp hx
      rcases hinserts.mem.mp he with hold | ⟨-, a, -, rfl⟩
      · exact .inl (List.mem_map_of_mem hold)
      · exact .inr rfl
    · unfold Apart CList.contents
      generalize l'.entries = ents at hinserts ⊢
      cases hinserts with
      | failed => exact (List.nodup_cons.mp hnodup).2
      | clash => exact (List.nodup_cons.mp hnodup).2
      | inserted a pre post _ hrest =>
        -- `n` is where it was, with another deadline
        have hback : ((pre ++ ({ addr := a, content := n.resent w.rands.head currentTime } :
            ListEntry NgbEntry) :: post).map fun e => e.content.place).Perm
              (n.place :: rest.map fun e => e.content.place) := by
          rw [hrest]
          exact List.perm_middle.map fun e : ListEntry NgbEntry => e.content.place
        rw [List.map_map]
        rw [List.map_cons, List.map_map] at hnodup
        exact hback.nodup_iff.mpr hnodup

theorem Relists.shifts {m : Move} {w w' : World} (h : Relists m w w') (hr : w.Register)
    (hw : w.Apart) : ∃ g, w'.dataf = w.dataf.relist g ∧
      ∀ a f, w.floodAt a = some f → Shifts m w a f (g a f).contents := by
  cases h with
  | nothing heffect hdataf =>
    refine ⟨fun _ f => f.symNeighbors, by rw [hdataf, relist_self], fun a f _ => ?_⟩
    refine .fewer (fun t ht => ?_) (List.Sublist.refl _)
    rw [heffect] at ht
    cases ht
  -- an answer or the end of a neighbour takes recipients out, and changes no other
  | answered index peer heffect hdataf =>
    refine ⟨_, hdataf, fun a f hf => .fewer (fun t ht => ?_) ?_⟩
    · rw [heffect] at ht
      cases ht
    · split
      · exact contents_sublist_withoutPeer (hr.lists a f hf) peer
      · exact List.Sublist.refl _
  | gone peer heffect hdataf =>
    refine ⟨_, hdataf, fun a f hf => .fewer (fun t ht => ?_) ?_⟩
    · rw [heffect] at ht
      cases ht
    · exact contents_sublist_iterate (hr.lists a f hf) peer _
  | resent t l heffect hdataf hrequeued =>
    refine ⟨_, hdataf, fun a f hf => ?_⟩
    split
    · rename_i ha
      obtain ⟨tmp, -, hunder, -⟩ := effect_resent heffect
      obtain ⟨hat, hmem⟩ := under_eq_some hunder
      rw [← ha, hf] at hat
      obtain rfl := Option.some.inj hat
      obtain ⟨n, rest, hperm, hown, hback, hapart⟩ := hrequeued.shift hmem (hw a _ hf)
      exact .resent t heffect ha.symm rfl n rest hperm hown hback hapart
    · rename_i ha
      refine .fewer (fun t' ht' => ?_) (List.Sublist.refl _)
      rw [heffect] at ht'
      obtain rfl := Effect.resent.inj ht'
      exact fun heq => ha heq.symm

/-- **One move.**  An entry that was there has its recipients shifted; any other
is new, and so are its recipients. -/
theorem Move.Does.shifts {m : Move} {w w' : World} (h : m.Does w w') (hw : w.Sound)
    (hr : w.Register) (hapart : w.Apart) {a : Nat} {f' : FloodEntry}
    (hf' : w'.floodAt a = some f') :
    (∃ f, w.floodAt a = some f ∧ f'.index = f.index ∧
      Shifts m w a f f'.symNeighbors.contents) ∨
    (w.next ≤ a ∧ Apart f'.symNeighbors.contents ∧
      ∀ ent ∈ f'.symNeighbors.contents, Made w ent) := by
  obtain ⟨hr', hfiles⟩ := h.files hw hr
  cases hgiven : m.given w with
  | none =>
    rw [hgiven] at hfiles
    obtain ⟨g, hdataf, hshifts⟩ := hfiles.shifts hr hapart
    rw [floodAt_of_relist hdataf] at hf'
    obtain ⟨f, hf, rfl⟩ := Option.map_eq_some_iff.mp hf'
    exact .inl ⟨f, hf, rfl, hshifts a f hf⟩
  | some v =>
    rw [hgiven] at hfiles
    rcases hfiles.1.floodAt hr hr' hf' with hold | ⟨hlo, l, hl, rfl⟩
    · refine .inl ⟨f', hold, rfl, .fewer (fun t ht => ?_) (List.Sublist.refl _)⟩
      obtain ⟨tmp, rfl, -⟩ := effect_resent ht
      cases hgiven
    · obtain ⟨hlinked, hl', -⟩ := apart_getSymmetrical hw hl
      have hsub := contents_firstRecipients hlinked m.source
      exact .inr ⟨hlo, (hsub.map _).nodup hl', fun ent hent =>
        made_getSymmetrical hl ent (hsub.subset hent)⟩

theorem Move.Does.apart {m : Move} {w w' : World} (h : m.Does w w') (hw : w.Sound)
    (hr : w.Register) (hapart : w.Apart) : w'.Apart := by
  intro a f' hf'
  rcases h.shifts hw hr hapart hf' with ⟨f, hf, -, hshifts⟩ | ⟨-, hnew, -⟩
  · cases hshifts with
    | fewer _ hsub => exact (hsub.map _).nodup (hapart a f hf)
    | resent _ _ _ _ _ _ _ _ _ hnodup => exact hnodup
  · exact hnew

/-! ### The history of the attempts -/

/-- The least number of seconds to the first transmission, and from the `n`-th
to the next. -/
def least (n : Nat) : Int := if n = 0 then 1 else 2 ^ (n - 1)

theorem least_le_waitOf (n r : Nat) : least n ≤ waitOf n r := by
  unfold least waitOf
  split
  · exact le_refl _
  · exact_mod_cast Nat.le_add_left (2 ^ (n - 1)) (r % (2 ^ n - 2 ^ (n - 1)))

/-- The time of the attempt that the move makes to send the entry in the cell `a` to
the neighbour `k`, and the deadline that it sets. -/
def attemptedBy (a : Nat) (k : NeighborPtr) (w : World) (m : Move) : Option (Int × Int) :=
  match m.effect w with
  | .resent t =>
    if t.cell = a ∧ t.recipient.sym = k then
      some (t.time, t.time + waitOf (t.recipient.timesSent + 1) w.rands.head)
    else none
  | _ => none

/-- All the attempts to send that entry to that neighbour, oldest first. -/
def attempted (a : Nat) (k : NeighborPtr) (tr : List (World × Move)) : List (Int × Int) :=
  tr.filterMap fun x => attemptedBy a k x.1 x.2

theorem attempted_append (a : Nat) (k : NeighborPtr) (tr tr' : List (World × Move)) :
    attempted a k (tr ++ tr') = attempted a k tr ++ attempted a k tr' := List.filterMap_append

theorem attempted_snoc (a : Nat) (k : NeighborPtr) (tr : List (World × Move)) (w : World)
    (m : Move) :
    attempted a k (tr ++ [(w, m)]) = attempted a k tr ++ (attemptedBy a k w m).toList := by
  rw [attempted_append]
  congr 1

theorem attemptedBy_eq_none {a : Nat} {k : NeighborPtr} {w : World} {m : Move}
    (h : ∀ t, m.effect w = .resent t → ¬ (t.cell = a ∧ t.recipient.sym = k)) :
    attemptedBy a k w m = none := by
  unfold attemptedBy
  split
  · rename_i t ht
    exact if_neg (h t ht)
  · rfl

theorem attemptedBy_resent {w : World} {m : Move} {t : Transmission}
    (h : m.effect w = .resent t) :
    attemptedBy t.cell t.recipient.sym w m =
      some (t.time, t.time + waitOf (t.recipient.timesSent + 1) w.rands.head) := by
  unfold attemptedBy
  rw [h]
  exact if_pos ⟨rfl, rfl⟩

theorem attemptedBy_eq_some {a : Nat} {k : NeighborPtr} {w : World} {m : Move} {x : Int × Int}
    (h : attemptedBy a k w m = some x) :
    ∃ t, m.effect w = .resent t ∧ t.cell = a ∧ t.recipient.sym = k := by
  unfold attemptedBy at h
  split at h
  · rename_i t ht
    obtain ⟨hto, -⟩ := Option.ite_none_right_eq_some.mp h
    exact ⟨t, ht, hto⟩
  · cases h

/-- Nothing is sent from a cell that is not in use. -/
theorem attemptedBy_of_unused {w : World} (hr : w.Register) {a : Nat} (ha : w.next ≤ a)
    (k : NeighborPtr) (m : Move) : attemptedBy a k w m = none := by
  apply attemptedBy_eq_none
  intro t ht hto
  obtain ⟨tmp, -, hunder, -⟩ := effect_resent ht
  have hlt := floodAt_lt hr (under_eq_some hunder).1
  omega

/-- `init_ngb_entry` has made the entry for `k` in the cell `a` when the clock
showed `c`. -/
def Begun (tr : List (World × Move)) (a : Nat) (k : NeighborPtr) (c : Int) : Prop :=
  ∃ x ∈ tr, x.1.next ≤ a ∧ ((x.2.act x.1).floodAt a).isSome ∧ ∃ v, Elapsed x.1 v ∧
    (value (initNgbEntry k 0) v).isSome ∧ c = (v.clock.head : Int)

/-- In this move nobody is taken for the recipient that has been sent the datum. -/
def Alone (w : World) (m : Move) : Prop :=
  ∀ t, m.effect w = .resent t → Spares t.flood.symNeighbors.contents t.recipient

instance (w : World) (m : Move) : Decidable (Alone w m) :=
  match h : m.effect w with
  | .resent t =>
    decidable_of_iff (Spares t.flood.symNeighbors.contents t.recipient)
      ⟨fun hspares _ ht => Effect.resent.inj (h.symm.trans ht) ▸ hspares, fun hall => hall t h⟩
  | .nothing => isTrue fun _ ht => nomatch h.symm.trans ht
  | .answered .. => isTrue fun _ ht => nomatch h.symm.trans ht
  | .gone _ => isTrue fun _ ht => nomatch h.symm.trans ht

/-- The attempts so far agree with what the entries say. -/
structure Tracks (tr : List (World × Move)) (w : World) : Prop where
  entries : ∀ a f, w.floodAt a = some f → ∀ ent ∈ f.symNeighbors.contents,
    ent.timesSent = (attempted a ent.sym tr).length ∧
      ∃ c, Begun tr a ent.sym c ∧ Schedule least 5 c (attempted a ent.sym tr) ent.waitTime
  others : ∀ a k, attempted a k tr = [] ∨
    ∃ c due, Begun tr a k c ∧ Schedule least 5 c (attempted a k tr) due
  unused : ∀ a k, w.next ≤ a → attempted a k tr = []
  calls : ∀ x ∈ tr, ∀ t, x.2.effect x.1 = .resent t → t.recipient.timesSent + 1 ≤ 5

theorem Begun.append {tr : List (World × Move)} {a : Nat} {k : NeighborPtr} {c : Int}
    (h : Begun tr a k c) (tr' : List (World × Move)) : Begun (tr ++ tr') a k c := by
  obtain ⟨x, hx, hbegun⟩ := h
  exact ⟨x, List.mem_append_left _ hx, hbegun⟩

/-- An attempt is the next one of its schedule. -/
theorem Tracks.sent {tr : List (World × Move)} {w : World} {m : Move} {t : Transmission}
    (h : Tracks tr w) (ht : m.effect w = .resent t) :
    t.recipient.timesSent + 1 ≤ 5 ∧ t.recipient.timesSent =
      (attempted t.cell t.recipient.sym tr).length ∧
    ∃ c, Begun tr t.cell t.recipient.sym c ∧
      Schedule least 5 c (attempted t.cell t.recipient.sym (tr ++ [(w, m)]))
        (t.time + waitOf (t.recipient.timesSent + 1) w.rands.head) := by
  obtain ⟨tmp, -, hunder, -, hfive, hdue, -⟩ := effect_resent ht
  obtain ⟨hat, hmem⟩ := under_eq_some hunder
  obtain ⟨htimes, c, hbegun, hschedule⟩ := h.entries _ _ hat _ hmem
  have hlength := hschedule.length_le
  refine ⟨by omega, htimes, c, hbegun, ?_⟩
  rw [attempted_snoc, attemptedBy_resent ht]
  refine hschedule.snoc (by omega) hdue ?_
  rw [← htimes]
  exact Int.add_le_add_left (least_le_waitOf _ _) _

/-- **One move.** -/
theorem Tracks.step {tr : List (World × Move)} {w w' : World} {m : Move} (h : Tracks tr w)
    (hmove : m.Does w w') (hw : w.Sound) (hr : w.Register) (hapart : w.Apart)
    (halone : Alone w m) : Tracks (tr ++ [(w, m)]) w' where
  entries := by
    intro a f' hf' ent hent
    -- an old entry, with fewer recipients or with one put back, or a new entry
    rcases hmove.shifts hw hr hapart hf' with ⟨f, hf, -, hshifts⟩ | ⟨hlo, -, hmade⟩
    · cases hshifts with
      | fewer hother hsub =>
        have hnone : attemptedBy a ent.sym w m = none :=
          attemptedBy_eq_none fun t ht heq => hother t ht heq.1
        obtain ⟨htimes, c, hbegun, hschedule⟩ := h.entries a f hf ent (hsub.subset hent)
        rw [attempted_snoc, hnone, Option.toList_none, List.append_nil]
        exact ⟨htimes, c, hbegun.append _, hschedule⟩
      | resent t heffect hcell hflood n rest hperm hown hback =>
        subst hcell hflood
        obtain rfl := hown (halone t heffect)
        rcases hback ent hent with hrest | rfl
        · -- another recipient
          have hold := hperm.mem_iff.mpr (List.mem_cons_of_mem _ hrest)
          have hne : t.recipient.sym ≠ ent.sym := by
            intro heq
            have hnodup := (hperm.map NgbEntry.place).nodup_iff.mp (hapart _ _ hf)
            rw [List.map_cons, List.nodup_cons] at hnodup
            apply hnodup.1
            rw [NgbEntry.place, heq]
            exact List.mem_map_of_mem hrest
          have hnone : attemptedBy t.cell ent.sym w m = none := by
            apply attemptedBy_eq_none
            intro t' ht' heq
            rw [heffect] at ht'
            obtain rfl := Effect.resent.inj ht'
            exact hne heq.2
          obtain ⟨htimes, c, hbegun, hschedule⟩ := h.entries _ _ hf ent hold
          rw [attempted_snoc, hnone, Option.toList_none, List.append_nil]
          exact ⟨htimes, c, hbegun.append _, hschedule⟩
        · -- the recipient itself: its schedule has one transmission more
          obtain ⟨-, htimes, c, hbegun, hschedule⟩ := h.sent heffect
          refine ⟨?_, c, hbegun.append _, ?_⟩
          · show t.recipient.timesSent + 1 = (attempted t.cell t.recipient.sym _).length
            rw [attempted_snoc, attemptedBy_resent heffect, Option.toList_some,
              List.length_append, List.length_singleton, htimes]
          · have hdue : (t.recipient.resent w.rands.head t.time).waitTime =
                t.time + waitOf (t.recipient.timesSent + 1) w.rands.head := Int.add_comm _ _
            rw [hdue]
            exact hschedule
    · -- a new recipient
      obtain ⟨v, hv, hinit⟩ := hmade ent hent
      have hnone : attempted a ent.sym (tr ++ [(w, m)]) = [] := by
        rw [attempted_snoc, h.unused a ent.sym hlo, attemptedBy_of_unused hr hlo]
        rfl
      have hent' := eq_of_initNgbEntry hinit
      rw [hnone]
      refine ⟨by rw [hent']; rfl, v.clock.head, ⟨(w, m), List.mem_append_right _
        List.mem_cons_self, hlo, ?_, v, hv, by rw [hinit]; rfl, rfl⟩, .nil ?_⟩
      · by_cases hm : m = .idle
        · -- the cell is new, and in an idle move there is no new one
          subst hm
          rw [floodAt_of_dataf (Idle.dataf hmove)] at hf'
          exact absurd (floodAt_lt hr hf') (not_lt.mpr hlo)
        · rw [← hmove.eq_act hm, hf']
          rfl
      · rw [hent']
        exact le_of_eq (Int.add_comm _ _)
  others := by
    intro a k
    cases hsent : attemptedBy a k w m with
    | none =>
      rw [attempted_snoc, hsent, Option.toList_none, List.append_nil]
      rcases h.others a k with hnil | ⟨c, due, hbegun, hschedule⟩
      · exact .inl hnil
      · exact .inr ⟨c, due, hbegun.append _, hschedule⟩
    | some x =>
      obtain ⟨t, heffect, rfl, rfl⟩ := attemptedBy_eq_some hsent
      obtain ⟨-, -, c, hbegun, hschedule⟩ := h.sent heffect
      exact .inr ⟨c, _, hbegun.append _, hschedule⟩
  unused := by
    intro a k ha
    have hlo := le_trans hmove.elapsed.next ha
    rw [attempted_snoc, h.unused a k hlo, attemptedBy_of_unused hr hlo]
    rfl
  calls := by
    intro x hx t ht
    rcases List.mem_append.mp hx with hx | hx
    · exact h.calls x hx t ht
    · obtain rfl := List.mem_singleton.mp hx
      exact (h.sent ht).1

/-! ### Runs -/

theorem apart_of_initial {w : World} (h : w.Initial) : w.Apart := by
  intro a f hf
  unfold World.floodAt at hf
  rw [h.dataf] at hf
  cases hf

/-- No list of recipients ever has two entries for one place. -/
theorem apart_of_run {w₀ w : World} {tr : List (World × Move)} (hinit : w₀.Initial)
    (hrun : Run Move.Does w₀ tr w) : w.Sound ∧ w.Register ∧ w.Apart := by
  apply hrun.invariant
  · exact ⟨sound_of_initial hinit, register_of_initial hinit, apart_of_initial hinit⟩
  · rintro v m w' ⟨hv, hr, hapart⟩ hmove
    exact ⟨hmove.sound hv, (hmove.files hv hr).1, hmove.apart hv hr hapart⟩

theorem tracks_of_initial {w : World} (h : w.Initial) : Tracks [] w where
  entries := by
    intro a f hf
    unfold World.floodAt at hf
    rw [h.dataf] at hf
    cases hf
  others := fun _ _ => .inl rfl
  unused := fun _ _ _ => rfl
  calls := fun _ hx => nomatch hx

theorem tracks_of_run {w₀ w : World} {tr : List (World × Move)} (hinit : w₀.Initial)
    (hrun : Run Move.Does w₀ tr w) (halone : ∀ x ∈ tr, Alone x.1 x.2) : Tracks tr w := by
  induction hrun with
  | nil => exact tracks_of_initial hinit
  | @snoc tr v w m hrun hmove ih =>
    obtain ⟨hv, hr, hapart⟩ := apart_of_run hinit hrun
    have hbefore := ih fun x hx => halone x (List.mem_append_left _ hx)
    have hlast := halone (v, m) (List.mem_append_right _ List.mem_cons_self)
    exact hbefore.step hmove hv hr hapart hlast

/-! ### The history of the transmissions -/

/-- The time at which the move transmits the entry in the cell `a` to the neighbour
`k`: bytes of the datum are given to it. -/
def transmittedBy (a : Nat) (k : NeighborPtr) (w : World) (m : Move) : Option Int :=
  match m with
  | .turn flood currentTime _ =>
    if flood = a ∧ Issues a k w (m.act w) then some currentTime else none
  | _ => none

/-- The times of all transmissions of that entry to that neighbour, oldest first. -/
def transmitted (a : Nat) (k : NeighborPtr) (tr : List (World × Move)) : List Int :=
  tr.filterMap fun x => transmittedBy a k x.1 x.2

theorem transmitted_append (a : Nat) (k : NeighborPtr) (tr tr' : List (World × Move)) :
    transmitted a k (tr ++ tr') = transmitted a k tr ++ transmitted a k tr' := List.filterMap_append

theorem transmitted_snoc (a : Nat) (k : NeighborPtr) (tr : List (World × Move)) (w : World)
    (m : Move) :
    transmitted a k (tr ++ [(w, m)]) = transmitted a k tr ++ (transmittedBy a k w m).toList := by
  rw [transmitted_append]
  congr 1

/-- A transmission is an attempt. -/
theorem attempted_of_transmittedBy {w : World} (hw : w.Sound) (hwhole : w.Whole) {a : Nat}
    {k : NeighborPtr} {m : Move} {c : Int} (h : transmittedBy a k w m = some c) :
    ∃ due, attemptedBy a k w m = some (c, due) := by
  cases m with
  | turn flood currentTime tmp =>
    obtain ⟨⟨rfl, hissues⟩, hc⟩ := Option.ite_none_right_eq_some.mp h
    obtain ⟨t, ht, rfl, rfl, rfl⟩ := resent_of_issues hw hwhole hissues
    obtain rfl := Option.some.inj hc
    exact ⟨_, attemptedBy_resent ht⟩
  | _ => cases h

/-- What holds of `DATAF` in every run. -/
theorem whole_of_run {w₀ w : World} {tr : List (World × Move)} (hinit : w₀.Initial)
    (hrun : Run Move.Does w₀ tr w) : w.Sound ∧ w.Register ∧ w.Whole := by
  apply hrun.invariant
  · exact ⟨sound_of_initial hinit, register_of_initial hinit, whole_of_initial hinit⟩
  · rintro v m w' ⟨hv, hr, hwhole⟩ hmove
    exact ⟨hmove.sound hv, (hmove.files hv hr).1, hmove.whole hv hr hwhole⟩

/-- The transmissions are some of the attempts. -/
theorem transmitted_sublist {w₀ w : World} {tr : List (World × Move)} (hinit : w₀.Initial)
    (hrun : Run Move.Does w₀ tr w) (a : Nat) (k : NeighborPtr) :
    (transmitted a k tr).Sublist ((attempted a k tr).map Prod.fst) := by
  induction hrun with
  | nil => exact List.Sublist.refl _
  | @snoc tr v w m hrun hmove ih =>
    obtain ⟨hv, -, hwhole⟩ := whole_of_run hinit hrun
    rw [transmitted_snoc, attempted_snoc, List.map_append]
    refine ih.append ?_
    cases hsent : transmittedBy a k v m with
    | none => exact List.nil_sublist _
    | some c =>
      obtain ⟨due, hdue⟩ := attempted_of_transmittedBy hv hwhole hsent
      rw [hdue]
      exact List.Sublist.refl _

/-- The transmissions in the history `tr`, which leads to `w`, back off. -/
structure BacksOff (tr : List (World × Move)) (w : World) : Prop where
  /-- The counters are at most five, -/
  counters : ∀ a f, w.floodAt a = some f → ∀ ent ∈ f.symNeighbors.contents, ent.timesSent ≤ 5
  /-- and `wait_time` is called with at most five, for the entry that has been
  taken out after a transmission. -/
  calls : ∀ x ∈ tr, ∀ t, x.2.effect x.1 = .resent t →
    ∀ n ∈ t.flood.symNeighbors.contents.find? (fun y => compareNS y t.recipient = 0),
      n.timesSent + 1 ≤ 5
  atMost : ∀ a k, (transmitted a k tr).length ≤ 5
  /-- The first transmission comes a second after the entry has been made, or
  later. -/
  first : ∀ a k t, (transmitted a k tr).head? = some t → ∃ c, Begun tr a k c ∧ c + 1 ≤ t
  /-- The pauses double. -/
  gap : ∀ a k i s t, (transmitted a k tr)[i]? = some s → (transmitted a k tr)[i + 1]? = some t →
    s + 2 ^ i ≤ t

theorem least_succ (n : Nat) : least (n + 1) = 2 ^ n := if_neg (Nat.succ_ne_zero n)

/-- The transmissions of one entry to one neighbour. -/
theorem Tracks.spaced {w₀ w : World} {tr : List (World × Move)} (h : Tracks tr w)
    (hinit : w₀.Initial) (hrun : Run Move.Does w₀ tr w) (a : Nat) (k : NeighborPtr) :
    transmitted a k tr = [] ∨
      ∃ c, Begun tr a k c ∧ Spaced least 5 c (transmitted a k tr) := by
  have hsub := transmitted_sublist hinit hrun a k
  rcases h.others a k with hnil | ⟨c, due, hbegun, hschedule⟩
  · rw [hnil] at hsub
    exact .inl (List.sublist_nil.mp hsub)
  · refine .inr ⟨c, hbegun, hschedule.spaced.sublist (fun n => ?_) (fun i j hij => ?_) hsub⟩
    · rw [least_succ]
      exact pow_nonneg (by decide) n
    · rw [least_succ, least_succ]
      exact pow_le_pow_right₀ (by decide) hij

/-- In a move that sends a datum and confuses nobody, the entry that is taken
out is the recipient's. -/
theorem Alone.taken {w : World} {m : Move} (h : Alone w m) (hr : w.Register) (hapart : w.Apart)
    {t : Transmission} (ht : m.effect w = .resent t) {n : NgbEntry}
    (hn : n ∈ t.flood.symNeighbors.contents.find? fun y => compareNS y t.recipient = 0) :
    n = t.recipient := by
  obtain ⟨tmp, -, hunder, -⟩ := effect_resent ht
  obtain ⟨hat, hmem⟩ := under_eq_some hunder
  have hnodup := hapart _ _ hat
  have hremoves := (@removeElem_spec _ compareNS _ _ (hr.lists _ _ hat) t.recipient).1
  have hfind : t.flood.symNeighbors.contents.find? (fun y => compareNS y t.recipient = 0) =
      some t.recipient :=
    hremoves.first.2.symm.trans ((hremoves.own (h t ht) hnodup).2.trans (find?_place hnodup hmem))
  rw [hfind] at hn
  exact (Option.some.inj hn).symm

/-- **Every datum is sent at most five times to a neighbour, after growing
pauses**, in the runs in which the entry that is put back is the recipient's. -/
theorem backsOff_of_run {w₀ w : World} {tr : List (World × Move)} (hinit : w₀.Initial)
    (hrun : Run Move.Does w₀ tr w) (halone : ∀ x ∈ tr, Alone x.1 x.2) : BacksOff tr w := by
  have htracks := tracks_of_run hinit hrun halone
  constructor
  · intro a f hf ent hent
    obtain ⟨htimes, c, -, hschedule⟩ := htracks.entries a f hf ent hent
    rw [htimes]
    exact hschedule.length_le
  · intro x hx t ht n hn
    obtain ⟨tr₁, tr₂, rfl⟩ := List.append_of_mem hx
    obtain ⟨-, hr, hapart⟩ := apart_of_run hinit hrun.split_cons.1
    rw [(halone x hx).taken hr hapart ht hn]
    exact htracks.calls x hx t ht
  · intro a k
    rcases htracks.spaced hinit hrun a k with hnil | ⟨c, -, hspaced⟩
    · rw [hnil]
      exact Nat.zero_le _
    · exact hspaced.length_le
  · intro a k t ht
    rcases htracks.spaced hinit hrun a k with hnil | ⟨c, hbegun, hspaced⟩
    · rw [hnil] at ht
      cases ht
    · exact ⟨c, hbegun, hspaced.first t ht⟩
  · intro a k i s t hs ht
    rcases htracks.spaced hinit hrun a k with hnil | ⟨c, -, hspaced⟩
    · rw [hnil] at hs
      cases hs
    · rw [← least_succ]
      exact hspaced.gap i s t hs ht

/-! ### Three recipients -/

/-- A third peer, behind `other` in `NEIGHBORS`. -/
def third : Sockaddr where
  addr := Vector.replicate 16 3
  port := 5

/-- Three neighbours become symmetrical, and there is a local message. -/
def threeRecipients : List Move :=
  [.tlv 2 (helloValue 7 1) 16 remote, .tlv 2 (helloValue 8 1) 16 other,
    .tlv 2 (helloValue 9 1) 16 third, .say (some [97])]

/-- A pass of the flooding loop, with the cursor on the cells `l` in turn. -/
def passAt (flood : Nat) (currentTime : Int) (l : List Nat) : List Move :=
  l.map (Move.turn flood currentTime)

/-- The message is sent to all of them, and ten seconds later again. -/
theorem backsOff_threeRecipients :
    let moves := threeRecipients ++ passAt 22 20 [15, 17, 19, 24] ++ passAt 22 30 [25, 24, 23, 27]
    BacksOff (actHistory moves (bootAt 0)) (actAll moves (bootAt 0)) := by
  intro moves
  apply backsOff_of_run (initial_boot _) (run_actAll _ _)
  decide +kernel

/-- A long Hello to us arrives. -/
def helloFrom (src : UInt64) (client : Sockaddr) : Wake :=
  ⟨true, some (.datagram (datagram (Tlv.longHello src 1).bytes) client), none⟩

/-- Three neighbours, a local message, and two turns of the main loop more. -/
def threeHeard : List Wake :=
  [helloFrom 7 remote, helloFrom 8 other, helloFrom 9 third, ⟨true, none, some (some [97])⟩,
    idleWake, idleWake]

/-- The clock shows 0 until the entries of two neighbours have been made, 40000 when
that of the third one is, and 105536 in the rest of that turn.  There is no memory
for the entries of the old neighbours in `send_goaway_asymetrical`. -/
def suspended : World :=
  { World.boot (fun k => if k < 19 then 0 else if k < 20 then 40000 else if k < 30 then 105536
      else if k < 33 then 105537 else 105538) with
    mallocs := fun k => decide (k < 29 ∨ 32 ≤ k) }

theorem monotonic_suspended : suspended.Monotonic := by
  intro j k hjk
  show (if j < 19 then 0 else if j < 20 then 40000 else if j < 30 then 105536
      else if j < 33 then 105537 else 105538) ≤
    if k < 19 then 0 else if k < 20 then 40000 else if k < 30 then 105536
      else if k < 33 then 105537 else 105538
  split_ifs <;> omega

/-- In the first pass the second neighbour's entry is taken for the third one's,
whose deadline stays, and it is sent the datum in every pass: the last time a
second after the second time. -/
theorem not_backsOff_of_confused :
    suspended.Initial ∧ suspended.Monotonic ∧
      Run Move.Does suspended (mainHistory threeHeard dueState suspended)
        (after (mainLoop threeHeard dueState) suspended) ∧
      ¬ BacksOff (mainHistory threeHeard dueState suspended)
        (after (mainLoop threeHeard dueState) suspended) := by
  refine ⟨⟨rfl, rfl, rfl, rfl, Nat.one_pos, rfl⟩, monotonic_suspended, run_mainHistory _ _ _,
    fun h => ?_⟩
  let k : NeighborPtr := { sockaddr6ToNeighbor third with msg := some 13, addr := 16 }
  have hsent : transmitted 26 k (mainHistory threeHeard dueState suspended) =
      [105536, 105537, 105538] := by
    decide +kernel
  have hgap := h.gap 26 k 1 105537 105538 (by rw [hsent]; rfl) (by rw [hsent]; rfl)
  exact absurd hgap (by decide)

end FloodPeer
