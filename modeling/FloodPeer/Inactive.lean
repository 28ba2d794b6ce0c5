/-
FloodPeer/Inactive.lean

When a neighbour is declared inactive.

A turn of `flood_message_to_neighbours` calls `handle_inactive` for a recipient
that has been sent the datum five times, whatever its deadline.  It comes too
early when the cursor gets to such a recipient behind those that are due.  In the
runs in which the lists and the clock rule that out before each pass (`Unhurried`),
the fifth transmission is at least 16 seconds ago, and no answer has come.
-/
import FloodPeer.Walk

namespace FloodPeer

open Octets StateLogic Runs Backoff

/-! ### Answers -/

/-- In this move nobody is confused with a neighbour that answers, and the nonce of
a local message is fresh. -/
structure Undisturbed (w : World) (m : Move) : Prop where
  fresh : Fresh w m
  answered : ∀ index peer, m.effect w = .answered index peer → ∀ f ∈ w.floods, f.index = index →
    Spares f.symNeighbors.contents (ngbProbe peer)

instance (w : World) : (m : Move) → Decidable (Fresh w m)
  | .say got => decidable_of_iff ((⟨w.id, drawnNonce w⟩ : DataIndex) ∉ indices w.staying)
      ⟨fun h _ _ => h, fun h => h got rfl⟩
  | .idle | .tlv .. | .hellos | .advertise | .shortHellos | .forget _ | .expire .. | .turn ..
  | .flush => .isTrue nofun

instance (w : World) (m : Move) : Decidable (Undisturbed w m) :=
  have : Decidable (∀ index peer, m.effect w = .answered index peer → ∀ f ∈ w.floods,
      f.index = index → Spares f.symNeighbors.contents (ngbProbe peer)) :=
    match h : m.effect w with
    | .answered index peer =>
      decidable_of_iff (∀ f ∈ w.floods, f.index = index →
          Spares f.symNeighbors.contents (ngbProbe peer))
        ⟨fun hall _ _ heq => by cases heq; exact hall, fun hall => hall index peer rfl⟩
    | .nothing | .gone _ | .resent _ => .isTrue nofun
  decidable_of_iff (Fresh w m ∧ _) ⟨fun h => ⟨h.1, h.2⟩, fun h => ⟨h.fresh, h.answered⟩⟩

/-- Nobody is confused with the recipient under the cursor either.  It is sent the
whole datum, and when it has been sent it five times, it is due. -/
structure Patient (w : World) (m : Move) : Prop extends Undisturbed w m where
  alone : Alone w m
  whole : ∀ t, m.effect w = .resent t → (t.flood.data.getD 1 0).toNat < 254
  late : ∀ flood currentTime tmp, m = .turn flood currentTime tmp → ∀ f nw,
    w.under flood tmp = some (f, nw) → nw.timesSent = 5 → nw.waitTime ≤ currentTime

/-- Who answers is no recipient any more. -/
theorem not_waiting_of_answers {m : Move} {w w' : World} (h : m.Does w w') (hw : w.Sound)
    (hr : w.Register) (hapart : w.Apart) (hdistinct : (indices w.dataf.contents).Nodup)
    (hpatient : Patient w m) {a : Nat} {f f' : FloodEntry} (hf : w.floodAt a = some f)
    (hf' : w'.floodAt a = some f') {k : NeighborPtr} (hanswers : Answers w m f.index k) :
    k ∉ f'.waiting := by
  obtain ⟨peer, heffect, hplace⟩ := hanswers
  obtain ⟨-, hfiles⟩ := h.files hw hr
  cases hgiven : m.given w with
  | some v =>
    apply absurd _ (not_drops_of_given hgiven hr.linked hf k)
    rw [heffect]
    exact ⟨rfl, hplace⟩
  | none =>
    rw [hgiven] at hfiles
    cases hfiles with
    | nothing hother => cases heffect.symm.trans hother
    | gone _ hother => cases heffect.symm.trans hother
    | resent _ _ hother => cases heffect.symm.trans hother
    | answered index peer' hsame hdataf =>
      obtain ⟨rfl, rfl⟩ := Effect.answered.inj (heffect.symm.trans hsame)
      rw [floodAt_of_relist hdataf, hf] at hf'
      obtain rfl := Option.some.inj hf'
      have hspares := hpatient.answered _ peer heffect f (mem_floods hr.linked hf) rfl
      have hleft := contents_withoutPeer (hr.lists a f hf) hspares (hapart a f hf)
      intro hk
      unfold FloodEntry.waiting at hk
      dsimp only at hk
      rw [if_pos (foundAt_of_distinct hdistinct hr.linked hf), hleft, waiting_filter] at hk
      exact of_decide_eq_true (List.mem_filter.mp hk).2 hplace

/-- Nobody comes into a list of recipients. -/
theorem Shifts.waiting {m : Move} {w : World} {a : Nat} {f f' : FloodEntry}
    (h : Shifts m w a f f'.symNeighbors.contents) {k : NeighborPtr} (hk : k ∈ f'.waiting) :
    k ∈ f.waiting := by
  obtain ⟨x, hx, rfl⟩ := List.mem_map.mp hk
  cases h with
  | fewer _ hsub => exact List.mem_map_of_mem (hsub.subset hx)
  | resent t _ _ _ n rest hperm _ hback =>
    rcases hback x hx with hrest | rfl
    · exact List.mem_map_of_mem (hperm.mem_iff.mpr (List.mem_cons_of_mem _ hrest))
    · exact List.mem_map.mpr ⟨n, hperm.mem_iff.mpr List.mem_cons_self, rfl⟩

/-- None of the recipients has answered. -/
structure Silent (tr : List (World × Move)) (w : World) : Prop where
  cells : ∀ y ∈ tr, ∀ a, (y.1.floodAt a).isSome → a < w.next
  unanswered : ∀ a f, w.floodAt a = some f → ∀ k ∈ f.waiting, ∀ y ∈ tr,
    (y.1.floodAt a).isSome → ¬ Answers y.1 y.2 f.index k

/-- **One move.** -/
theorem Silent.step {tr : List (World × Move)} {w w' : World} {m : Move} (h : Silent tr w)
    (hmove : m.Does w w') (hw : w.Sound) (hr : w.Register) (hapart : w.Apart)
    (hdistinct : (indices w.dataf.contents).Nodup) (hpatient : Patient w m) :
    Silent (tr ++ [(w, m)]) w' where
  cells := by
    intro y hy a ha
    have hnext := hmove.elapsed.next
    rcases List.mem_append.mp hy with hy | hy
    · exact lt_of_lt_of_le (h.cells y hy a ha) hnext
    · obtain rfl := List.mem_singleton.mp hy
      obtain ⟨f, hf⟩ := Option.isSome_iff_exists.mp ha
      exact lt_of_lt_of_le (floodAt_lt hr hf) hnext
  unanswered := by
    intro a f' hf' k hk y hy ha
    rcases hmove.shifts hw hr hapart hf' with ⟨f, hf, hindex, hshifts⟩ | ⟨hlo, -⟩
    · rw [hindex]
      rcases List.mem_append.mp hy with hy | hy
      · exact h.unanswered a f hf k (hshifts.waiting hk) y hy ha
      · obtain rfl := List.mem_singleton.mp hy
        intro hanswers
        exact not_waiting_of_answers hmove hw hr hapart hdistinct hpatient hf hf' hanswers hk
    · -- the entry is new, and its cell was not in use before
      exfalso
      rcases List.mem_append.mp hy with hy | hy
      · exact absurd (h.cells y hy a ha) (not_lt.mpr hlo)
      · obtain rfl := List.mem_singleton.mp hy
        obtain ⟨f, hf⟩ := Option.isSome_iff_exists.mp ha
        exact absurd (floodAt_lt hr hf) (not_lt.mpr hlo)

theorem silent_nil (w : World) : Silent [] w where
  cells := fun _ hy => nomatch hy
  unanswered := fun _ _ _ _ _ _ hy => nomatch hy

theorem silent_of_run {w₀ w : World} {tr : List (World × Move)} (hinit : w₀.Initial)
    (hrun : Run Move.Does w₀ tr w) (hpatient : ∀ x ∈ tr, Patient x.1 x.2) :
    Silent tr w ∧ (indices w.dataf.contents).Nodup := by
  induction hrun with
  | nil =>
    refine ⟨silent_nil _, ?_⟩
    rw [hinit.dataf]
    exact List.nodup_nil
  | @snoc tr v w m hrun hmove ih =>
    obtain ⟨hv, hr, hapart⟩ := apart_of_run hinit hrun
    obtain ⟨hsilent, hdistinct⟩ := ih fun x hx => hpatient x (List.mem_append_left _ hx)
    have hlast := hpatient (v, m) (List.mem_append_right _ List.mem_cons_self)
    exact ⟨hsilent.step hmove hv hr hapart hdistinct hlast,
      hmove.distinct hv hr hlast.fresh hdistinct⟩

/-! ### Transmissions -/

/-- The datum is given to everybody to whom the turn means to send it. -/
theorem transmittedBy_of_resent {w : World} {m : Move} (hw : w.Sound) (hr : w.Register)
    (hwhole : w.Whole) {t : Transmission} (ht : m.effect w = .resent t)
    (hsize : (t.flood.data.getD 1 0).toNat < 254) :
    transmittedBy t.cell t.recipient.sym w m = some t.time ∧
      Relays t.recipient.sym t.flood.data w (m.act w) := by
  have hmove := Move.does_act m w
  obtain ⟨tmp, hturn, hunder, -, -, -, hsend⟩ := effect_resent ht
  have hchar := toChar_eq (t.flood.data.getD 1 0)
  unfold FloodEntry.Sendable at hsend
  -- a length byte that is read as `-2` or `-1` is excluded
  have hn : toChar (t.flood.data.getD 1 0) + 2 = (t.flood.data.length : Nat) := by
    obtain ⟨size, v, hdata, hlength⟩ := hwhole _ _ (under_eq_some hunder).1
    have hbyte : t.flood.data.getD 1 0 = size := by rw [hdata]; rfl
    rw [hbyte] at hsize hchar hsend ⊢
    rw [hdata, List.length_cons, List.length_cons, hlength]
    split at hchar <;> omega
  have hissues := issues_of_resent hw hr hwhole hmove ht (by omega)
  refine ⟨?_, ?_⟩
  · subst hturn
    exact if_pos ⟨rfl, hissues⟩
  · have hrelays := relays_of_resent hw hwhole hmove ht hn
    rwa [List.take_length] at hrelays

section Transmissions

variable {w₀ w : World} {tr : List (World × Move)}

/-- Every attempt to send a datum is a transmission of all of it. -/
theorem transmitted_eq (hinit : w₀.Initial) (hrun : Run Move.Does w₀ tr w)
    (hpatient : ∀ x ∈ tr, Patient x.1 x.2) (a : Nat) (k : NeighborPtr) :
    transmitted a k tr = (attempted a k tr).map Prod.fst := by
  induction hrun with
  | nil => rfl
  | @snoc tr v w m hrun hmove ih =>
    obtain ⟨hv, hr, hwhole⟩ := whole_of_run hinit hrun
    have hlast := hpatient (v, m) (List.mem_append_right _ List.mem_cons_self)
    rw [transmitted_snoc, attempted_snoc, List.map_append,
      ih fun x hx => hpatient x (List.mem_append_left _ hx)]
    congr 1
    cases hsent : attemptedBy a k v m with
    | none =>
      cases hsent' : transmittedBy a k v m with
      | none => rfl
      | some c =>
        obtain ⟨due, hdue⟩ := attempted_of_transmittedBy hv hwhole hsent'
        cases hsent.symm.trans hdue
    | some x =>
      obtain ⟨t, ht, rfl, rfl⟩ := attemptedBy_eq_some hsent
      rw [attemptedBy_resent ht] at hsent
      rw [(transmittedBy_of_resent hv hr hwhole ht (hlast.whole t ht)).1, ← Option.some.inj hsent]
      rfl

/-- The move of the last attempt. -/
theorem exists_last_attempt {a : Nat} {k : NeighborPtr} {p : Int × Int}
    (h : (attempted a k tr).getLast? = some p) :
    ∃ l₁ x l₂, tr = l₁ ++ x :: l₂ ∧ attemptedBy a k x.1 x.2 = some p ∧ attempted a k l₂ = [] := by
  induction tr using List.reverseRecOn with
  | nil => cases h
  | append_singleton tr x ih =>
    rw [attempted_snoc] at h
    cases hx : attemptedBy a k x.1 x.2 with
    | none =>
      rw [hx, Option.toList_none, List.append_nil] at h
      obtain ⟨l₁, y, l₂, rfl, hy, hl₂⟩ := ih h
      refine ⟨l₁, y, l₂ ++ [x], by rw [List.append_assoc]; rfl, hy, ?_⟩
      rw [attempted_snoc, hl₂, hx]
      rfl
    | some q =>
      rw [hx, Option.toList_some, List.getLast?_concat] at h
      exact ⟨tr, x, [], rfl, hx.trans h, rfl⟩

/-- Nobody comes into the lists that are there. -/
theorem waiting_before {v : World} (hrun : Run Move.Does v tr w) (hv : v.Sound)
    (hr : v.Register) (hapart : v.Apart) :
    (w.Sound ∧ w.Register ∧ w.Apart) ∧ v.next ≤ w.next ∧
      ∀ a < v.next, ∀ f', w.floodAt a = some f' →
        ∃ f, v.floodAt a = some f ∧ ∀ k ∈ f'.waiting, k ∈ f.waiting := by
  induction hrun with
  | nil => exact ⟨⟨hv, hr, hapart⟩, le_refl _, fun a _ f hf => ⟨f, hf, fun _ hk => hk⟩⟩
  | @snoc tr w w' m hrun hmove ih =>
    obtain ⟨⟨hw, hr', hapart'⟩, hnext, hlists⟩ := ih
    refine ⟨⟨hmove.sound hw, (hmove.files hw hr').1, hmove.apart hw hr' hapart'⟩,
      le_trans hnext hmove.elapsed.next, fun a ha f' hf' => ?_⟩
    rcases hmove.shifts hw hr' hapart' hf' with ⟨f, hf, -, hshifts⟩ | ⟨hlo, -⟩
    · obtain ⟨f₀, hf₀, hsub⟩ := hlists a ha f hf
      exact ⟨f₀, hf₀, fun k hk => hsub k (hshifts.waiting hk)⟩
    · exact absurd (lt_of_lt_of_le ha hnext) (not_lt.mpr hlo)

end Transmissions

/-! ### Giving up -/

/-- The last transmission of the entry in the cell `a` to the neighbour `k` was at the
time `c`, and set the deadline `due`. -/
def LastSent (a : Nat) (k : NeighborPtr) (tr : List (World × Move)) (c due : Int) : Prop :=
  ∃ l₁ x l₂, tr = l₁ ++ x :: l₂ ∧ transmittedBy a k x.1 x.2 = some c ∧
    transmitted a k l₂ = [] ∧ ∃ f ∈ (x.2.act x.1).floodAt a, ∃ ent ∈ f.symNeighbors.contents,
      ent.sym = k ∧ ent.waitTime = due

/-- In the history `tr`, the flooding loop takes out of `NEIGHBORS` only neighbours
that have been sent the datum five times, that have not answered, and whose last
deadline, 16 seconds or more after the fifth transmission, has passed. -/
def GivesUpLate (tr : List (World × Move)) : Prop :=
  ∀ tr₁ w flood currentTime tmp tr₂, tr = tr₁ ++ (w, .turn flood currentTime tmp) :: tr₂ →
    ∀ k, Unlists w (.turn flood currentTime tmp) k →
      (transmitted flood k tr₁).length = 5 ∧
      (∀ x ∈ tr₁, transmittedBy flood k x.1 x.2 ≠ none →
        ∀ f ∈ x.1.floodAt flood, Relays k f.data x.1 (x.2.act x.1)) ∧
      (∃ c due, LastSent flood k tr₁ c due ∧ c + 16 ≤ due ∧ due ≤ currentTime) ∧
      ∀ f ∈ w.floodAt flood, ∀ x ∈ tr₁, (x.1.floodAt flood).isSome → ¬ Answers x.1 x.2 f.index k

section GivingUp

variable {w₀ w : World} {tr : List (World × Move)}

/-- A neighbour that a turn removes is the recipient under the cursor, and it has been
sent the datum five times. -/
theorem under_of_unlists (hw : w.Sound) (hr : w.Register) {flood tmp : Nat} {currentTime : Int}
    {k : NeighborPtr} (h : Unlists w (.turn flood currentTime tmp) k) :
    ∃ f nw, w.under flood tmp = some (f, nw) ∧ nw.sym = k ∧ nw.timesSent = 5 := by
  obtain ⟨hown, hgone⟩ := h
  rcases (Move.does_act (.turn flood currentTime tmp) w).owns hw hr hown with
    hstill | ⟨peer, heffect, hplace⟩
  · exact absurd hstill hgone
  cases hunder : w.under flood tmp with
  | none =>
    simp only [Move.effect, hunder] at heffect
    cases heffect
  | some p =>
    obtain ⟨f, nw⟩ := p
    rw [effect_turn hunder] at heffect
    split_ifs at heffect with hnot hfive
    obtain rfl := Effect.gone.inj heffect
    refine ⟨f, nw, rfl, ?_, hfive⟩
    -- two neighbours do not have one place
    obtain ⟨e, he, rfl⟩ := List.mem_map.mp hown
    obtain ⟨e', he', heq⟩ := List.mem_map.mp hnot
    rw [← heq] at hplace ⊢
    rw [hw.neighbors.eq_of_key_eq he he' hplace]

/-- The deadline of a recipient has been set by the last transmission. -/
theorem lastSent_of_tracks (hinit : w₀.Initial) (hrun : Run Move.Does w₀ tr w)
    (hpatient : ∀ x ∈ tr, Patient x.1 x.2) {a : Nat} {f : FloodEntry} (hf : w.floodAt a = some f)
    {nw : NgbEntry} (hmem : nw ∈ f.symNeighbors.contents) {p : Int × Int}
    (hp : (attempted a nw.sym tr).getLast? = some p) : LastSent a nw.sym tr p.1 p.2 := by
  obtain ⟨l₁, ⟨v, m⟩, l₂, rfl, hattempt, hnone⟩ := exists_last_attempt hp
  obtain ⟨hrun₁, v', hmove, hrun₂⟩ := hrun.split_cons
  have hbefore : ∀ x ∈ l₁ ++ [(v, m)], Patient x.1 x.2 := by
    intro x hx
    apply hpatient
    rw [List.append_cons]
    exact List.mem_append_left _ hx
  have hrun' : Run Move.Does w₀ (l₁ ++ [(v, m)]) v' := hrun₁.snoc hmove
  obtain ⟨hv, hr, hwhole⟩ := whole_of_run hinit hrun₁
  obtain ⟨t, ht, rfl, hsym⟩ := attemptedBy_eq_some hattempt
  obtain ⟨tmp, hturn, hunder, -⟩ := effect_resent ht
  have hlast := hpatient (v, m) (List.mem_append_right _ List.mem_cons_self)
  have htime : t.time = p.1 := by
    rw [← hsym, attemptedBy_resent ht] at hattempt
    rw [← Option.some.inj hattempt]
  have hsent := (transmittedBy_of_resent hv hr hwhole ht (hlast.whole t ht)).1
  -- the recipient is in the list right after that move, with this deadline
  obtain ⟨hv', hr', hapart'⟩ := apart_of_run hinit hrun'
  have hcell := lt_of_lt_of_le (floodAt_lt hr (under_eq_some hunder).1) hmove.elapsed.next
  obtain ⟨-, -, hlists⟩ := waiting_before hrun₂ hv' hr' hapart'
  obtain ⟨f', hf', hsub⟩ := hlists t.cell hcell f hf
  obtain ⟨ent, hent, hentsym⟩ := List.mem_map.mp (hsub nw.sym (List.mem_map_of_mem hmem))
  have htracks := tracks_of_run hinit hrun' fun x hx => (hbefore x hx).alone
  obtain ⟨-, c, -, hschedule⟩ := htracks.entries _ f' hf' ent hent
  rw [hentsym, attempted_snoc, hattempt, Option.toList_some] at hschedule
  have hact : v' = m.act v := hmove.eq_act (by rw [hturn]; nofun)
  refine ⟨l₁, (v, m), l₂, rfl, ?_, ?_, f', hact ▸ hf', ent, hent, hentsym,
    hschedule.due_eq List.getLast?_concat⟩
  · rw [← hsym, hsent, htime]
  · -- all the transmissions are attempts, and there has been none since
    have hall := transmitted_eq hinit hrun hpatient t.cell nw.sym
    have hfirst := transmitted_eq hinit hrun' hbefore t.cell nw.sym
    rw [List.append_cons, transmitted_append, attempted_append, List.map_append, hfirst] at hall
    rw [List.append_cancel_left hall, hnone]
    rfl

/-- In the runs of patient moves. -/
theorem givesUpLate_of_patient (hinit : w₀.Initial) (hrun : Run Move.Does w₀ tr w)
    (hpatient : ∀ x ∈ tr, Patient x.1 x.2) : GivesUpLate tr := by
  intro tr₁ v flood currentTime tmp tr₂ htr k hunlists
  subst htr
  have hbefore : ∀ x ∈ tr₁, Patient x.1 x.2 := fun x hx => hpatient x (List.mem_append_left _ hx)
  have hlast := hpatient _ (List.mem_append_right _ List.mem_cons_self)
  have hrun₁ := hrun.split_cons.1
  obtain ⟨hv, hr, hwhole⟩ := whole_of_run hinit hrun₁
  obtain ⟨f, nw, hunder, rfl, hfive⟩ := under_of_unlists hv hr hunlists
  have htracks := tracks_of_run hinit hrun₁ fun x hx => (hbefore x hx).alone
  have hsilent := (silent_of_run hinit hrun₁ hbefore).1
  obtain ⟨hat, hmem⟩ := under_eq_some hunder
  obtain ⟨htimes, c, -, hschedule⟩ := htracks.entries flood f hat nw hmem
  have hlength : (attempted flood nw.sym tr₁).length = 5 := htimes.symm.trans hfive
  have heq := transmitted_eq hinit hrun₁ hbefore flood nw.sym
  obtain ⟨p, hp⟩ : ∃ p, (attempted flood nw.sym tr₁).getLast? = some p := by
    rw [← Option.isSome_iff_exists, List.getLast?_isSome]
    intro hnil
    rw [hnil] at hlength
    cases hlength
  -- the fifth pause is the one before the deadline
  have hpause := hschedule.pause hp
  rw [hlength, hschedule.due_eq hp] at hpause
  refine ⟨by rw [heq, List.length_map, hlength], ?_, ⟨p.1, p.2, ?_, hpause, ?_⟩, ?_⟩
  · intro x hx hsent f' hf'
    obtain ⟨l₁, l₂, rfl⟩ := List.append_of_mem hx
    obtain ⟨hx₁, hx₂, hx₃⟩ := whole_of_run hinit hrun₁.split_cons.1
    obtain ⟨c', hc'⟩ := Option.ne_none_iff_exists'.mp hsent
    obtain ⟨due, hdue⟩ := attempted_of_transmittedBy hx₁ hx₃ hc'
    obtain ⟨t, ht, rfl, hsym⟩ := attemptedBy_eq_some hdue
    obtain ⟨tmp', -, hunder', -⟩ := effect_resent ht
    obtain rfl := Option.some.inj ((under_eq_some hunder').1.symm.trans hf')
    rw [← hsym]
    exact (transmittedBy_of_resent hx₁ hx₂ hx₃ ht ((hbefore x hx).whole t ht)).2
  · exact lastSent_of_tracks hinit hrun₁ hbefore hat hmem hp
  · rw [← hschedule.due_eq hp]
    exact hlast.late flood currentTime tmp rfl f nw hunder hfive
  · intro f' hf' x hx
    obtain rfl := Option.some.inj (hat.symm.trans hf')
    exact hsilent.unanswered flood f hat nw.sym (List.mem_map_of_mem hmem) x hx

end GivingUp

/-! ### A pass -/

section Pass

variable {w : World} {flood : Nat} {now : Int} {f : FloodEntry}

theorem patient_of_turn {tmp : Nat} (halone : Alone w (.turn flood now tmp))
    (hunder : ∀ f nw, w.under flood tmp = some (f, nw) →
      (f.data.getD 1 0).toNat < 254 ∧ (nw.timesSent = 5 → nw.waitTime ≤ now)) :
    Patient w (.turn flood now tmp) where
  fresh := fun _ hsay => nomatch hsay
  answered := fun index peer h => nomatch source_of_answered h
  alone := halone
  whole := by
    intro t ht
    obtain ⟨tmp', hmove, hunder', -⟩ := effect_resent ht
    obtain ⟨rfl, rfl, rfl⟩ := Move.turn.inj hmove
    exact (hunder _ _ hunder').1
  late := by
    intro flood' now' tmp' hmove f nw hunder'
    obtain ⟨rfl, rfl, rfl⟩ := Move.turn.inj hmove
    exact (hunder f nw hunder').2

theorem patient_idle (w : World) : Patient w .idle where
  fresh := fun _ hsay => nomatch hsay
  answered := fun _ _ h => nomatch h
  alone := fun _ h => nomatch h
  whole := fun _ h => nomatch h
  late := fun _ _ _ hmove => nomatch hmove

theorem history_of_stop {tmp fuel : Nat} (h : value (floodTurn flood now tmp) w = .stop) :
    (loopChronicle flood now (fuel + 1) (some tmp)).history w = [(w, .turn flood now tmp)] := by
  rw [loopChronicle, Chronicle.bind]
  dsimp only
  generalize value (floodTurn flood now tmp) w = turn at h ⊢
  subst h
  rfl

theorem history_of_goto {tmp fuel : Nat} {next : Option Nat}
    (h : value (floodTurn flood now tmp) w = .goto next) :
    (loopChronicle flood now (fuel + 1) (some tmp)).history w = (w, .turn flood now tmp) ::
      (loopChronicle flood now fuel next).history (after (floodTurn flood now tmp) w) := by
  rw [loopChronicle, Chronicle.bind]
  dsimp only
  generalize value (floodTurn flood now tmp) w = turn at h ⊢
  subst h
  rfl

/-- Behind the recipients that are due the pass stops. -/
theorem Arrived.patient {cursor : Option Nat} (h : Arrived w flood now cursor) (fuel : Nat) :
    ∀ x ∈ (loopChronicle flood now fuel cursor).history w, Patient x.1 x.2 := by
  cases cursor with
  | none =>
    intro x hx
    cases fuel <;> cases hx
  | some tmp =>
    cases fuel with
    | zero =>
      intro x hx
      obtain rfl := List.mem_singleton.mp hx
      exact patient_idle w
    | succ fuel =>
      obtain ⟨f, nw, hunder, hfive, hearly⟩ := h tmp rfl
      have hstop : value (floodTurn flood now tmp) w = .stop := by
        rw [value_floodTurn hunder, if_neg hfive, if_neg (not_le.mpr hearly)]
      rw [history_of_stop hstop]
      intro x hx
      obtain rfl := List.mem_singleton.mp hx
      have heffect : (Move.turn flood now tmp).effect w = .nothing := by
        have hnot : ¬ (nw.waitTime ≤ now ∧ f.Sendable) := fun hdue => not_le.mpr hearly hdue.1
        rw [effect_turn hunder, if_neg hfive, if_neg hnot, ite_self]
      have hsame : ∀ f' nw', w.under flood tmp = some (f', nw') → nw' = nw := fun f' nw' hunder' =>
        (Prod.mk.inj (Option.some.inj (hunder'.symm.trans hunder))).2
      exact
        { fresh := fun _ hsay => nomatch hsay
          answered := fun index peer h => nomatch source_of_answered h
          alone := fun t ht => by cases heffect.symm.trans ht
          whole := fun t ht => by cases heffect.symm.trans ht
          late := by
            intro flood' now' tmp' hmove f' nw' hunder' hfive'
            obtain ⟨rfl, rfl, rfl⟩ := Move.turn.inj hmove
            exact absurd (hsame f' nw' hunder' ▸ hfive') hfive }

/-- **The loop** meets nobody too early.  The induction is on the recipients that are
still due. -/
theorem Walking.patient {due rest : List (ListEntry NgbEntry)}
    (h : Walking w flood now f due rest) (hwhole : (f.data.getD 1 0).toNat < 254) (fuel : Nat) :
    ∀ x ∈ (loopChronicle flood now fuel ((due ++ rest).head?.map (·.addr))).history w,
      Patient x.1 x.2 := by
  induction due generalizing w f rest fuel with
  | nil => exact h.arrived.patient fuel
  | cons e due ih =>
    cases fuel with
    | zero =>
      intro x hx
      obtain rfl := List.mem_singleton.mp hx
      exact patient_idle w
    | succ fuel =>
      have hturn : Patient w (.turn flood now e.addr) := by
        refine patient_of_turn (alone_first h.entry h.linked h.entries) fun f' nw hunder => ?_
        obtain ⟨rfl, rfl⟩ := Prod.mk.inj <| Option.some.inj <|
          hunder.symm.trans h.under
        exact ⟨hwhole, fun _ => h.past e List.mem_cons_self⟩
      have hgoto : ∀ next, value (floodTurn flood now e.addr) w = .goto next →
          (∀ x ∈ (loopChronicle flood now fuel next).history
            (after (floodTurn flood now e.addr) w), Patient x.1 x.2) →
          ∀ x ∈ (loopChronicle flood now (fuel + 1) (some e.addr)).history w, Patient x.1 x.2 := by
        intro next hvalue hrest x hx
        rw [history_of_goto hvalue] at hx
        rcases List.mem_cons.mp hx with rfl | hx
        · exact hturn
        · exact hrest x hx
      by_cases hfive : e.content.timesSent = 5
      · obtain ⟨hvalue, -, hnext⟩ := h.inactive hfive
        exact hgoto _ hvalue (ih hnext hwhole fuel)
      rcases h.sent hfive with ⟨hstop, -⟩ |
        ⟨hvalue, l', found, rc, rest', hdataf, hl', hinserts, -, hnext⟩
      · intro x hx
        rw [List.cons_append, List.head?_cons, Option.map_some, history_of_stop hstop] at hx
        obtain rfl := List.mem_singleton.mp hx
        exact hturn
      · refine hgoto _ hvalue ?_
        by_cases hdue : due = []
        · -- that was the last one
          subst hdue
          have hmove := Move.does_act (.turn flood now e.addr) w
          have hentry : (after (floodTurn flood now e.addr) w).floodAt flood =
              some { f with symNeighbors := l' } := by
            rw [floodAt_of_relist hdataf, h.entry]
            simp
          have hlinked := (hmove.files h.sound h.register).1.lists flood _ hentry
          refine Arrived.patient (h.arrived_after hlinked hentry fun x hx => ?_) fuel
          rw [hl']
          exact hinserts.mem.mpr (.inl hx)
        · obtain ⟨y, due, rfl⟩ := List.exists_cons_of_ne_nil hdue
          exact ih (hnext hdue) hwhole fuel

/-- What is known of the lists and the clock before a pass over the entry `f`. -/
structure World.Prepared (w : World) (now : Int) (f : FloodEntry) : Prop where
  owned : ∀ k ∈ f.waiting, w.neighbors.owns k
  whole : (f.data.getD 1 0).toNat < 254
  unhurried : Unhurried now (ripe now f.symNeighbors.contents)
    (unripe now f.symNeighbors.contents).head?

theorem history_of_null (hf : w.floodAt flood = none) : (passChronicle flood).history w =
    [(w, .idle), (after getSeconds w, .idle)] := by
  have hf' : (after getSeconds w).floodAt flood = none := hf
  unfold passChronicle Chronicle.bind
  dsimp only
  rw [value_get]
  generalize (after getSeconds w).floodAt flood = entry at hf' ⊢
  subst hf'
  rfl

theorem history_of_entry (hf : w.floodAt flood = some f) : (passChronicle flood).history w =
    (w, .idle) :: (loopChronicle flood w.clock.head (2 * f.symNeighbors.entries.length + 1)
      f.symNeighbors.first).history (after getSeconds w) := by
  have hf' : (after getSeconds w).floodAt flood = some f := hf
  unfold passChronicle Chronicle.bind
  dsimp only
  rw [value_get]
  generalize (after getSeconds w).floodAt flood = entry at hf' ⊢
  subst hf'
  rfl

/-- **A pass** meets nobody too early. -/
theorem patient_pass (hw : w.Sound) (hr : w.Register) (hapart : w.Apart)
    (hdistinct : (indices w.dataf.contents).Nodup)
    (hfew : ∀ a f, w.floodAt a = some f → ∀ x ∈ f.symNeighbors.contents, x.timesSent ≤ 5)
    (hprepared : ∀ f ∈ w.floodAt flood, w.Prepared w.clock.head f) :
    ∀ x ∈ (passChronicle flood).history w, Patient x.1 x.2 := by
  have hmove : Move.Does .idle w (after getSeconds w) := (primitive_still.onGetSeconds w).toIdle
  intro x hx
  cases hf : w.floodAt flood with
  | none =>
    rw [history_of_null hf] at hx
    rcases List.mem_cons.mp hx with rfl | hx
    · exact patient_idle _
    · obtain rfl := List.mem_singleton.mp hx
      exact patient_idle _
  | some f =>
    have hprepared := hprepared f hf
    obtain ⟨due, rest, hwalking, -, -, hfirst⟩ :=
      walking_start (w := after getSeconds w) (hmove.sound hw) (hmove.files hw hr).1
        (hmove.apart hw hr hapart) hf hprepared.owned (hfew flood f hf) (fun _ => hdistinct)
        hprepared.unhurried
    rw [history_of_entry hf, hfirst] at hx
    rcases List.mem_cons.mp hx with rfl | hx
    · exact patient_idle _
    · exact hwalking.patient hprepared.whole _ x hx

end Pass

/-! ### Runs -/

/-- What is known of the lists and the clock before the phase. -/
def Phase.Prepared (w : World) : Phase → Prop
  | .move m => Undisturbed w m
  | .pass flood => ∀ f ∈ w.floodAt flood, w.Prepared w.clock.head f

theorem Undisturbed.patient {w : World} {m : Move} (h : Undisturbed w m)
    (hturn : m.isTurn = false) : Patient w m where
  toUndisturbed := h
  alone := fun t ht => by
    obtain ⟨tmp, rfl, -⟩ := effect_resent ht
    cases hturn
  whole := fun t ht => by
    obtain ⟨tmp, rfl, -⟩ := effect_resent ht
    cases hturn
  late := fun flood now tmp hmove => by
    subst hmove
    cases hturn

section Runs

variable {w₀ w : World} {tr : List (World × Phase)}

/-- Each phase is prepared by the ones before. -/
theorem patient_of_prepared (hinit : w₀.Initial) (hrun : Run Phase.Does w₀ tr w)
    (hprepared : ∀ x ∈ tr, x.2.Prepared x.1) :
    ∀ y ∈ tr.flatMap Phase.moves, Patient y.1 y.2 := by
  induction hrun with
  | nil => exact fun _ hy => nomatch hy
  | @snoc tr v w x hrun hphase ih =>
    have hbefore := ih fun x hx => hprepared x (List.mem_append_left _ hx)
    have hlast := hprepared (v, x) (List.mem_append_right _ List.mem_cons_self)
    have hmoves := run_moves hrun
    obtain ⟨hv, hr, hapart⟩ := apart_of_run hinit hmoves
    intro y hy
    rw [List.flatMap_append, List.flatMap_singleton] at hy
    rcases List.mem_append.mp hy with hy | hy
    · exact hbefore y hy
    cases x with
    | move m =>
      obtain rfl := List.mem_singleton.mp hy
      exact Undisturbed.patient hlast hphase.2
    | pass flood =>
      -- nobody has been sent anything more than five times so far
      have htracks := tracks_of_run hinit hmoves fun y hy => (hbefore y hy).alone
      have hfew : ∀ a f, v.floodAt a = some f → ∀ x ∈ f.symNeighbors.contents,
          x.timesSent ≤ 5 := by
        intro a f hf x hx
        obtain ⟨htimes, c, -, hschedule⟩ := htracks.entries a f hf x hx
        rw [htimes]
        exact hschedule.length_le
      exact patient_pass hv hr hapart (silent_of_run hinit hmoves hbefore).2 hfew hlast y hy

/-- **A neighbour is declared inactive after its last deadline**, in the runs in
which every pass is over before it comes to a recipient of five transmissions that is not
due. -/
theorem givesUpLate_of_run (hinit : w₀.Initial) (hrun : Run Phase.Does w₀ tr w)
    (hprepared : ∀ x ∈ tr, x.2.Prepared x.1) : GivesUpLate (tr.flatMap Phase.moves) :=
  givesUpLate_of_patient hinit (run_moves hrun) (patient_of_prepared hinit hrun hprepared)

end Runs

/-! ### Two recipients -/

instance (w : World) (now : Int) (f : FloodEntry) : Decidable (w.Prepared now f) :=
  decidable_of_iff (_ ∧ _ ∧ _)
    ⟨fun h => ⟨h.1, h.2.1, h.2.2⟩, fun h => ⟨h.owned, h.whole, h.unhurried⟩⟩

instance (w : World) : (x : Phase) → Decidable (x.Prepared w)
  | .move m => inferInstanceAs (Decidable (Undisturbed w m))
  | .pass flood => inferInstanceAs (Decidable (∀ f ∈ w.floodAt flood, _))

instance (w : World) (m : Move) (k : NeighborPtr) : Decidable (Unlists w m k) := by
  unfold Unlists; infer_instance

/-- The turn of the flooding loop that the move is. -/
def Move.asTurn : Move → Option (Nat × Int × Nat)
  | .turn flood currentTime tmp => some (flood, currentTime, tmp)
  | _ => none

theorem eq_of_asTurn {m : Move} {flood tmp : Nat} {currentTime : Int}
    (h : m.asTurn = some (flood, currentTime, tmp)) : m = .turn flood currentTime tmp := by
  cases m with
  | turn =>
    cases h
    rfl
  | _ => cases h

/-- The two neighbours and the message. -/
def twoHeard : List Wake :=
  [helloFrom 7 remote, helloFrom 8 other, ⟨true, none, some (some [97])⟩]

/-- The second neighbour acknowledges the message; the first one is sent it five times
and is given up 16 seconds after that. -/
def untilGivenUp : List Wake :=
  twoHeard ++ [idleWake, idleWake,
    ⟨true, some (.datagram (datagram (Tlv.ack 1 0).bytes) other), none⟩] ++
    [idleWake, idleWake, idleWake, idleWake]

/-- A peer that hears of the message when the clock shows 0.  The next turns of the main
loop are at the times `l`. -/
def ticking (l : List Nat) : World :=
  World.boot fun k => if k < 17 then 0 else l.getD ((k - 17) / 3) 32

theorem givesUpLate_untilGivenUp :
    GivesUpLate (mainHistory untilGivenUp dueState (ticking [1, 2, 3, 4, 8, 16])) :=
  givesUpLate_of_run (initial_boot _) (run_mainPhases _ _ _) (by decide +kernel)

/-- Without the answer the cursor comes to the first recipient again in the pass of
its fifth transmission. -/
theorem not_givesUpLate_of_samePass :
    let wakes := twoHeard ++ [idleWake, idleWake, idleWake, idleWake, idleWake]
    let w := ticking [1, 2, 4, 8, 16]
    w.Initial ∧ Run Move.Does w (mainHistory wakes dueState w) (after (mainLoop wakes dueState) w) ∧
      ¬ GivesUpLate (mainHistory wakes dueState w) := by
  intro wakes w
  refine ⟨initial_boot _, run_mainHistory _ _ _, fun h => ?_⟩
  let first : NeighborPtr := { sockaddr6ToNeighbor remote with msg := some 1, addr := 4 }
  have hturn : ((mainHistory wakes dueState w)[87]?.map fun x =>
      (x.2.asTurn, decide (Unlists x.1 x.2 first))) = some (some (20, 16, 29), true) := by
    decide +kernel
  have hsent : transmitted 20 first ((mainHistory wakes dueState w).take 87) =
      [1, 2, 4, 8, 16] := by
    decide +kernel
  generalize mainHistory _ _ _ = tr at h hturn hsent
  obtain ⟨⟨v, m⟩, hv, hm⟩ := Option.map_eq_some_iff.mp hturn
  obtain ⟨hm, hgone⟩ := Prod.mk.inj hm
  obtain rfl : m = _ := eq_of_asTurn hm
  obtain ⟨hlt, hget⟩ := List.getElem?_eq_some_iff.mp hv
  have hcut : tr = tr.take 87 ++ (v, .turn 20 16 29) :: tr.drop 88 := by
    rw [← hget, ← List.drop_eq_getElem_cons, List.take_append_drop]
  obtain ⟨-, -, ⟨c, due, ⟨l₁, x, l₂, hsplit, hc, hnone, -⟩, hpause, hpassed⟩, -⟩ :=
    h _ v 20 16 29 _ hcut first (of_decide_eq_true hgone)
  -- the fifth transmission was at the time 16, too
  rw [hsplit, List.append_cons, transmitted_append, transmitted_snoc, hc, hnone,
    List.append_nil] at hsent
  have hlast := congrArg List.getLast? hsent
  rw [Option.toList_some, List.getLast?_concat] at hlast
  obtain rfl : c = 16 := Option.some.inj hlast
  omega

end FloodPeer
