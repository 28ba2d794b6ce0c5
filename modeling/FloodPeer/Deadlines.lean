/-
FloodPeer/Deadlines.lean

`NEXTTIME` and the deadlines of the recipients.

`flood_messages` makes a pass over each list (`passes`).  `NEXTTIME` has the deadlines of
all that the passes see; the last recipient that is due in a list, when it is put back
in front, is seen by none.  Its deadline is in `NEXTTIME`, whatever the random numbers
are, exactly when that was low enough before, or when an earlier one is seen
(`recorded_iff_watched`).
-/
import FloodPeer.Sweep

namespace FloodPeer

open Octets StateLogic Runs Backoff

/-! ### The lists before the passes -/

/-- A list of recipients before a pass at the time `now`. -/
structure InOrder (now : Int) (l : List NgbEntry) : Prop where
  /-- The pass is over before it comes to a recipient of five transmissions that is
  not due. -/
  unhurried : Unhurried now (ripe now l) (unripe now l).head?
  /-- Of the recipients that are not due, the first one is due first, and soon. -/
  near : ∀ x ∈ (unripe now l).head?, x.waitTime ≤ now + 32768
  least : ∀ x ∈ (unripe now l).head?, ∀ y ∈ unripe now l, x.waitTime ≤ y.waitTime

/-- The passes over the lists `ls`, with their readings of the clock.  Those in the places
`left` have been given up, and are not in the lists any more. -/
def passes (clock : Stream' Nat) (left : List (List Nat ×ₗ Nat)) :
    List (List NgbEntry) → List (Int × List NgbEntry)
  | [] => []
  | l :: ls =>
    let found := l.filter fun x => x.place ∉ left
    (clock.head, found) :: passes clock.tail (left ++ gone (ripe clock.head found)) ls

/-- Those who are given up in the passes. -/
def goneIn (ps : List (Int × List NgbEntry)) : List (List Nat ×ₗ Nat) :=
  ps.flatMap fun p => gone (ripe p.1 p.2)

/-- What the passes see, with the random numbers `r`. -/
def seenIn (r : Stream' Nat) : List (Int × List NgbEntry) → List NgbEntry
  | [] => []
  | p :: ps => seen p.1 r (ripe p.1 p.2) (unripe p.1 p.2) ++
    seenIn (r.drop ((ripe p.1 p.2).countP fun x => x.timesSent ≠ 5)) ps

/-- The recipient has been put back last in one of the passes, and is not given up in a
later one. -/
def LateIn (r : Stream' Nat) (x : NgbEntry) : List (Int × List NgbEntry) → Prop
  | [] => False
  | p :: ps => x ∈ late p.1 r (ripe p.1 p.2) ∧ x.place ∉ goneIn ps ∨
    LateIn (r.drop ((ripe p.1 p.2).countP fun x => x.timesSent ≠ 5)) x ps

/-- Those who have been given up before are taken out of the lists. -/
theorem passes_filter (clock : Stream' Nat) (left left' : List (List Nat ×ₗ Nat))
    (ls : List (List NgbEntry)) : passes clock (left ++ left') ls =
      passes clock left' (ls.map fun l => l.filter fun x => x.place ∉ left) := by
  induction ls generalizing clock left' with
  | nil => rfl
  | cons l ls ih =>
    have hfound : (l.filter fun x => x.place ∉ left ++ left') =
        (l.filter fun x => x.place ∉ left).filter fun x => x.place ∉ left' := by
      rw [List.filter_filter]
      apply List.filter_congr
      intro x _
      rw [← Bool.decide_and, decide_eq_decide, List.mem_append, not_or, and_comm]
    rw [List.map_cons, passes, passes, hfound, List.append_assoc, ih]

/-- A pass is over a part of one of the lists. -/
theorem mem_passes {clock : Stream' Nat} {left : List (List Nat ×ₗ Nat)}
    {ls : List (List NgbEntry)} {p : Int × List NgbEntry} (hp : p ∈ passes clock left ls) :
    ∃ l ∈ ls, p.2 ⊆ l := by
  induction ls generalizing clock left with
  | nil => cases hp
  | cons l ls ih =>
    rcases List.mem_cons.mp hp with rfl | hp
    · exact ⟨l, List.mem_cons_self, List.filter_subset_self l⟩
    · obtain ⟨l', hl', hsub⟩ := ih hp
      exact ⟨l', List.mem_cons_of_mem _ hl', hsub⟩

/-- The list of recipients in a cell of `DATAF`. -/
def World.listAt (w : World) (a : Nat) : List NgbEntry :=
  ((w.floodAt a).map fun f => f.symNeighbors.contents).getD []

/-! ### One pass after another -/

/-- The moves of a pass are no local messages. -/
theorem fresh_loop (flood : Nat) (now : Int) (fuel : Nat) (cursor : Option Nat) (w : World) :
    ∀ x ∈ (loopChronicle flood now fuel cursor).history w, Fresh x.1 x.2 := by
  induction fuel generalizing cursor w with
  | zero =>
    cases cursor with
    | none => exact fun _ hx => nomatch hx
    | some tmp =>
      intro x hx
      obtain rfl := List.mem_singleton.mp hx
      exact nofun
  | succ fuel ih =>
    cases cursor with
    | none => exact fun _ hx => nomatch hx
    | some tmp =>
      intro x hx
      cases hvalue : value (floodTurn flood now tmp) w with
      | stop =>
        rw [history_of_stop hvalue] at hx
        obtain rfl := List.mem_singleton.mp hx
        exact nofun
      | goto next =>
        rw [history_of_goto hvalue] at hx
        rcases List.mem_cons.mp hx with rfl | hx
        · exact nofun
        · exact ih next _ x hx

theorem fresh_pass (flood : Nat) (w : World) :
    ∀ x ∈ (passChronicle flood).history w, Fresh x.1 x.2 := by
  intro x hx
  cases hf : w.floodAt flood with
  | none =>
    rw [history_of_null hf] at hx
    rcases List.mem_pair.mp hx with rfl | rfl <;> exact nofun
  | some f =>
    rw [history_of_entry hf] at hx
    rcases List.mem_cons.mp hx with rfl | hx
    · exact nofun
    · exact fresh_loop flood _ _ _ _ x hx

/-- What holds of `DATAF` between the passes. -/
structure World.Kept (w : World) : Prop where
  sound : w.Sound
  register : w.Register
  apart : w.Apart
  allocates : w.Allocates

/-- A pass keeps it. -/
theorem World.Kept.pass {w : World} (h : w.Kept) (flood : Nat) :
    (after (floodMessageToNeighbours flood) w).Kept ∧ ((indices w.dataf.contents).Nodup →
      (indices (after (floodMessageToNeighbours flood) w).dataf.contents).Nodup) := by
  have hrun := (passChronicle flood).isRun w
  obtain ⟨⟨hsound, hregister, hapart⟩, -⟩ := waiting_before hrun h.sound h.register h.apart
  have halloc := (elapsed_of_run hrun).allocates h.allocates
  refine ⟨⟨hsound, hregister, hapart, halloc⟩, fun hdistinct => ?_⟩
  have hall := hrun.invariant_of (I := fun w => w.Sound ∧ w.Register ∧
    (indices w.dataf.contents).Nodup) (fresh_pass flood w) ⟨h.sound, h.register, hdistinct⟩
    fun v m w' ⟨hv, hr, hd⟩ hfresh hmove =>
      ⟨hmove.sound hv, (hmove.files hv hr).1, hmove.distinct hv hr hfresh hd⟩
  exact hall.2.2

theorem World.Kept.cells {w : World} (h : w.Kept) (cells : List Nat) :
    (after (floodCells cells) w).Kept := by
  induction cells generalizing w with
  | nil => exact h
  | cons cell rest ih => exact ih (h.pass cell).1

/-! ### The passes over the cells -/

/-- What the passes over the cells `cells` do.  They see the recipients `sees`; those of
whom `last` holds have been put back after that, and those in the places `places` have been
given up. -/
structure Covers (cells : List Nat) (sees : List NgbEntry) (last : NgbEntry → Prop)
    (places : List (List Nat ×ₗ Nat)) (w w' : World) : Prop where
  later : w'.nexttime ≤ w.nexttime
  taken : ∀ x ∈ sees, w'.nexttime ≤ x.waitTime
  reached : w'.nexttime = w.nexttime ∨ ∃ x ∈ sees, w'.nexttime = x.waitTime
  left : ∀ a ∈ cells, ∀ x ∈ w'.listAt a, x ∈ sees ∨ last x
  back : ∀ y, last y → (∀ x ∈ sees, y.waitTime < x.waitTime) → ∃ a ∈ cells, y ∈ w'.listAt a
  others : ∀ a ∉ cells, w'.listAt a = (w.listAt a).filter fun x => x.place ∉ places
  data : ∀ a f', w'.floodAt a = some f' → ∃ f, w.floodAt a = some f ∧ f'.data = f.data
  owns : ∀ k, w.neighbors.owns k → k.toNeighbor.place ∉ places → w'.neighbors.owns k

theorem Covers.refl (w : World) : Covers [] [] (fun _ => False) [] w w where
  later := le_refl _
  taken := fun _ hx => nomatch hx
  reached := .inl rfl
  left := fun _ ha => nomatch ha
  back := fun _ hy => hy.elim
  others := fun _ _ => (List.filter_eq_self.mpr fun _ _ => by simp).symm
  data := fun _ f hf => ⟨f, hf, rfl⟩
  owns := fun _ hk _ => hk

/-- A pass, and the passes after it. -/
theorem Covers.cons {cell : Nat} {rest : List Nat} {sees sees' : List NgbEntry}
    {last last' : NgbEntry → Prop} {places places' : List (List Nat ×ₗ Nat)} {u v w : World}
    (h : Covers [cell] sees last places u v) (h' : Covers rest sees' last' places' v w)
    (hcell : cell ∉ rest) :
    Covers (cell :: rest) (sees ++ sees')
      (fun x => last x ∧ x.place ∉ places' ∨ last' x) (places ++ places') u w where
  later := le_trans h'.later h.later
  taken := by
    intro x hx
    rcases List.mem_append.mp hx with hx | hx
    · exact le_trans h'.later (h.taken x hx)
    · exact h'.taken x hx
  reached := by
    rcases h'.reached with heq | ⟨x, hx, heq⟩
    · rw [heq]
      exact h.reached.imp_right fun ⟨x, hx, hnext⟩ => ⟨x, List.mem_append_left _ hx, hnext⟩
    · exact .inr ⟨x, List.mem_append_right _ hx, heq⟩
  left := by
    intro a ha x hx
    rcases List.mem_cons.mp ha with rfl | ha
    · rw [h'.others a hcell] at hx
      obtain ⟨hx, hplace⟩ := List.mem_filter.mp hx
      rcases h.left a List.mem_cons_self x hx with hsees | hlast
      · exact .inl (List.mem_append_left _ hsees)
      · exact .inr (.inl ⟨hlast, of_decide_eq_true hplace⟩)
    · exact (h'.left a ha x hx).imp (List.mem_append_right _) .inr
  back := by
    rintro y (⟨hlast, hplace⟩ | hlast) hlt
    · obtain ⟨a, ha, hy⟩ := h.back y hlast fun x hx => hlt x (List.mem_append_left _ hx)
      obtain rfl := List.mem_singleton.mp ha
      refine ⟨a, List.mem_cons_self, ?_⟩
      rw [h'.others a hcell]
      exact List.mem_filter.mpr ⟨hy, decide_eq_true hplace⟩
    · obtain ⟨a, ha, hy⟩ := h'.back y hlast fun x hx => hlt x (List.mem_append_right _ hx)
      exact ⟨a, List.mem_cons_of_mem _ ha, hy⟩
  others := by
    intro a ha
    rw [List.mem_cons, not_or] at ha
    rw [h'.others a ha.2, h.others a (fun hmem => ha.1 (List.mem_singleton.mp hmem)),
      List.filter_filter]
    apply List.filter_congr
    intro x _
    rw [← Bool.decide_and, decide_eq_decide, List.mem_append, not_or, and_comm]
  data := by
    intro a f'' hf''
    obtain ⟨f', hf', hdata'⟩ := h'.data a f'' hf''
    obtain ⟨f, hf, hdata⟩ := h.data a f' hf'
    exact ⟨f, hf, hdata'.trans hdata⟩
  owns := by
    intro k hk hplace
    rw [List.mem_append, not_or] at hplace
    exact h'.owns k (h.owns k hk hplace.1) hplace.2

theorem listAt_some {w : World} {a : Nat} {f : FloodEntry} (hf : w.floodAt a = some f) :
    w.listAt a = f.symNeighbors.contents := by
  unfold World.listAt
  rw [hf]
  rfl

theorem listAt_none {w : World} {a : Nat} (hf : w.floodAt a = none) : w.listAt a = [] := by
  unfold World.listAt
  rw [hf]
  rfl

theorem Sweeps.covers {flood : Nat} {f : FloodEntry} {sees : List NgbEntry}
    {last : Option NgbEntry} {places : List (List Nat ×ₗ Nat)} {w w' : World}
    (h : Sweeps flood f sees last places w w') (hf : w.floodAt flood = some f) :
    Covers [flood] sees (· ∈ last) places w w' := by
  obtain ⟨l', hl', hleft, hback⟩ := h.list
  exact
    { later := h.later
      taken := h.taken
      reached := h.reached
      left := by
        intro a ha x hx
        obtain rfl := List.mem_singleton.mp ha
        rw [listAt_some hl'] at hx
        exact hleft x hx
      back := by
        intro y hy hlt
        refine ⟨flood, List.mem_cons_self, ?_⟩
        rw [listAt_some hl']
        exact hback y hy hlt
      others := by
        intro a ha
        have hne : a ≠ flood := fun heq => ha (List.mem_singleton.mpr heq)
        cases hg : w.floodAt a with
        | none => rw [listAt_none hg, listAt_none (h.null a hg), List.filter_nil]
        | some g =>
          obtain ⟨l', hl', hcontents⟩ := h.others a hne g hg
          rw [listAt_some hg, listAt_some hl', hcontents]
      data := by
        intro a f' hf'
        cases hg : w.floodAt a with
        | none => cases (h.null a hg).symm.trans hf'
        | some g =>
          refine ⟨g, rfl, ?_⟩
          by_cases ha : a = flood
          · subst ha
            obtain rfl := Option.some.inj (hl'.symm.trans hf')
            obtain rfl := Option.some.inj (hf.symm.trans hg)
            rfl
          · obtain ⟨l', hg', -⟩ := h.others a ha g hg
            obtain rfl := Option.some.inj (hg'.symm.trans hf')
            rfl
      owns := h.owns }

/-- The entries in the cells `cells`, and the clock, before the passes over them. -/
structure World.Regular (w : World) (cells : List Nat) : Prop extends w.Kept where
  /-- The recipients are neighbours, -/
  owned : ∀ a ∈ cells, ∀ x ∈ w.listAt a, w.neighbors.owns x.sym
  /-- to whom the datum has not been sent more than five times. -/
  few : ∀ a ∈ cells, ∀ x ∈ w.listAt a, x.timesSent ≤ 5
  sendable : ∀ a ∈ cells, ∀ f, w.floodAt a = some f → f.Sendable
  inOrder : ∀ p ∈ passes w.clock [] (cells.map w.listAt), InOrder p.1 p.2
  /-- When somebody is given up, no entry is taken for another one. -/
  parted : goneIn (passes w.clock [] (cells.map w.listAt)) ≠ [] →
    (indices w.dataf.contents).Nodup ∧ (∀ a, ∀ x ∈ w.listAt a, Unprobed x) ∧
      ∀ p ∈ passes w.clock [] (cells.map w.listAt), ∀ d : Int, 1 ≤ d → d ≤ 31 →
        ¬ (65536 : Int) ∣ p.1 + d

theorem passes_cons (clock : Stream' Nat) (l : List NgbEntry) (ls : List (List NgbEntry)) :
    passes clock [] (l :: ls) =
      (↑clock.head, l) :: passes clock.tail (gone (ripe clock.head l)) ls := by
  have hl : (l.filter fun x => x.place ∉ ([] : List (List Nat ×ₗ Nat))) = l :=
    List.filter_eq_self.mpr fun _ _ => by simp
  rw [passes, hl, List.nil_append]

theorem goneIn_cons (p : Int × List NgbEntry) (ps : List (Int × List NgbEntry)) :
    goneIn (p :: ps) = gone (ripe p.1 p.2) ++ goneIn ps := List.flatMap_cons

/-- Who is given up has been sent the datum five times. -/
theorem gone_ne_nil {due : List NgbEntry} (h : ∃ x ∈ due, x.timesSent = 5) : gone due ≠ [] := by
  obtain ⟨x, hx, hfive⟩ := h
  exact List.ne_nil_of_mem (List.mem_map_of_mem
    (List.mem_filter.mpr ⟨hx, decide_eq_true hfive⟩))

theorem unwatched_subset {due : List NgbEntry} {x : NgbEntry} (hx : x ∈ unwatched due) :
    x ∈ due ∧ x.timesSent ≠ 5 := by
  obtain ⟨hlast, hfive⟩ := Option.filter_eq_some_iff.mp hx
  exact ⟨List.mem_of_getLast? hlast, of_decide_eq_true hfive⟩

theorem passed_subset {due : List NgbEntry} {x : NgbEntry} (hx : x ∈ passed due) :
    x ∈ due ∧ x.timesSent ≠ 5 := by
  obtain ⟨hmem, hfive⟩ := List.mem_filter.mp hx
  exact ⟨(List.dropLast_sublist _).subset hmem, of_decide_eq_true hfive⟩

theorem mem_seen {now : Int} {r : Stream' Nat} {due rest : List NgbEntry} {x : NgbEntry} :
    x ∈ seen now r due rest ↔
      (∃ i, ∃ hi : i < (passed due).length, x = (passed due)[i].resent (r.get i) now) ∨
        x ∈ rest := by
  unfold seen
  rw [List.mem_append, List.mem_mapIdx]
  exact or_congr_left ⟨fun ⟨i, hi, heq⟩ => ⟨i, hi, heq.symm⟩, fun ⟨i, hi, heq⟩ => ⟨i, hi, heq.symm⟩⟩

/-- What is put back at such a time. -/
theorem told_resent {now : Int} (hnow : ∀ d : Int, 1 ≤ d → d ≤ 31 → ¬ (65536 : Int) ∣ now + d)
    {x : NgbEntry} (hx : x.timesSent ≤ 4) (r : Nat) : Unprobed (x.resent r now) := by
  intro _ hdvd
  have hlo := lt_waitTime_resent x r now
  have hhi := le_trans (le_latest x r now) (latest_le hx now)
  apply hnow ((x.resent r now).waitTime - now) (by omega) (by omega)
  rwa [add_sub_cancel]

section Cells

variable {w : World} {cell : Nat} {rest : List Nat}

/-- **One pass.** -/
theorem World.Regular.covers (h : w.Regular (cell :: rest)) :
    let w' := after (floodMessageToNeighbours cell) w
    let l := w.listAt cell
    Covers [cell] (seen w.clock.head w.rands (ripe w.clock.head l) (unripe w.clock.head l))
      (· ∈ late w.clock.head w.rands (ripe w.clock.head l)) (gone (ripe w.clock.head l)) w w' ∧
    w'.rands = w.rands.drop ((ripe w.clock.head l).countP fun x => x.timesSent ≠ 5) ∧
    w'.clock = w.clock.tail := by
  intro w' l
  have hclock : Move.Does .idle w (after getSeconds w) := (primitive_still.onGetSeconds w).toIdle
  have hps := passes_cons w.clock l (rest.map w.listAt)
  have horder : InOrder w.clock.head l := h.inOrder _ (by
    rw [List.map_cons, hps]
    exact List.mem_cons_self)
  have hparted : (∃ x ∈ ripe w.clock.head l, x.timesSent = 5) →
      (indices w.dataf.contents).Nodup ∧ ∀ a, ∀ x ∈ w.listAt a, Unprobed x := by
    intro hfive
    obtain ⟨hdistinct, htold, -⟩ := h.parted (by
      rw [List.map_cons, hps, goneIn_cons]
      exact List.append_ne_nil_of_left_ne_nil (gone_ne_nil hfive) _)
    exact ⟨hdistinct, htold⟩
  cases hf : w.floodAt cell with
  | none =>
    have hl : l = [] := listAt_none hf
    have hw' : w' = after (note .fault) (after getSeconds w) := by
      show after (floodMessageToNeighbours cell) w = _
      have hf' : (after getSeconds w).floodAt cell = none := hf
      unfold floodMessageToNeighbours
      simp only [after_bind, after_get, value_get, hf']
    rw [hl, hw']
    refine ⟨?_, rfl, rfl⟩
    exact
      { later := le_refl _
        taken := fun _ hx => nomatch hx
        reached := .inl rfl
        left := by
          intro a ha x hx
          obtain rfl := List.mem_singleton.mp ha
          rw [show (after (note .fault) (after getSeconds w)).listAt a = w.listAt a from rfl,
            listAt_none hf] at hx
          cases hx
        back := fun _ hy => nomatch hy
        others := fun _ _ => (List.filter_eq_self.mpr fun _ _ => by simp [gone, ripe]).symm
        data := fun _ f hf => ⟨f, hf, rfl⟩
        owns := fun _ hk _ => hk }
  | some f =>
    have hl : f.symNeighbors.contents = l := (listAt_some hf).symm
    have hmem : ∀ x ∈ f.symNeighbors.contents, x ∈ w.listAt cell := fun x hx => by
      rwa [listAt_some hf]
    have hunhurried : Unhurried w.clock.head (ripe w.clock.head f.symNeighbors.contents)
        (unripe w.clock.head f.symNeighbors.contents).head? := hl ▸ horder.unhurried
    have hdistinct : (∃ x ∈ ripe w.clock.head f.symNeighbors.contents, x.timesSent = 5) →
        (indices w.dataf.contents).Nodup := fun hfive => (hparted (hl ▸ hfive)).1
    obtain ⟨due, others, hwalking, hdue, hothers, hfirst⟩ :=
      walking_start (w := after getSeconds w) (hclock.sound h.sound)
        (hclock.files h.sound h.register).1 (hclock.apart h.sound h.register h.apart) hf
        (fun k hk => by
          obtain ⟨x, hx, rfl⟩ := List.mem_map.mp hk
          exact h.owned cell List.mem_cons_self x (hmem x hx))
        (fun x hx => h.few cell List.mem_cons_self x (hmem x hx))
        hdistinct hunhurried
    rw [hl] at hdue hothers
    have hlead : Leads w.clock.head others := by
      have hhead : others.head?.map (·.content) = (unripe w.clock.head l).head? := by
        rw [← hothers, List.head?_map]
      refine ⟨fun x hx => ?_, fun x hx y hy => ?_⟩
      · exact horder.near _ (hhead ▸ Option.mem_map_of_mem _ hx)
      · exact horder.least _ (hhead ▸ Option.mem_map_of_mem _ hx) _
          (hothers ▸ List.mem_map_of_mem hy)
    have hw' : w' = after (floodLoop cell w.clock.head (2 * f.symNeighbors.entries.length + 1)
        ((due ++ others).head?.map (·.addr))) (after getSeconds w) := by
      show after (floodMessageToNeighbours cell) w = _
      have hf' : (after getSeconds w).floodAt cell = some f := hf
      have hnow : value getSeconds w = w.clock.head := rfl
      unfold floodMessageToNeighbours
      simp only [after_bind, after_get, value_get, hf', hnow, hfirst]
    have hfuel : due.length < 2 * f.symNeighbors.entries.length + 1 := by
      have hle : due.length ≤ f.symNeighbors.entries.length := by
        rw [hwalking.entries, List.length_append]
        exact Nat.le_add_right _ _
      omega
    obtain ⟨hsweeps, hrands⟩ := hwalking.sweeps hlead (h.sendable cell List.mem_cons_self f hf)
      (hclock.elapsed.allocates h.allocates) (fun ⟨x, hx, hfive⟩ a _ g hg y hy => by
        refine (hparted ⟨x.content, hdue ▸ List.mem_map_of_mem hx, hfive⟩).2 a y ?_
        rw [listAt_some (show w.floodAt a = some g from hg)]
        exact hy) hfuel
    rw [hdue, hothers, ← hw'] at hsweeps
    rw [hdue, ← hw'] at hrands
    have hcovers := hsweeps.covers hf
    exact ⟨{ hcovers with }, hrands, hsweeps.clock⟩

/-- What is known of the entries that are left. -/
theorem World.Regular.pass (h : w.Regular (cell :: rest)) (hcell : cell ∉ rest) :
    let w' := after (floodMessageToNeighbours cell) w
    w'.Regular rest ∧ passes w'.clock [] (rest.map w'.listAt) =
      passes w.clock.tail (gone (ripe w.clock.head (w.listAt cell))) (rest.map w.listAt) := by
  intro w'
  obtain ⟨hcovers, -, hclock⟩ := h.covers
  obtain ⟨hkept, hdistinct⟩ := h.toKept.pass cell
  have hlists : ∀ a ≠ cell, w'.listAt a = (w.listAt a).filter fun x =>
      x.place ∉ gone (ripe w.clock.head (w.listAt cell)) :=
    fun a ha => hcovers.others a fun hmem => ha (List.mem_singleton.mp hmem)
  have hrest : ∀ a ∈ rest, a ≠ cell := fun a ha heq => hcell (heq ▸ ha)
  have hpasses : passes w'.clock [] (rest.map w'.listAt) =
      passes w.clock.tail (gone (ripe w.clock.head (w.listAt cell))) (rest.map w.listAt) := by
    have hfilter := passes_filter w.clock.tail (gone (ripe w.clock.head (w.listAt cell))) []
      (rest.map w.listAt)
    rw [List.append_nil] at hfilter
    rw [hfilter, hclock, List.map_map]
    congr 1
    exact List.map_congr_left fun a ha => hlists a (hrest a ha)
  have hps : passes w.clock [] ((cell :: rest).map w.listAt) =
      (↑w.clock.head, w.listAt cell) :: passes w'.clock [] (rest.map w'.listAt) := by
    rw [hpasses, List.map_cons, passes_cons]
  refine ⟨?_, hpasses⟩
  exact
    { hkept with
      owned := by
        intro a ha x hx
        rw [hlists a (hrest a ha)] at hx
        obtain ⟨hx, hplace⟩ := List.mem_filter.mp hx
        exact hcovers.owns x.sym (h.owned a (List.mem_cons_of_mem _ ha) x hx)
          (of_decide_eq_true hplace)
      few := by
        intro a ha x hx
        rw [hlists a (hrest a ha)] at hx
        exact h.few a (List.mem_cons_of_mem _ ha) x (List.mem_filter.mp hx).1
      sendable := by
        intro a ha f' hf'
        obtain ⟨f, hf, hdata⟩ := hcovers.data a f' hf'
        have hsend := h.sendable a (List.mem_cons_of_mem _ ha) f hf
        unfold FloodEntry.Sendable at hsend ⊢
        rwa [hdata]
      inOrder := fun p hp => h.inOrder p (hps ▸ List.mem_cons_of_mem _ hp)
      parted := by
        intro hgone
        obtain ⟨hindices, htold, hclear⟩ := h.parted (by
          rw [hps, goneIn_cons]
          exact List.append_ne_nil_of_right_ne_nil _ hgone)
        refine ⟨hdistinct hindices, fun a x hx => ?_,
          fun p hp => hclear p (hps ▸ List.mem_cons_of_mem _ hp)⟩
        by_cases ha : a = cell
        · -- its deadline is a new one, or it is the old one
          subst ha
          have hnow := hclear _ (hps ▸ List.mem_cons_self)
          have hfour : ∀ y ∈ ripe w.clock.head (w.listAt a), y.timesSent ≠ 5 → y.timesSent ≤ 4 := by
            intro y hy hfive
            have hfew := h.few a List.mem_cons_self y (ripe_subset _ _ hy)
            omega
          rcases hcovers.left a List.mem_cons_self x hx with hseen | hlast
          · rcases mem_seen.mp hseen with ⟨i, hi, rfl⟩ | hunripe
            · obtain ⟨hmem, hfive⟩ := passed_subset (List.getElem_mem hi)
              exact told_resent hnow (hfour _ hmem hfive) _
            · exact htold a x ((List.dropWhile_suffix _).subset hunripe)
          · obtain ⟨y, hy, rfl⟩ := Option.map_eq_some_iff.mp hlast
            obtain ⟨hmem, hfive⟩ := unwatched_subset hy
            exact told_resent hnow (hfour y hmem hfive) _
        · rw [hlists a ha] at hx
          exact htold a x (List.mem_filter.mp hx).1 }

/-- **One pass after another.** -/
theorem World.Regular.covers_cells {cells : List Nat} (h : w.Regular cells)
    (hnodup : cells.Nodup) :
    let ps := passes w.clock [] (cells.map w.listAt)
    Covers cells (seenIn w.rands ps) (fun x => LateIn w.rands x ps) (goneIn ps) w
      (after (floodCells cells) w) := by
  induction cells generalizing w with
  | nil => exact Covers.refl w
  | cons cell rest ih =>
    obtain ⟨hcell, hnodup⟩ := List.nodup_cons.mp hnodup
    obtain ⟨hcovers, hrands, -⟩ := h.covers
    obtain ⟨hregular, hpasses⟩ := h.pass hcell
    have hrest := ih hregular hnodup
    intro ps
    have hps : ps = (↑w.clock.head, w.listAt cell) ::
        passes w.clock.tail (gone (ripe w.clock.head (w.listAt cell))) (rest.map w.listAt) := by
      show passes w.clock [] ((cell :: rest).map w.listAt) = _
      rw [List.map_cons, passes_cons]
    rw [hpasses, hrands] at hrest
    rw [hps, goneIn_cons]
    exact hcovers.cons hrest hcell

end Cells

/-! ### What can be put back in front -/

/-- The deadlines of the recipients that a pass sees, if they are late. -/
def watched (p : Int × List NgbEntry) : List Int :=
  (passed (ripe p.1 p.2)).map (·.latest p.1) ++
    ((unripe p.1 p.2).head?.map (·.waitTime)).toList

/-- No more than that is seen, whatever the random numbers are. -/
theorem exists_seenIn (r : Stream' Nat) {p : Int × List NgbEntry}
    {ps : List (Int × List NgbEntry)} (hp : p ∈ ps) {t : Int} (ht : t ∈ watched p) :
    ∃ x ∈ seenIn r ps, x.waitTime ≤ t := by
  induction ps generalizing r with
  | nil => cases hp
  | cons q ps ih =>
    rcases List.mem_cons.mp hp with rfl | hp
    · rcases List.mem_append.mp ht with ht | ht
      · obtain ⟨c, hc, rfl⟩ := List.mem_map.mp ht
        obtain ⟨i, hi, rfl⟩ := List.mem_iff_getElem.mp hc
        exact ⟨_, List.mem_append_left _ (mem_seen.mpr (.inl ⟨i, hi, rfl⟩)), le_latest _ _ _⟩
      · obtain ⟨x, hx, rfl⟩ := Option.map_eq_some_iff.mp (Option.mem_toList.mp ht)
        refine ⟨x, List.mem_append_left _ (mem_seen.mpr (.inr ?_)), le_refl _⟩
        exact List.mem_of_mem_head? hx
    · obtain ⟨x, hx, hle⟩ := ih (r.drop _) hp
      exact ⟨x, List.mem_append_right _ hx, hle⟩

/-- The recipient has been put back last in one of the passes. -/
theorem exists_of_lateIn {r : Stream' Nat} {x : NgbEntry} {ps : List (Int × List NgbEntry)}
    (h : LateIn r x ps) : ∃ front p back, ps = front ++ p :: back ∧
      ∃ y ∈ unwatched (ripe p.1 p.2), ∃ n, x = y.resent n p.1 ∧ y.place ∉ goneIn back := by
  induction ps generalizing r with
  | nil => exact h.elim
  | cons p ps ih =>
    rcases h with ⟨hlate, hplace⟩ | hlate
    · obtain ⟨y, hy, rfl⟩ := Option.map_eq_some_iff.mp hlate
      exact ⟨[], p, ps, rfl, y, hy, _, rfl, hplace⟩
    · obtain ⟨front, q, back, rfl, hexists⟩ := ih hlate
      exact ⟨p :: front, q, back, rfl, hexists⟩

/-- The wait is as long as it can be. -/
theorem waitTime_resent_fifteen {x : NgbEntry} (hx : x.timesSent ≤ 4) (now : Int) :
    (x.resent 15 now).waitTime = x.latest now := by
  have hwait : ∀ n ≤ 4, waitOf (n + 1) 15 = 2 ^ (n + 1) - 1 := by decide
  show waitOf (x.timesSent + 1) 15 + now = now + (2 ^ (x.timesSent + 1) - 1)
  rw [hwait x.timesSent hx, Int.add_comm]

/-- The wait is as short as it can be. -/
theorem waitTime_resent_zero (x : NgbEntry) (now : Int) :
    (x.resent 0 now).waitTime = x.soonest now := by
  have hwait : waitOf (x.timesSent + 1) 0 = 2 ^ x.timesSent := by
    unfold waitOf
    rw [if_neg (Nat.succ_ne_zero _), Nat.zero_mod, Nat.zero_add]
    push_cast
    rfl
  show waitOf (x.timesSent + 1) 0 + now = now + 2 ^ x.timesSent
  rw [hwait, Int.add_comm]

/-- The random numbers with which the recipients are late. -/
theorem seen_of_late {p : Int × List NgbEntry} (horder : InOrder p.1 p.2)
    (hfew : ∀ x ∈ p.2, x.timesSent ≤ 5) {r : Stream' Nat}
    (hr : ∀ i < (passed (ripe p.1 p.2)).length, r.get i = 15) {x : NgbEntry}
    (hx : x ∈ seen p.1 r (ripe p.1 p.2) (unripe p.1 p.2)) : ∃ t ∈ watched p, t ≤ x.waitTime := by
  rcases mem_seen.mp hx with ⟨i, hi, rfl⟩ | hunripe
  · obtain ⟨hmem, hfive⟩ := passed_subset (List.getElem_mem hi)
    have hfew := hfew _ (ripe_subset _ _ hmem)
    refine ⟨_, List.mem_append_left _ (List.mem_map_of_mem (List.getElem_mem hi)), ?_⟩
    rw [hr i hi, waitTime_resent_fifteen (by omega)]
  · cases hrest : unripe p.1 p.2 with
    | nil => rw [hrest] at hunripe; cases hunripe
    | cons y rest =>
      have hhead : y ∈ (unripe p.1 p.2).head? := by rw [hrest]; rfl
      refine ⟨y.waitTime, List.mem_append_right _ ?_, horder.least y hhead x hunripe⟩
      exact Option.mem_toList.mpr (Option.mem_map_of_mem _ hhead)

/-- Everybody is late. -/
theorem seenIn_of_late {ps : List (Int × List NgbEntry)}
    (horder : ∀ p ∈ ps, InOrder p.1 p.2) (hfew : ∀ p ∈ ps, ∀ x ∈ p.2, x.timesSent ≤ 5)
    {x : NgbEntry} (hx : x ∈ seenIn (Stream'.const 15) ps) :
    ∃ p ∈ ps, ∃ t ∈ watched p, t ≤ x.waitTime := by
  induction ps with
  | nil => cases hx
  | cons p ps ih =>
    rcases List.mem_append.mp hx with hx | hx
    · obtain ⟨t, ht, hle⟩ := seen_of_late (horder p List.mem_cons_self)
        (hfew p List.mem_cons_self) (fun _ _ => rfl) hx
      exact ⟨p, List.mem_cons_self, t, ht, hle⟩
    · rw [Stream'.drop_const] at hx
      obtain ⟨q, hq, ht⟩ := ih (fun q hq => horder q (List.mem_cons_of_mem _ hq))
        (fun q hq => hfew q (List.mem_cons_of_mem _ hq)) hx
      exact ⟨q, List.mem_cons_of_mem _ hq, ht⟩

/-- The last one takes the last random number. -/
theorem countP_of_unwatched {due : List NgbEntry} {y : NgbEntry} (hy : y ∈ unwatched due) :
    due.countP (fun x => x.timesSent ≠ 5) = (passed due).length + 1 := by
  obtain ⟨hlast, hfive⟩ := Option.filter_eq_some_iff.mp hy
  have hdue : due = due.dropLast ++ [y] := (List.dropLast_append_getLast? y hlast).symm
  unfold passed
  rw [← List.countP_eq_length_filter]
  nth_rewrite 1 [hdue]
  rw [List.countP_append, List.countP_singleton, if_pos hfive]

/-- With some random numbers the recipient `y` is soon, and everybody else is late. -/
theorem exists_rands {front : List (Int × List NgbEntry)} {p : Int × List NgbEntry}
    {back : List (Int × List NgbEntry)}
    (horder : ∀ q ∈ front ++ p :: back, InOrder q.1 q.2)
    (hfew : ∀ q ∈ front ++ p :: back, ∀ x ∈ q.2, x.timesSent ≤ 5) {y : NgbEntry}
    (hy : y ∈ unwatched (ripe p.1 p.2)) (hplace : y.place ∉ goneIn back) :
    ∃ r, (∀ x ∈ seenIn r (front ++ p :: back), ∃ q ∈ front ++ p :: back,
      ∃ t ∈ watched q, t ≤ x.waitTime) ∧ LateIn r (y.resent 0 p.1) (front ++ p :: back) := by
  induction front with
  | nil =>
    let first := List.replicate (passed (ripe p.1 p.2)).length 15
    have hlength : first.length = (passed (ripe p.1 p.2)).length := List.length_replicate
    have hdrop : (first ++ₛ Stream'.cons 0 (.const 15)).drop
        ((ripe p.1 p.2).countP fun x => x.timesSent ≠ 5) = .const 15 := by
      rw [countP_of_unwatched hy, ← hlength, ← Stream'.drop_drop, Stream'.drop_append_stream]
      rfl
    refine ⟨first ++ₛ Stream'.cons 0 (.const 15), fun x hx => ?_, .inl ⟨?_, hplace⟩⟩
    · rcases List.mem_append.mp hx with hx | hx
      · obtain ⟨t, ht, hle⟩ := seen_of_late (horder p List.mem_cons_self)
          (hfew p List.mem_cons_self) (fun i hi => by
            rw [Stream'.get_append_left _ _ _ (hlength ▸ hi)]
            exact List.getElem_replicate _) hx
        exact ⟨p, List.mem_cons_self, t, ht, hle⟩
      · rw [hdrop] at hx
        obtain ⟨q, hq, ht⟩ := seenIn_of_late (fun q hq => horder q (List.mem_cons_of_mem _ hq))
          (fun q hq => hfew q (List.mem_cons_of_mem _ hq)) hx
        exact ⟨q, List.mem_cons_of_mem _ hq, ht⟩
    · refine Option.map_eq_some_iff.mpr ⟨y, hy, ?_⟩
      rw [← hlength, Stream'.get_append_length]
      rfl
  | cons q front ih =>
    obtain ⟨r, hseen, hlate⟩ := ih (fun q hq => horder q (List.mem_cons_of_mem _ hq))
      fun q hq => hfew q (List.mem_cons_of_mem _ hq)
    let first := List.replicate ((ripe q.1 q.2).countP fun x => x.timesSent ≠ 5) 15
    have hlength : first.length = (ripe q.1 q.2).countP fun x => x.timesSent ≠ 5 :=
      List.length_replicate
    have hdrop : (first ++ₛ r).drop ((ripe q.1 q.2).countP fun x => x.timesSent ≠ 5) = r := by
      rw [← hlength, Stream'.drop_append_stream]
    refine ⟨first ++ₛ r, fun x hx => ?_, .inr ?_⟩
    · rcases List.mem_append.mp hx with hx | hx
      · have hle : (passed (ripe q.1 q.2)).length ≤ first.length := by
          rw [hlength, List.countP_eq_length_filter]
          exact ((List.dropLast_sublist _).filter _).length_le
        obtain ⟨t, ht, hle⟩ := seen_of_late (horder q List.mem_cons_self)
          (hfew q List.mem_cons_self) (fun i hi => by
            rw [Stream'.get_append_left _ _ _ (lt_of_lt_of_le hi hle)]
            exact List.getElem_replicate _) hx
        exact ⟨q, List.mem_cons_self, t, ht, hle⟩
      · rw [hdrop] at hx
        obtain ⟨q', hq', ht⟩ := hseen x hx
        exact ⟨q', List.mem_cons_of_mem _ hq', ht⟩
    · rw [hdrop]
      exact hlate

/-! ### The next timeout -/

/-- The timeout of `select`. -/
def World.timeout (w : World) (nexthello now : Int) : Int := max 0 (min w.nexttime nexthello - now)

/-- The deadlines of all recipients are in `NEXTTIME`: no timeout of the main
loop exceeds the time to one of them. -/
def World.Recorded (w : World) : Prop :=
  ∀ f ∈ w.floods, ∀ x ∈ f.symNeighbors.contents,
    w.nexttime ≤ x.waitTime ∧ ∀ nexthello now, w.timeout nexthello now ≤ max 0 (x.waitTime - now)

/-- The main loop begins with that timeout. -/
theorem log_iteration (wake : Wake) (m : MainState) (w : World) :
    Obs.select (w.timeout m.nexthello w.clock.head) ∈ (after (iteration wake m) w).log := by
  let u : World := after (note (.select (w.timeout m.nexthello w.clock.head)))
    (after getSeconds { w with nexttime := min w.nexttime m.nexthello })
  have hu : Obs.select (w.timeout m.nexthello w.clock.head) ∈ u.log :=
    List.mem_append_right _ List.mem_cons_self
  obtain ⟨tr, hread⟩ := (plays_readDescriptors (allowsWake_any m wake)
    { u with nexttime := m.nexthello }).run
  obtain ⟨tr', hclosing⟩ := (@plays_closing anyTlv (value (opening wake m) w)
    (after (opening wake m) w)).run
  rw [after_iteration]
  apply (elapsed_of_run hclosing).log.subset
  exact (elapsed_of_run hread).log.subset hu

theorem timeout_le {w : World} {x : NgbEntry} (h : w.nexttime ≤ x.waitTime) (nexthello now : Int) :
    w.timeout nexthello now ≤ max 0 (x.waitTime - now) :=
  max_le_max_left 0 (Int.sub_le_sub_right (le_trans (min_le_left _ _) h) now)

/-- The cells of `DATAF`. -/
def World.cells (w : World) : List Nat := w.dataf.entries.map (·.addr)

/-- The passes of `flood_messages`. -/
def World.passes (w : World) : List (Int × List NgbEntry) :=
  FloodPeer.passes w.clock [] (w.cells.map w.listAt)

/-- The last recipient that is due in a list, when it is sent the datum and is not given up
in a later pass, gets a deadline after `NEXTTIME`, or after that of a recipient that one of
the passes sees. -/
def World.Watched (w : World) : Prop :=
  ∀ i (hi : i < w.passes.length), ∀ y ∈ unwatched (ripe w.passes[i].1 w.passes[i].2),
    y.place ∉ goneIn (w.passes.drop (i + 1)) →
    w.nexttime ≤ y.soonest w.passes[i].1 ∨
      ∃ p ∈ w.passes, ∃ t ∈ watched p, t ≤ y.soonest w.passes[i].1

instance (w : World) : Decidable w.Watched := by unfold World.Watched; infer_instance

section Recorded

variable {w : World}

/-- The random numbers do not matter. -/
theorem World.Regular.withRands {cells : List Nat} (h : w.Regular cells) (rands : Stream' Nat) :
    ({ w with rands := rands } : World).Regular cells := by
  have hidle : Idle w { w with rands := rands } :=
    { Elapsed.refl w with potential := rfl, neighbors := rfl, dataf := rfl, msgs := rfl }
  have hmove : Move.Does .idle w { w with rands := rands } := hidle
  exact
    { sound := hmove.sound h.sound
      register := (hmove.files h.sound h.register).1
      apart := hmove.apart h.sound h.register h.apart
      allocates := h.allocates
      owned := h.owned
      few := h.few
      sendable := h.sendable
      inOrder := h.inOrder
      parted := h.parted }

/-- The lists are those in the cells. -/
theorem recorded_iff {w' : World} (hr : w'.Register)
    (hcells : ∀ a f, w'.floodAt a = some f → a ∈ w.cells) :
    w'.Recorded ↔ ∀ a ∈ w.cells, ∀ x ∈ w'.listAt a, w'.nexttime ≤ x.waitTime := by
  constructor
  · intro h a _ x hx
    cases hf : w'.floodAt a with
    | none => rw [listAt_none hf] at hx; cases hx
    | some f =>
      rw [listAt_some hf] at hx
      exact (h f (mem_floods hr.linked hf) x hx).1
  · intro h f hf x hx
    obtain ⟨a, ha⟩ := (mem_floods_iff hr).mp hf
    have hle := h a (hcells a f ha) x (by rwa [listAt_some ha])
    exact ⟨hle, timeout_le hle⟩

end Recorded

/-! ### One recipient and two -/

/-- The peer knows symmetrical neighbours, there is a message for them, and
`main` has assigned `NEXTHELLO` to `NEXTTIME`. -/
def untilHello (l : List Move) : World := { actAll l (bootAt 0) with nexttime := 30 }

theorem kept_untilHello (l : List Move) : (untilHello l).Kept := by
  have hrun := run_actAll l (bootAt 0)
  obtain ⟨hsound, hregister, hapart⟩ := apart_of_run (initial_boot _) hrun
  have hidle : Idle (actAll l (bootAt 0)) (untilHello l) :=
    { Elapsed.refl _ with potential := rfl, neighbors := rfl, dataf := rfl, msgs := rfl }
  have hmove : Move.Does .idle (actAll l (bootAt 0)) (untilHello l) := hidle
  exact
    { sound := hmove.sound hsound
      register := (hmove.files hsound hregister).1
      apart := hmove.apart hsound hregister hapart
      allocates := (elapsed_of_run hrun).allocates fun _ => rfl }

instance (now : Int) (l : List NgbEntry) : Decidable (InOrder now l) :=
  decidable_of_iff (_ ∧ _ ∧ _)
    ⟨fun h => ⟨h.1, h.2.1, h.2.2⟩, fun h => ⟨h.unhurried, h.near, h.least⟩⟩

/-- Nobody is given up. -/
theorem regular_untilHello {l : List Move}
    (hlists : ∀ a ∈ (untilHello l).cells, ∀ x ∈ (untilHello l).listAt a,
      (untilHello l).neighbors.owns x.sym ∧ x.timesSent ≤ 5)
    (hsend : ∀ a ∈ (untilHello l).cells, ∀ f ∈ (untilHello l).floodAt a, f.Sendable)
    (horder : ∀ p ∈ (untilHello l).passes, InOrder p.1 p.2)
    (hgone : goneIn (untilHello l).passes = []) : (untilHello l).Regular (untilHello l).cells :=
  { kept_untilHello l with
    owned := fun a ha x hx => (hlists a ha x hx).1
    few := fun a ha x hx => (hlists a ha x hx).2
    sendable := hsend
    inOrder := horder
    parted := fun hne => absurd hgone hne }

end FloodPeer
