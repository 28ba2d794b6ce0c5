/-
FloodPeer/Turn.lean

One turn of `flood_message_to_neighbours`.

The recipients that are due stand in front of the list.  As long as a turn finds
the cursor on the first cell, the recipient under it is the one that is taken
out, whoever else compares equal: it is given up (`first_inactive`), or it is sent
the datum and put back behind (`first_sent`).  The cursor goes to the cell that
was second.
-/
import FloodPeer.Backoff

namespace FloodPeer

open Octets StateLogic Runs Backoff

variable {l : CList NgbEntry} {pre post : List (ListEntry NgbEntry)} {e : ListEntry NgbEntry}

/-! ### Where the cursor goes -/

/-- The next cell. -/
theorem next?_eq {bound : Nat} (hl : l.Linked bound) (hentries : l.entries = pre ++ e :: post) :
    l.next? e.addr = post.head?.map (·.addr) := by
  have hnodup := hl.nodup
  rw [hentries, List.map_append, List.nodup_append] at hnodup
  have hdrop : l.entries.dropWhile (fun x => x.addr ≠ e.addr) = e :: post := by
    rw [hentries, List.dropWhile_append_of_pos, List.dropWhile_cons_of_neg (by simp)]
    intro x hx
    exact decide_eq_true (hnodup.2.2 _ (List.mem_map_of_mem hx) _ (by simp))
  unfold CList.next?
  rw [hdrop]
  cases post with
  | nil => rfl
  | cons x post => rfl

theorem under_of_entries {w : World} {flood bound : Nat} {f : FloodEntry}
    (hf : w.floodAt flood = some f) (hl : f.symNeighbors.Linked bound)
    (hentries : f.symNeighbors.entries = pre ++ e :: post) :
    w.under flood e.addr = some (f, e.content) := by
  have hcell := hl.cell?_eq (show e ∈ f.symNeighbors.entries by rw [hentries]; simp)
  unfold World.under
  rw [hf, Option.bind_some, hcell]
  rfl

section First

variable {w : World} {flood bound : Nat} {f : FloodEntry} {rest : List (ListEntry NgbEntry)}

/-- The cursor is on the first cell. -/
theorem under_first (hf : w.floodAt flood = some f) (hl : f.symNeighbors.Linked bound)
    (hentries : f.symNeighbors.entries = e :: rest) :
    w.under flood e.addr = some (f, e.content) :=
  under_of_entries hf hl (hentries.trans (List.nil_append _).symm)

theorem next?_first (hl : l.Linked bound) (hentries : l.entries = e :: rest) :
    l.next? e.addr = rest.head?.map (·.addr) :=
  next?_eq hl (hentries.trans (List.nil_append _).symm)

end First

/-- How a turn ends. -/
theorem value_floodTurn {w : World} {flood tmp : Nat} {f : FloodEntry} {nw : NgbEntry}
    (hunder : w.under flood tmp = some (f, nw)) (currentTime : Int) :
    value (floodTurn flood currentTime tmp) w =
      if nw.timesSent = 5 then .goto (f.symNeighbors.next? tmp)
      else if nw.waitTime ≤ currentTime then
        if w.neighbors.owns nw.sym then
          if value (sendData f.data nw.sym.toNeighbor) w = 0 then .stop
          else value (requeue flood currentTime f.symNeighbors tmp nw)
            (after (sendData f.data nw.sym.toNeighbor) w)
        else .stop
      else .stop := by
  obtain ⟨f', hf, hcell⟩ := Option.bind_eq_some_iff.mp hunder
  obtain ⟨⟨a, content⟩, he, heq⟩ := Option.map_eq_some_iff.mp hcell
  obtain ⟨rfl, rfl⟩ := Prod.mk.injEq .. ▸ heq
  unfold floodTurn
  rw [value_bind, value_get, after_get]
  simp only [hf, he]
  by_cases hfive : content.timesSent = 5
  · rw [if_pos hfive, if_pos hfive]
    rfl
  rw [if_neg hfive, if_neg hfive]
  by_cases hdue : content.waitTime ≤ currentTime
  · rw [if_pos hdue, if_pos (show currentTime ≥ content.waitTime from hdue), value_bind]
    rcases deref_cases content.sym w with ⟨hown, hvalue, hafter⟩ | ⟨hown, hvalue, hafter⟩
    · rw [hvalue, hafter, if_pos hown]
      simp only [value_bind]
      split <;> rfl
    · rw [hvalue, if_neg hown]
      rfl
  · rw [if_neg hdue, if_neg (show ¬ currentTime ≥ content.waitTime from hdue)]
    rfl

/-- Putting a recipient back, and how the turn ends. -/
theorem requeue_ends {bound : Nat} (hl : l.Linked bound) {nw n : NgbEntry}
    (hn : (removeElem compareNS l nw).2 = some n) (flood : Nat) (currentTime : Int) (tmp : Nat)
    (w : World) : ∃ found l' rc,
      Inserts compareNS (n.resent w.rands.head currentTime) found
        (removeElem compareNS l nw).1.entries l' rc ∧
      (found = none ↔ w.mallocs.head = false) ∧
      value (requeue flood currentTime l tmp nw) w =
        if rc = 0 then .stop else .goto (l.next? tmp) := by
  have hlinked := (@removeElem_spec _ compareNS _ _ hl nw).2
  unfold requeue
  generalize removeElem compareNS l nw = taken at hlinked hn ⊢
  obtain ⟨l', temp⟩ := taken
  obtain rfl : temp = some n := hn
  simp only [value_bind]
  have hwait : value (waitTime (n.timesSent + 1)) (after (setSyms flood l')
      (after (touchSyms (walked (fun ent => compareNS ent nw = 0) l.contents)) w)) =
        waitOf (n.timesSent + 1) w.rands.head := by
    rw [value_waitTime]
    show waitOf (n.timesSent + 1) (after (touchSyms _) w).rands.head = _
    rw [rands_touchSyms]
  rw [hwait]
  generalize hu : after (touchSyms _) (after (waitTime _) _) = u
  have hmallocs : u.mallocs = w.mallocs := by
    rw [← hu]
    exact (mallocs_touchSyms _ _).trans ((mallocs_waitTime _ _).trans (mallocs_touchSyms _ _))
  refine ⟨value malloc u, _, _, (@addElem_spec _ _ compareNS _ _ hlinked malloc
    (n.resent w.rands.head currentTime) u).1, ?_, ?_⟩
  · rw [malloc_eq_none_iff, hmallocs]
  · rw [value_ite]
    rfl

/-- With memory, the cursor goes on when the recipient has been found. -/
theorem value_requeue {w : World} {bound : Nat} (hl : l.Linked bound) (halloc : w.Allocates)
    {nw n : NgbEntry} (hn : (removeElem compareNS l nw).2 = some n) (flood : Nat)
    (currentTime : Int) (tmp : Nat) :
    value (requeue flood currentTime l tmp nw) w = .goto (l.next? tmp) := by
  obtain ⟨found, l', rc, hinserts, hfound, hvalue⟩ := requeue_ends hl hn flood currentTime tmp w
  have hrc : rc ≠ 0 := by
    rintro rfl
    cases hinserts with
    | failed hnone => exact absurd ((hfound.mp hnone).symm.trans (halloc 0)) Bool.false_ne_true
  rw [hvalue, if_neg hrc]

/-- A recipient of the list is found there, or one that compares equal; so the
cursor moves on. -/
theorem value_requeue_cases {bound : Nat} (hl : l.Linked bound) {nw : NgbEntry}
    (hmem : nw ∈ l.contents) (flood : Nat) (currentTime : Int) (tmp : Nat) (w : World) :
    value (requeue flood currentTime l tmp nw) w = .stop ∨
      value (requeue flood currentTime l tmp nw) w = .goto (l.next? tmp) := by
  obtain ⟨n, hn⟩ : ∃ n, (removeElem compareNS l nw).2 = some n := by
    have hremoves := (@removeElem_spec _ compareNS _ _ hl nw).1
    rw [← Option.isSome_iff_exists, hremoves.first.2, List.find?_isSome]
    exact ⟨nw, hmem, decide_eq_true (compareNS_eq_zero_iff.mpr (.inl rfl))⟩
  obtain ⟨-, -, rc, -, -, hvalue⟩ := requeue_ends hl hn flood currentTime tmp w
  rw [hvalue]
  exact ite_eq_or_eq _ _ _

/-! ### The new deadline -/

theorem waitOf_pos {n : Nat} (r : Nat) : 0 < waitOf n r := by
  refine lt_of_lt_of_le ?_ (least_le_waitOf n r)
  unfold least
  split
  · exact Int.one_pos
  · exact Int.pow_pos (by decide)

/-- The recipient that is put back is not due. -/
theorem lt_waitTime_resent (n : NgbEntry) (r : Nat) (currentTime : Int) :
    currentTime < (n.resent r currentTime).waitTime :=
  Int.lt_add_of_pos_left _ (waitOf_pos r)

theorem waitOf_lt_pow {n : Nat} (hn : 0 < n) (r : Nat) : waitOf n r < 2 ^ n := by
  obtain ⟨k, rfl⟩ : ∃ k, n = k + 1 := ⟨n - 1, (Nat.sub_add_cancel hn).symm⟩
  have hpow : 2 ^ (k + 1) - 2 ^ k = 2 ^ k := by
    rw [Nat.pow_succ, Nat.mul_two, Nat.add_sub_cancel]
  have hmod : r % 2 ^ k < 2 ^ k := Nat.mod_lt _ (Nat.two_pow_pos k)
  unfold waitOf
  rw [if_neg (Nat.succ_ne_zero k), Nat.add_sub_cancel, hpow]
  have hlt : r % 2 ^ k + 2 ^ k < 2 ^ (k + 1) := by
    rw [Nat.pow_succ, Nat.mul_two]
    exact Nat.add_lt_add_right hmod _
  exact_mod_cast hlt

/-- A new deadline is not far away. -/
theorem waitTime_resent_le {x : NgbEntry} (hx : x.timesSent ≤ 3) (r : Nat) (now : Int) :
    (x.resent r now).waitTime ≤ now + 16 := by
  have hwait : waitOf (x.timesSent + 1) r ≤ 16 := by
    calc waitOf (x.timesSent + 1) r
      _ ≤ 2 ^ (x.timesSent + 1) := (waitOf_lt_pow (Nat.succ_pos x.timesSent) r).le
      _ ≤ 2 ^ 4 := pow_le_pow_right₀ (by decide) (Nat.succ_le_succ hx)
      _ = 16 := rfl
  exact (Int.add_le_add_right hwait now).trans_eq (Int.add_comm 16 now)

/-! ### A recipient that is not due -/

/-- At a recipient that is not due the pass stops. -/
theorem early_turn {w : World} {flood bound : Nat} {currentTime : Int} {f : FloodEntry}
    (hf : w.floodAt flood = some f) (hl : f.symNeighbors.Linked bound)
    (hentries : f.symNeighbors.entries = pre ++ e :: post)
    (hfive : e.content.timesSent ≠ 5) (hearly : currentTime < e.content.waitTime) :
    value (floodTurn flood currentTime e.addr) w = .stop ∧
    after (floodTurn flood currentTime e.addr) w =
      { w with nexttime := min w.nexttime e.content.waitTime } := by
  have hunder := under_of_entries hf hl hentries
  rw [value_floodTurn hunder, after_floodTurn hunder, if_neg hfive, if_neg hfive,
    if_neg (not_le.mpr hearly), if_neg (not_le.mpr hearly)]
  exact ⟨rfl, rfl⟩

/-! ### The first cell -/

/-- What is found in the first cell is taken out of it. -/
theorem Removes.first_cell {rest l' : List (ListEntry NgbEntry)} {y : NgbEntry}
    {taken : Option NgbEntry} (h : Removes compareNS y (e :: rest) l' taken)
    (he : compareNS e.content y = 0) : l' = rest ∧ taken = some e.content := by
  generalize hl : e :: rest = l at h
  cases h with
  | absent hall => exact absurd he (hall e (hl ▸ List.mem_cons_self))
  | found pre x post hsplit hpre =>
    rw [hsplit] at hl
    cases pre with
    | nil =>
      obtain ⟨rfl, rfl⟩ := List.cons.inj hl
      exact ⟨rfl, rfl⟩
    | cons z pre =>
      obtain ⟨rfl, -⟩ := List.cons.inj hl
      exact absurd he (hpre e List.mem_cons_self)

section First

variable {w : World} {flood : Nat} {currentTime : Int} {f : FloodEntry}
  {rest : List (ListEntry NgbEntry)}

/-- Nobody else is taken for the recipient in the first cell. -/
theorem alone_first {bound : Nat} (hf : w.floodAt flood = some f)
    (hl : f.symNeighbors.Linked bound) (hentries : f.symNeighbors.entries = e :: rest) :
    Alone w (.turn flood currentTime e.addr) := by
  intro t ht
  obtain ⟨tmp, hmove, hunder, -⟩ := effect_resent ht
  obtain ⟨rfl, rfl, rfl⟩ := Move.turn.inj hmove
  obtain ⟨hflood, hrecipient⟩ := Prod.mk.inj <| Option.some.inj <|
    hunder.symm.trans (under_first hf hl hentries)
  rw [hflood, hrecipient]
  intro x hx
  unfold CList.contents at hx
  rw [hentries, List.map_cons, List.takeWhile_cons_of_neg (by simp)] at hx
  cases hx

/-- The recipient in the first cell is given up, and taken out of every list. -/
theorem first_inactive (currentTime : Int) (hr : w.Register)
    (hdistinct : (indices w.dataf.contents).Nodup) (hf : w.floodAt flood = some f)
    (hentries : f.symNeighbors.entries = e :: rest) (hfive : e.content.timesSent = 5)
    (hown : w.neighbors.owns e.content.sym) :
    value (floodTurn flood currentTime e.addr) w = .goto (rest.head?.map (·.addr)) ∧
    (∀ a, (after (floodTurn flood currentTime e.addr) w).floodAt a = (w.floodAt a).map fun f =>
      { f with symNeighbors := withoutPeer e.content.sym f.symNeighbors }) ∧
    (withoutPeer e.content.sym f.symNeighbors).entries = rest := by
  have hl := hr.lists flood f hf
  have hunder := under_first hf hl hentries
  refine ⟨?_, ?_, ?_⟩
  · rw [value_floodTurn hunder, if_pos hfive, next?_first hl hentries]
  · rw [after_floodTurn hunder, if_pos hfive, after_handleInactive]
    refine floodAt_of_forgetPeer hdistinct hr.linked ?_
    rw [dataf_expire (show (after uninit w).dataf.Linked w.next from hr.linked)]
    exact if_pos hown
  · have hremoves := (@removeElem_spec _ compareNS _ _ hl (ngbProbe e.content.sym)).1
    rw [hentries] at hremoves
    exact (hremoves.first_cell (compareNS_eq_zero_iff.mpr (.inl rfl))).1

/-- The recipient in the first cell is sent the datum and put back.  Otherwise the
pass stops. -/
theorem first_sent (hr : w.Register) (hf : w.floodAt flood = some f)
    (hentries : f.symNeighbors.entries = e :: rest) (hfive : e.content.timesSent ≠ 5)
    (hdue : e.content.waitTime ≤ currentTime) (hown : w.neighbors.owns e.content.sym) :
    (value (floodTurn flood currentTime e.addr) w = .stop ∧ ¬ (f.Sendable ∧ w.Allocates)) ∨
    (value (floodTurn flood currentTime e.addr) w = .goto (rest.head?.map (·.addr)) ∧
      ∃ l' found rc,
        (after (floodTurn flood currentTime e.addr) w).dataf =
          w.dataf.relist (fun a f => if a = flood then l' else f.symNeighbors) ∧
        Inserts compareNS (e.content.resent w.rands.head currentTime) found rest l'.entries rc ∧
        rc ≠ 0) := by
  have hl := hr.lists flood f hf
  have hunder := under_first hf hl hentries
  rw [value_floodTurn hunder, after_floodTurn hunder, if_neg hfive, if_neg hfive, if_pos hdue,
    if_pos hdue, if_pos hown, if_pos hown]
  by_cases hzero : value (sendData f.data e.content.sym.toNeighbor) w = 0
  · rw [if_pos hzero]
    refine .inl ⟨rfl, fun hsend => ?_⟩
    exact (value_sendData_iff f e.content.sym.toNeighbor w).mpr hsend.1 hzero
  rw [if_neg hzero, if_neg hzero]
  have hsends := sends_sendData f.data e.content.sym.toNeighbor w
  have hrands : (after (sendData f.data e.content.sym.toNeighbor) w).rands = w.rands := by
    obtain ⟨_, _, _, _, heq⟩ := after_sendData_eq f.data e.content.sym.toNeighbor w
    rw [heq]
  generalize after (sendData f.data e.content.sym.toNeighbor) w = u at hsends hrands ⊢
  have hsame : compareNS e.content e.content = 0 := compareNS_eq_zero_iff.mpr (.inl rfl)
  -- the first cell is the one that is taken out
  have hremoves := (@removeElem_spec _ compareNS _ _ hl e.content).1
  rw [hentries] at hremoves
  obtain ⟨hrest, htaken⟩ := hremoves.first_cell hsame
  obtain ⟨l', found, hdataf, hback, hfound, -⟩ :=
    dataf_requeue (hl.mono hsends.next) flood currentTime e.addr e.content
  have hinserts : ∃ rc,
      Inserts compareNS (e.content.resent w.rands.head currentTime) found rest l'.entries rc := by
    rw [← hrands]
    cases hback with
    | absent hall => exact absurd hsame (hall e (hentries ▸ List.mem_cons_self))
    | back n rest' rc hremoves' hinserts =>
      rw [hentries] at hremoves'
      obtain ⟨rfl, hn⟩ := hremoves'.first_cell hsame
      rw [Option.some.inj hn] at hinserts
      exact ⟨rc, hinserts⟩
  obtain ⟨rc, hinserts⟩ := hinserts
  obtain ⟨found', ents, rc', hinserts', hfound', hvalue⟩ :=
    requeue_ends hl htaken flood currentTime e.addr u
  rw [hrest, hrands] at hinserts'
  have hnext : f.symNeighbors.next? e.addr = rest.head?.map (·.addr) :=
    next?_first hl hentries
  by_cases hrc : rc' = 0
  · rw [if_pos hrc] at hvalue
    refine .inl ⟨hvalue, fun hsend => ?_⟩
    have halloc := hsends.toLater.elapsed.allocates hsend.2
    cases hvalue.symm.trans (value_requeue hl halloc htaken flood currentTime e.addr)
  · rw [if_neg hrc, hnext] at hvalue
    have hdataf' := hdataf
    rw [hsends.dataf] at hdataf'
    by_cases hnone : found = none
    · -- without memory only a recipient that compares equal keeps the pass going
      have hsame : l'.entries = rest := by
        generalize l'.entries = ents at hinserts
        cases hinserts with
        | failed => rfl
        | clash => rfl
        | inserted _ _ _ hsome => cases hnone.symm.trans hsome
      refine .inr ⟨hvalue, l', found, 2, hdataf', ?_, by decide⟩
      rw [hsame]
      cases hinserts' with
      | failed => exact absurd rfl hrc
      | clash pre x post hsplit hpre hx => exact .clash pre x post hsplit hpre hx
      | inserted _ _ _ hsome => cases (hfound'.mpr (hfound.mp hnone)).symm.trans hsome
    · refine .inr ⟨hvalue, l', found, rc, hdataf', hinserts, ?_⟩
      rintro rfl
      generalize l'.entries = ents at hinserts
      cases hinserts with
      | failed hno => exact hnone hno

end First

end FloodPeer
