/-
FloodPeer/Termination.lean

The loops of the program come to an end.

The walk of `flood_message_to_neighbours` goes along a list that it reorders:
a recipient that is due is taken out and may be put back behind the cursor.
What is put back is not due, so a cell is met at most twice in a pass
(`turnsLeft_floodTurn`), and the fuel of the model is enough
(`floodLoop_fuel`).  With the walk of the parser, which goes forward, no turn
of the main loop is ever stuck (`mainLoop_terminates`).
-/
import FloodPeer.Deadlines
import FloodPeer.Farewell
import Mathlib.Algebra.Order.BigOperators.Group.List

namespace FloodPeer

open Octets StateLogic Runs

/-! ### What is ahead of the cursor -/

/-- The turns that a recipient can take in a pass at `currentTime`. -/
def NgbEntry.turns (currentTime : Int) (ent : NgbEntry) : Nat :=
  if ent.waitTime ≤ currentTime then 2 else 1

/-- The turns for some cells. -/
def turnsFor (currentTime : Int) (l : List (ListEntry NgbEntry)) : Nat :=
  (l.map fun e => e.content.turns currentTime).sum

/-- The cells from the cursor on. -/
def ahead (l : List (ListEntry NgbEntry)) : Option Nat → List (ListEntry NgbEntry)
  | none => []
  | some tmp => l.dropWhile (·.addr ≠ tmp)

/-- The turns left for the entry in the cell `flood` of `DATAF`. -/
def World.turnsLeft (w : World) (flood : Nat) (currentTime : Int) (tmp : Option Nat) : Nat :=
  match w.floodAt flood with
  | none => 0
  | some f => turnsFor currentTime (ahead f.symNeighbors.entries tmp)

section Ahead

variable {currentTime : Int} {l l' : List (ListEntry NgbEntry)}

theorem turns_pos (currentTime : Int) (ent : NgbEntry) : 1 ≤ ent.turns currentTime := by
  unfold NgbEntry.turns
  split
  · exact one_le_two
  · exact le_refl _

theorem turns_of_due {ent : NgbEntry} (h : ent.waitTime ≤ currentTime) :
    ent.turns currentTime = 2 := if_pos h

/-- Who has just been sent the datum is not due. -/
theorem turns_resent (n : NgbEntry) (r : Nat) : (n.resent r currentTime).turns currentTime = 1 := by
  have hleast := least_le_waitOf (n.timesSent + 1) r
  have hpos : (1 : Int) ≤ least (n.timesSent + 1) := by
    unfold least
    rw [if_neg (Nat.succ_ne_zero _)]
    exact_mod_cast Nat.one_le_two_pow
  refine if_neg ?_
  show ¬ waitOf (n.timesSent + 1) r + currentTime ≤ currentTime
  omega

theorem turnsFor_cons (e : ListEntry NgbEntry) :
    turnsFor currentTime (e :: l) = e.content.turns currentTime + turnsFor currentTime l := rfl

theorem turnsFor_mono (h : l'.Sublist l) : turnsFor currentTime l' ≤ turnsFor currentTime l :=
  (h.map _).sum_le_sum fun _ _ => Nat.zero_le _

theorem turnsFor_le (l : List (ListEntry NgbEntry)) : turnsFor currentTime l ≤ 2 * l.length := by
  induction l with
  | nil => exact le_refl _
  | cons e rest ih =>
    have htwo : e.content.turns currentTime ≤ 2 := by
      unfold NgbEntry.turns
      split
      · exact le_refl _
      · exact one_le_two
    rw [turnsFor_cons, List.length_cons]
    omega

theorem ahead_cons_self {e : ListEntry NgbEntry} {tmp : Nat} (he : e.addr = tmp) :
    ahead (e :: l) (some tmp) = e :: l := by
  simp [ahead, he]

theorem ahead_cons_of_ne {e : ListEntry NgbEntry} {tmp : Nat} (he : e.addr ≠ tmp) :
    ahead (e :: l) (some tmp) = ahead l (some tmp) := by
  simp [ahead, he]

theorem ahead_sublist (l : List (ListEntry NgbEntry)) (tmp : Option Nat) :
    (ahead l tmp).Sublist l := by
  cases tmp with
  | none => exact List.nil_sublist _
  | some tmp => exact List.dropWhile_sublist _

theorem ahead_mono (h : l'.Sublist l) (tmp : Option Nat) :
    (ahead l' tmp).Sublist (ahead l tmp) := by
  cases tmp with
  | none => exact List.Sublist.refl _
  | some tmp =>
    induction h with
    | slnil => exact List.Sublist.refl _
    | cons e hrest ih =>
      by_cases he : e.addr = tmp
      · -- the cursor is on the cell that is gone
        rw [ahead_cons_self he]
        exact ((ahead_sublist _ _).trans hrest).trans (List.sublist_cons_self _ _)
      · rw [ahead_cons_of_ne he]
        exact ih
    | cons_cons e hrest ih =>
      by_cases he : e.addr = tmp
      · rw [ahead_cons_self he, ahead_cons_self he]
        exact hrest.cons_cons e
      · rw [ahead_cons_of_ne he, ahead_cons_of_ne he]
        exact ih

/-- A new cell is not under the cursor, and counts at most once. -/
theorem turnsFor_insert {pre post : List (ListEntry NgbEntry)} {x : ListEntry NgbEntry}
    {tmp : Option Nat} (hx : tmp ≠ some x.addr) :
    turnsFor currentTime (ahead (pre ++ x :: post) tmp) ≤
      turnsFor currentTime (ahead (pre ++ post) tmp) + x.content.turns currentTime := by
  cases tmp with
  | none => exact Nat.zero_le _
  | some tmp =>
    have hne : x.addr ≠ tmp := fun h => hx (congrArg some h.symm)
    induction pre with
    | nil =>
      rw [List.nil_append, List.nil_append, ahead_cons_of_ne hne]
      exact Nat.le_add_right _ _
    | cons e pre ih =>
      rw [List.cons_append, List.cons_append]
      by_cases he : e.addr = tmp
      · rw [ahead_cons_self he, ahead_cons_self he, turnsFor_cons, turnsFor_cons]
        -- both lists are counted whole
        have hperm : turnsFor currentTime (pre ++ x :: post) =
            turnsFor currentTime (x :: (pre ++ post)) := by
          unfold turnsFor
          exact (List.perm_middle.map _).sum_nat
        rw [hperm, turnsFor_cons]
        omega
      · rw [ahead_cons_of_ne he, ahead_cons_of_ne he]
        exact ih

end Ahead

section Cursor

variable {l : CList NgbEntry} {pre post : List (ListEntry NgbEntry)} {e : ListEntry NgbEntry}

theorem ahead_eq {bound : Nat} (hl : l.Linked bound) (hentries : l.entries = pre ++ e :: post) :
    ahead l.entries (some e.addr) = e :: post := by
  have hnodup := hl.nodup
  rw [hentries, List.map_append, List.nodup_append] at hnodup
  rw [hentries]
  refine (List.dropWhile_append_of_pos fun x hx => ?_).trans (ahead_cons_self rfl)
  exact decide_eq_true (hnodup.2.2 _ (List.mem_map_of_mem hx) _ (by simp))

theorem ahead_next {bound : Nat} (hl : l.Linked bound) (hentries : l.entries = pre ++ e :: post) :
    ahead l.entries (l.next? e.addr) = post := by
  rw [next?_eq hl hentries]
  cases post with
  | nil => rfl
  | cons x post =>
    refine @ahead_eq l (pre ++ [e]) post x bound hl ?_
    rw [hentries, List.append_assoc, List.singleton_append]

/-- The cell under the cursor, and those beside it. -/
theorem under_split {w : World} {flood tmp : Nat} {f : FloodEntry} {nw : NgbEntry}
    (h : w.under flood tmp = some (f, nw)) : w.floodAt flood = some f ∧
      ∃ pre e post, f.symNeighbors.entries = pre ++ e :: post ∧ e.addr = tmp ∧ e.content = nw := by
  obtain ⟨f', hf, hcell⟩ := Option.bind_eq_some_iff.mp h
  obtain ⟨e, he, heq⟩ := Option.map_eq_some_iff.mp hcell
  obtain ⟨rfl, rfl⟩ := Prod.mk.injEq .. ▸ heq
  obtain ⟨haddr, hmem⟩ := addr_of_cell? he
  obtain ⟨pre, post, hentries⟩ := List.append_of_mem hmem
  exact ⟨hf, pre, e, post, hentries, haddr, rfl⟩

end Cursor

/-! ### One turn -/

theorem value_floodTurn_absent {w : World} {flood tmp : Nat} (h : w.under flood tmp = none)
    (currentTime : Int) : value (floodTurn flood currentTime tmp) w = .stop := by
  unfold floodTurn
  rw [value_bind, value_get, after_get]
  cases hf : w.floodAt flood with
  | none => rfl
  | some f =>
    have hcell : f.symNeighbors.cell? tmp = none := by simpa [World.under, hf] using h
    simp only [hcell]
    rfl

theorem entries_sublist_iterate {l : CList NgbEntry} {bound : Nat} (hl : l.Linked bound)
    (peer : NeighborPtr) (n : Nat) : ((withoutPeer peer)^[n] l).entries.Sublist l.entries := by
  induction n generalizing l with
  | zero => exact List.Sublist.refl _
  | succ n ih =>
    rw [Function.iterate_succ_apply]
    exact (ih (linked_withoutPeer hl peer)).trans (removeElem_spec hl (ngbProbe peer)).1.sublist

/-- Who is given up is only taken out of lists. -/
theorem turnsLeft_handleInactive {w : World} (hr : w.Register) {flood : Nat} {f : FloodEntry}
    (hf : w.floodAt flood = some f) (sym : NeighborPtr) (currentTime : Int) (tmp : Option Nat) :
    (after (handleInactive sym) w).turnsLeft flood currentTime tmp ≤
      turnsFor currentTime (ahead f.symNeighbors.entries tmp) := by
  have hdataf : (after (handleInactive sym) w).dataf =
      if w.neighbors.owns sym then forgetPeer sym w.dataf else w.dataf := by
    rw [after_handleInactive]
    exact dataf_expire (show (after uninit w).dataf.Linked w.next from hr.linked) _ _ sym
  unfold World.turnsLeft
  by_cases hown : w.neighbors.owns sym
  · rw [if_pos hown] at hdataf
    rw [floodAt_of_relist hdataf, hf]
    exact turnsFor_mono (ahead_mono (entries_sublist_iterate (hr.lists flood f hf) sym _) tmp)
  · rw [if_neg hown] at hdataf
    rw [floodAt_of_dataf hdataf, hf]

/-- What is taken out is not behind a cell that compares equal. -/
theorem Removes.behind {α : Type} {compare : α → α → Int} {elem : α} {taken : Option α}
    {pre post rest : List (ListEntry α)} {e : ListEntry α}
    (h : Removes compare elem (pre ++ e :: post) rest taken) (he : compare e.content elem = 0) :
    ∃ front, rest = front ++ post := by
  generalize hl : pre ++ e :: post = l at h
  cases h with
  | absent hall => exact absurd he (hall e (by rw [← hl]; simp))
  | found pre₁ e₁ post₁ hsplit hpre =>
    rw [hsplit] at hl
    rcases List.append_eq_append_iff.mp hl with ⟨between, hpre₁, htail⟩ | ⟨between, -, htail⟩
    · cases between with
      | nil => exact ⟨pre₁, by rw [(List.cons.inj htail).2]⟩
      | cons b between =>
        obtain rfl := (List.cons.inj htail).1
        exact absurd he (hpre e (by rw [hpre₁]; simp))
    · cases between with
      | nil => exact ⟨pre₁, by rw [(List.cons.inj htail).2]⟩
      | cons b between =>
        refine ⟨pre₁ ++ between ++ [e], ?_⟩
        rw [(List.cons.inj htail).2]
        simp

/-- A due recipient under the cursor counts twice; what is put back, once. -/
theorem PutBack.turns {found : Option Nat} {r : Nat} {currentTime : Int}
    {l l' : CList NgbEntry} {bound bound' : Nat} {pre post : List (ListEntry NgbEntry)}
    {e : ListEntry NgbEntry} (h : PutBack found r currentTime e.content l l')
    (hl : l.Linked bound) (hl' : l'.Linked bound') (hentries : l.entries = pre ++ e :: post) :
    turnsFor currentTime (ahead l'.entries (l.next? e.addr)) ≤ turnsFor currentTime post + 1 := by
  have hown : compareNS e.content e.content = 0 := compareNS_eq_zero_iff.mpr (.inl rfl)
  cases h with
  | absent hall => exact absurd hown (hall e (by rw [hentries]; simp))
  | back n rest rc hremoves hinserts =>
    have hrest : turnsFor currentTime (ahead rest (l.next? e.addr)) ≤
        turnsFor currentTime post := by
      refine le_trans (turnsFor_mono (ahead_mono hremoves.sublist _)) (le_of_eq ?_)
      rw [ahead_next hl hentries]
    have hnodup := hl'.nodup
    obtain ⟨front, hfront⟩ := Removes.behind (hentries ▸ hremoves) hown
    generalize l'.entries = ents at hinserts hnodup ⊢
    cases hinserts with
    | failed => exact le_trans hrest (Nat.le_succ _)
    | clash => exact le_trans hrest (Nat.le_succ _)
    | inserted a pre₁ post₁ _ hsplit =>
      -- the cursor is on a cell that was there before
      have hcursor : l.next? e.addr ≠ some a := by
        rw [next?_eq hl hentries]
        intro hsome
        obtain ⟨y, hy, hya⟩ := Option.map_eq_some_iff.mp hsome
        have hmem : y ∈ pre₁ ++ post₁ := by
          rw [← hsplit, hfront]
          exact List.mem_append_right _ (List.mem_of_mem_head? hy)
        rw [(List.perm_middle.map _).nodup_iff, List.map_cons, List.nodup_cons] at hnodup
        exact hnodup.1 (List.mem_map.mpr ⟨y, hmem, hya⟩)
      refine le_trans (turnsFor_insert hcursor) ?_
      rw [turns_resent, ← hsplit]
      exact Nat.add_le_add_right hrest 1

/-- **One turn.**  The cursor comes closer to the end, whatever the allocator
does. -/
theorem turnsLeft_floodTurn {w : World} (hr : w.Register) {flood tmp : Nat}
    {currentTime : Int} {next : Option Nat}
    (h : value (floodTurn flood currentTime tmp) w = .goto next) :
    (after (floodTurn flood currentTime tmp) w).turnsLeft flood currentTime next <
      w.turnsLeft flood currentTime (some tmp) := by
  cases hunder : w.under flood tmp with
  | none =>
    rw [value_floodTurn_absent hunder] at h
    cases h
  | some x =>
    obtain ⟨f, nw⟩ := x
    rw [value_floodTurn hunder] at h
    rw [after_floodTurn hunder]
    obtain ⟨hf, pre, e, post, hentries, rfl, rfl⟩ := under_split hunder
    have hl := hr.lists flood f hf
    have hnow : w.turnsLeft flood currentTime (some e.addr) =
        e.content.turns currentTime + turnsFor currentTime post := by
      unfold World.turnsLeft
      rw [hf]
      show turnsFor currentTime (ahead f.symNeighbors.entries (some e.addr)) = _
      rw [ahead_eq hl hentries, turnsFor_cons]
    rw [hnow]
    by_cases hfive : e.content.timesSent = 5
    · rw [if_pos hfive] at h ⊢
      obtain rfl := Turn.goto.inj h
      refine lt_of_le_of_lt (turnsLeft_handleInactive hr hf _ _ _) ?_
      rw [ahead_next hl hentries]
      exact Nat.lt_add_of_pos_left (turns_pos _ _)
    rw [if_neg hfive] at h ⊢
    by_cases hdue : e.content.waitTime ≤ currentTime
    · rw [if_pos hdue] at h ⊢
      by_cases hown : w.neighbors.owns e.content.sym
      · rw [if_pos hown] at h ⊢
        by_cases hzero : value (sendData f.data e.content.sym.toNeighbor) w = 0
        · rw [if_pos hzero] at h
          cases h
        rw [if_neg hzero] at h ⊢
        have hsend := sends_sendData f.data e.content.sym.toNeighbor w
        have hboxes := boxes_sendData f.data e.content.sym.toNeighbor w
        generalize after (sendData f.data e.content.sym.toNeighbor) w = u at hsend hboxes h ⊢
        obtain ⟨l', found, hdataf, hback, -, hl'⟩ :=
          dataf_requeue (hl.mono hsend.next) flood currentTime e.addr e.content
        have hthen : (after (requeue flood currentTime f.symNeighbors e.addr e.content)
            u).floodAt flood = some { f with symNeighbors := l' } := by
          rw [floodAt_of_relist hdataf, floodAt_of_dataf hsend.dataf, hf]
          simp
        have hmem : e.content ∈ f.symNeighbors.contents :=
          List.mem_map_of_mem (by rw [hentries]; simp)
        rcases value_requeue_cases hl hmem flood currentTime e.addr u with hstop | hgoto
        · rw [hstop] at h
          cases h
        rw [hgoto] at h
        obtain rfl := Turn.goto.inj h
        have hturns := hback.turns hl hl' hentries
        unfold World.turnsLeft
        rw [hthen, turns_of_due hdue]
        show turnsFor currentTime (ahead l'.entries _) < _
        omega
      · rw [if_neg hown] at h
        cases h
    · rw [if_neg hdue] at h
      cases h

/-! ### Whole passes -/

/-- The loop with a cursor: one turn, and the rest. -/
theorem run_floodLoop (flood : Nat) (currentTime : Int) (fuel tmp : Nat) (w : World) :
    (floodLoop flood currentTime (fuel + 1) (some tmp)).run w =
      match value (floodTurn flood currentTime tmp) w with
      | .stop => ((), after (floodTurn flood currentTime tmp) w)
      | .goto next => (floodLoop flood currentTime fuel next).run
          (after (floodTurn flood currentTime tmp) w) := by
  show (match value (floodTurn flood currentTime tmp) w with
    | .stop => (pure () : Peer Unit)
    | .goto next => floodLoop flood currentTime fuel next).run
      (after (floodTurn flood currentTime tmp) w) = _
  cases value (floodTurn flood currentTime tmp) w with
  | stop => rfl
  | goto next => rfl

/-- More fuel than turns left changes nothing. -/
theorem floodLoop_fuel {w : World} (hw : w.Sound) (hr : w.Register) {flood fuel : Nat}
    {currentTime : Int} {tmp : Option Nat}
    (hfuel : w.turnsLeft flood currentTime tmp < fuel) (more : Nat) :
    (floodLoop flood currentTime (fuel + more) tmp).run w =
      (floodLoop flood currentTime fuel tmp).run w := by
  induction fuel generalizing w tmp with
  | zero => exact absurd hfuel (Nat.not_lt_zero _)
  | succ fuel ih =>
    rw [Nat.succ_add]
    cases tmp with
    | none => rfl
    | some tmp =>
      have hmove : Run Move.Does w [(w, .turn flood currentTime tmp)]
          (after (floodTurn flood currentTime tmp) w) := .single rfl
      obtain ⟨hw', hr'⟩ := register_of_run hmove hw hr
      rw [run_floodLoop, run_floodLoop]
      cases hturn : value (floodTurn flood currentTime tmp) w with
      | stop => rfl
      | goto next =>
        have hless := turnsLeft_floodTurn hr hturn
        exact ih hw' hr' (by omega)

/-- The program finishes its loops. -/
def Finishes (w w' : World) : Prop :=
  w.Sound → w.Register → w'.Sound ∧ w'.Register ∧ ∃ ext, w'.log = w.log ++ ext ∧ .stuck ∉ ext

theorem Finishes.refl (w : World) : Finishes w w := fun hw hr => ⟨hw, hr, [], by simp⟩

theorem Finishes.trans {u v w : World} (h₁ : Finishes u v) (h₂ : Finishes v w) :
    Finishes u w := by
  intro hw hr
  obtain ⟨hw₁, hr₁, e₁, hlog₁, hnone₁⟩ := h₁ hw hr
  obtain ⟨hw₂, hr₂, e₂, hlog₂, hnone₂⟩ := h₂ hw₁ hr₁
  refine ⟨hw₂, hr₂, e₁ ++ e₂, by rw [hlog₂, hlog₁, List.append_assoc], fun hstuck => ?_⟩
  exact (List.mem_append.mp hstuck).elim hnone₁ hnone₂

section Rules

variable {α β : Type}

theorem Finishes.bind {m : Peer α} {f : α → Peer β} (hm : Keeps Finishes m)
    (hf : ∀ a, Keeps Finishes (f a)) : Keeps Finishes (m >>= f) :=
  @Keeps.bind _ _ _ Finishes (fun _ _ _ => Finishes.trans) _ _ hm hf

theorem Finishes.pure (a : α) : Keeps Finishes (Pure.pure a : Peer α) := Finishes.refl

/-- What is made of moves, and does not parse. -/
theorem finishes_of_handled {m : Peer α} (hplays : Keeps (Plays anyTlv) m)
    (hhandled : Keeps Handled m) : Keeps Finishes m := by
  intro w hw hr
  obtain ⟨tr, hrun⟩ := (hplays w).run
  obtain ⟨hw', hr'⟩ := register_of_run hrun hw hr
  obtain ⟨ext, hlog, hnone⟩ := (hhandled w).log
  exact ⟨hw', hr', ext, hlog, fun hstuck => Bool.false_ne_true (hnone _ hstuck).symm⟩

end Rules

/-- With more fuel than turns left the loop of `flood_message_to_neighbours`
comes to its end. -/
theorem finishes_floodLoop {w : World} {flood fuel : Nat} {currentTime : Int}
    {tmp : Option Nat} (hfuel : w.turnsLeft flood currentTime tmp < fuel) :
    Finishes w (after (floodLoop flood currentTime fuel tmp) w) := by
  induction fuel generalizing w tmp with
  | zero => exact absurd hfuel (Nat.not_lt_zero _)
  | succ fuel ih =>
    cases tmp with
    | none => exact Finishes.refl w
    | some tmp =>
      intro hw hr
      have hturn : Finishes w (after (floodTurn flood currentTime tmp) w) :=
        finishes_of_handled (fun v => .of_move (.turn flood currentTime tmp) rfl nofun nofun)
          (Later.toHandled (later_floodTurn flood currentTime tmp)) w
      refine Finishes.trans hturn (?_ : Finishes _ _) hw hr
      show Finishes _ ((floodLoop flood currentTime (fuel + 1) (some tmp)).run w).2
      rw [run_floodLoop]
      cases hvalue : value (floodTurn flood currentTime tmp) w with
      | stop => exact Finishes.refl _
      | goto next =>
        have hless := turnsLeft_floodTurn hr hvalue
        exact ih (by omega)

theorem finishes_floodMessageToNeighbours (flood : Nat) :
    Keeps Finishes (floodMessageToNeighbours flood) := by
  intro w
  have hclock : Finishes w (after getSeconds w) :=
    finishes_of_handled plays_getSeconds (Quiet.handled primitive_quiet.onGetSeconds) w
  refine hclock.trans ?_
  unfold floodMessageToNeighbours
  rw [after_bind, after_bind, value_get, after_get]
  cases hf : (after getSeconds w).floodAt flood with
  | none =>
    exact finishes_of_handled (@plays_note _ .fault trivial)
      (Quiet.handled primitive_quiet.onFault) _
  | some f =>
    refine finishes_floodLoop ?_
    -- at the start every cell is ahead
    have hall : (after getSeconds w).turnsLeft flood (value getSeconds w) f.symNeighbors.first ≤
        2 * f.symNeighbors.entries.length := by
      unfold World.turnsLeft
      rw [hf]
      exact le_trans (turnsFor_mono (ahead_sublist _ _)) (turnsFor_le _)
    exact Nat.lt_succ_of_le hall

theorem finishes_floodMessages : Keeps Finishes floodMessages := by
  have hcells : ∀ l : List Nat, Keeps Finishes (floodCells l) := by
    intro l
    induction l with
    | nil => exact Finishes.pure _
    | cons cell rest ih => exact Finishes.bind (finishes_floodMessageToNeighbours cell) fun _ => ih
  exact Finishes.bind Finishes.refl fun _ => hcells _

/-! ### Turns of the main loop -/

theorem later_sendGoawayAsymetrical : Keeps Later sendGoawayAsymetrical := by
  have hloop : ∀ (msg : MessageH) (taille : Nat) (l : List NgbEntry) (count : Int),
      Keeps Later (goawayLoop msg taille l count) := by
    intro msg taille l
    induction l with
    | nil => exact fun _ => Later.pure _
    | cons ent rest ih => exact fun _ => Later.bind (later_expire _ _ _) fun _ => ih _
  have hfind := primitive_quiet.keeps_findBy primitive_quiet.keeps_isOld
  refine Later.bind Later.refl fun _ => Keeps.ite (fun _ => Later.pure _) fun _ => ?_
  refine Later.bind Later.refl fun _ => Later.bind (Quiet.later (hfind _)) fun sym => ?_
  refine Later.bind (Quiet.later primitive_quiet.onUninit) fun mem => ?_
  cases sym with
  | none => exact Later.bind (Quiet.later primitive_quiet.onFault) fun _ => Later.pure _
  | some sym => exact hloop _ _ _ _

theorem later_removeOldPotential : Keeps Later removeOldPotential := by
  have hloop : ∀ l : List NgbEntry, Keeps Later (potentialLoop l) := by
    intro l
    induction l with
    | nil => exact Later.pure _
    | cons ent rest ih => exact Later.bind (registrar_later.keeps_removePotential _) fun _ => ih
  have hfind := primitive_quiet.keeps_findBy primitive_quiet.keeps_isOld
  refine Later.bind Later.refl fun _ => Keeps.ite (fun _ => Later.pure _) fun _ => ?_
  refine Later.bind Later.refl fun _ => Later.bind (Quiet.later (hfind _)) fun sym => ?_
  cases sym with
  | none => exact Quiet.later primitive_quiet.onFault
  | some sym => exact hloop _

theorem later_helloTimer (nexthello : Int) : Keeps Later (helloTimer nexthello) := by
  refine Later.bind (Quiet.later primitive_quiet.onGetSeconds) fun _ => Keeps.ite (fun _ => ?_)
    fun _ => Later.pure _
  refine Later.bind Later.refl fun _ => Later.bind (Sends.later (sends_sendHelloEveryone _))
    fun _ => ?_
  refine Later.bind Later.refl fun _ => Later.bind (Sends.later (sends_sendSymetricalEveryone _))
    fun _ => ?_
  refine Later.bind (Quiet.later primitive_quiet.onGetSeconds) fun _ => ?_
  refine Later.bind later_sendGoawayAsymetrical fun _ => ?_
  refine Later.bind later_removeOldPotential fun _ => ?_
  refine Later.bind Later.refl fun _ => Keeps.ite (fun _ => ?_) fun _ => Later.pure _
  refine Later.bind Later.refl fun _ => ?_
  exact Later.bind (Sends.later (sends_sendShorthelloEveryone _)) fun _ => Later.pure _

/-- The walk of the parser goes forward, at least by the byte it has looked at. -/
theorem stuck_not_mem_steps (body : Mem) (bodyLength fuel pos : Nat)
    (hfuel : bodyLength ≤ pos + fuel) : Step.stuck ∉ steps body bodyLength fuel pos := by
  induction fuel generalizing pos with
  | zero =>
    rw [steps, if_neg (by omega)]
    exact List.not_mem_nil
  | succ fuel ih =>
    rw [steps]
    split
    · have hpad := ih (pos + 1) (by omega)
      have hnext := ih (pos + ((body (pos + 1)).toNat + 2)) (by omega)
      by_cases hzero : body pos = 0
      · rw [if_pos hzero]
        simpa using hpad
      · -- two looks, and perhaps a TLV, before the rest of the walk
        rw [if_neg hzero]
        by_cases hlong : ((body (pos + 1)).toNat : Int) > (bodyLength : Int) - pos
        · rw [if_pos hlong]
          simp
        · rw [if_neg hlong]
          by_cases hknown : (body pos).toNat < nbTlv
          · rw [if_pos hknown]
            simpa using hnext
          · rw [if_neg hknown]
            simpa using hnext
    · exact List.not_mem_nil

theorem finishes_handleMessageH (msg : MessageH) (n : Nat) (client : Sockaddr) :
    Keeps Finishes (handleMessageH msg n (sockaddr6ToNeighbor client)) := by
  intro w hw hr
  have hplays : Plays anyTlv w (after (handleMessageH msg n (sockaddr6ToNeighbor client)) w) :=
    plays_handleMessageH (fun _ _ _ _ _ _ => trivial) n w
  obtain ⟨tr, hrun⟩ := hplays.run
  obtain ⟨hw', hr'⟩ := register_of_run hrun hw hr
  have hparsed := parsed_handleMessageH msg n (sockaddr6ToNeighbor client) w
  have helapsed : Elapsed w (after (handleMessageH msg n (sockaddr6ToNeighbor client)) w) :=
    elapsed_of_run hrun
  refine ⟨hw', hr', _, log_eq_since helapsed.log, fun hstuck => ?_⟩
  have hmem : Obs.stuck ∈ (w.since (after (handleMessageH msg n
      (sockaddr6ToNeighbor client)) w)).filter Obs.ofParser := List.mem_filter.mpr ⟨hstuck, rfl⟩
  rw [hparsed] at hmem
  split at hmem
  · obtain ⟨s, hs, ho⟩ := List.mem_flatMap.mp hmem
    cases s with
    | stuck => exact stuck_not_mem_steps _ _ _ _ (by omega) hs
    | look pos k => simp [Step.obs] at ho
    | tlv type length pos value => simp [Step.obs] at ho
  · cases hmem

theorem finishes_readDescriptors (wake : Wake) (m : MainState) :
    Keeps Finishes (readDescriptors wake m) := by
  have hreceive : ∀ r, Keeps Finishes (receive m r) := fun r =>
    Finishes.bind (finishes_handleMessageH _ _ _) fun _ => Finishes.pure _
  have hlocal : ∀ got, Keeps Finishes (localMessage got) := fun got =>
    finishes_of_handled (plays_localMessage got) (handled_localMessage got)
  refine Keeps.ite (fun _ => ?_) fun _ => Finishes.pure _
  rcases wake.soc with _ | r
  on_goal 1 => refine Finishes.bind (Finishes.pure m) fun m => ?_
  on_goal 2 => refine Finishes.bind (hreceive r) fun m => ?_
  all_goals
    cases wake.gui with
    | none => exact Finishes.pure m
    | some got => exact Finishes.bind (hlocal got) fun _ => Finishes.pure _

theorem finishes_setTime (f : World → Int) :
    Keeps Finishes (modify fun w => { w with nexttime := f w } : Peer PUnit) :=
  finishes_of_handled (plays_setTime f) fun w =>
    ⟨rfl, le_refl _, ⟨0, rfl⟩, ⟨0, rfl⟩, [], by simp⟩

theorem finishes_opening (wake : Wake) (m : MainState) : Keeps Finishes (opening wake m) := by
  refine Finishes.bind (finishes_setTime _) fun _ => ?_
  refine Finishes.bind (finishes_of_handled plays_getSeconds
    (Quiet.handled primitive_quiet.onGetSeconds)) fun now => ?_
  refine Finishes.bind Finishes.refl fun w => ?_
  refine Finishes.bind (finishes_of_handled (plays_note trivial)
    (Quiet.handled (quiet_note rfl))) fun _ => ?_
  exact Finishes.bind (finishes_setTime _) fun _ => finishes_readDescriptors wake m

theorem finishes_closing (m : MainState) : Keeps Finishes (closing m) := by
  refine Finishes.bind (finishes_of_handled (plays_helloTimer _)
    (Later.toHandled (later_helloTimer _))) fun _ => ?_
  refine Finishes.bind finishes_floodMessages fun _ => ?_
  have hflush :
      Keeps Finishes (MonadState.get >>= fun w : World => sendToEveryoneNow w.neighbors) :=
    finishes_of_handled (fun w => .of_move .flush rfl nofun nofun) fun w =>
      (sends_sendToEveryoneNow _ w).toLater.handled
  exact Finishes.bind (m := MonadState.get >>= fun w : World => sendToEveryoneNow w.neighbors)
    hflush fun _ => Finishes.pure _

theorem finishes_iteration (wake : Wake) (m : MainState) : Keeps Finishes (iteration wake m) := by
  intro w
  rw [after_iteration]
  exact (finishes_opening wake m w).trans (finishes_closing _ _)

theorem finishes_mainLoop (wakes : List Wake) (m : MainState) :
    Keeps Finishes (mainLoop wakes m) := by
  induction wakes generalizing m with
  | nil => exact Finishes.pure m
  | cons wake rest ih => exact Finishes.bind (finishes_iteration wake m) fun m => ih m

/-- **Termination.**  Every loop in every turn of the main loop comes to its
end, whatever is received, whatever the clock shows and whether or not there is
memory. -/
theorem mainLoop_terminates {w : World} (hinit : w.Initial) (wakes : List Wake) (m : MainState) :
    Obs.stuck ∉ (after (mainLoop wakes m) w).log := by
  obtain ⟨-, -, ext, hlog, hnone⟩ :=
    finishes_mainLoop wakes m w (sound_of_initial hinit) (register_of_initial hinit)
  rw [hlog, hinit.log, List.nil_append]
  exact hnone

/-- A Hello and a message for everybody, and then only time. -/
def spokenTo : List Wake :=
  [⟨true, some (.datagram (datagram (Tlv.shortHello 7).bytes) remote), some (some [97])⟩,
    idleWake, idleWake]

theorem mainLoop_terminates_said :
    (after (mainLoop spokenTo dueState) (World.boot fun k => k)).floods.length = 1 ∧
      Obs.stuck ∉ (after (mainLoop spokenTo dueState) (World.boot fun k => k)).log :=
  ⟨by decide +kernel, mainLoop_terminates (initial_boot _) _ _⟩

end FloodPeer
