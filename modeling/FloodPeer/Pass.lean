/-
FloodPeer/Pass.lean

One pass of `flood_message_to_neighbours` over a list that is in order.

The recipients that are due are in front.  A turn sends the datum to the first
of them and puts it back behind all that are still due (`Underway.turn`), so
the cursor, which goes on to the next cell, meets each of them once and stops
behind the last.  What is sent is not always the datum: `send_data` reads the
length byte as a `char` (`passesExactly_iff`).
-/
import FloodPeer.Advertisement
import FloodPeer.Turn
import FloodPeer.FirstRecipients
import FloodPeer.Sending

namespace FloodPeer

open Octets StateLogic

/-- A list of recipients in order, at the time `now`. -/
structure Scheduled (now : Int) (l : List NgbEntry) : Prop where
  rising : l.Pairwise fun x y => x.waitTime ≤ y.waitTime
  apart : Apart l
  few : ∀ x ∈ l, x.timesSent ≤ 3
  near : ∀ x ∈ l, now - 2 ^ 14 ≤ x.waitTime ∧ x.waitTime ≤ now + 2 ^ 14

/-- The entry `f` is in the cell `flood`.  Its data is a whole TLV, and its
recipients are neighbours. -/
structure World.Carries (w : World) (flood : Nat) (f : FloodEntry) : Prop where
  entry : w.floodAt flood = some f
  linked : f.symNeighbors.Linked w.next
  whole : f.data.length = (f.data.getD 1 0).toNat + 2
  owned : ∀ k ∈ f.waiting, w.neighbors.owns k
  writable : w.Writable f.waiting

/-- The recipient `x` has been sent the datum once more. -/
structure Again (now : Int) (x y : NgbEntry) : Prop where
  sym : y.sym = x.sym
  timesSent : y.timesSent = x.timesSent + 1
  later : now < y.waitTime

/-- The recipients that are due. -/
def due (now : Int) (l : List NgbEntry) : List NgbEntry := l.filter fun x => x.waitTime ≤ now

/-- The others. -/
def early (now : Int) (l : List NgbEntry) : List NgbEntry := l.filter fun x => now < x.waitTime

/-- The pass ends.  It has given the datum, whole and once, to the recipients that
were due, and nothing to anybody else. -/
structure PassesExactly (flood : Nat) (f : FloodEntry) (now : Int) (w w' : World) : Prop where
  sends : Broadcast ((due now f.symNeighbors.contents).map (·.sym)) [f.data] w w'
  list : ∃ l' again, w'.floodAt flood = some { f with symNeighbors := l' } ∧
    List.Forall₂ (Again now) (due now f.symNeighbors.contents) again ∧
    l'.contents.Perm (again ++ early now f.symNeighbors.contents) ∧
    (l'.contents.map (·.sym)).Perm f.waiting ∧
    (l'.contents.Pairwise fun x y => x.waitTime ≤ y.waitTime) ∧ Apart l'.contents

/-! ### Putting back -/

/-- A recipient that is due later than those of `due` is inserted behind them, at
its place. -/
theorem Inserts.behind {n : NgbEntry} {due tail ents : List (ListEntry NgbEntry)}
    {found : Option Nat} {rc : Int} (h : Inserts compareNS n found (due ++ tail) ents rc)
    (hfound : found ≠ none) (hnear : ∀ x ∈ due ++ tail, Near x.content n)
    (hrising : tail.Pairwise fun x y => x.content.waitTime ≤ y.content.waitTime)
    (hdue : ∀ x ∈ due, x.content.waitTime < n.waitTime) :
    ∃ a pre post, tail = pre ++ post ∧ (∀ x ∈ pre, x.content.waitTime < n.waitTime) ∧
      (∀ x ∈ post, n.waitTime ≤ x.content.waitTime) ∧
      ents = due ++ (pre ++ { addr := a, content := n } :: post) := by
  obtain ⟨ents, rfl, htail⟩ := h.append_left fun x hx =>
    (hnear x (List.mem_append_left _ hx)).compareNS_neg_iff.mpr (hdue x hx)
  have hnear : ∀ x ∈ tail, Near x.content n := fun x hx => hnear x (List.mem_append_right _ hx)
  have hnew : ∀ c ∈ tail.map (·.content), c.place ≠ n.place := by
    intro c hc
    obtain ⟨x, hx, rfl⟩ := List.mem_map.mp hc
    exact (hnear x hx).place
  have hclear : Inserted (tail.map (·.content)) n := by
    intro c hc
    obtain ⟨x, hx, rfl⟩ :=
      List.mem_map.mp ((List.dropWhile_suffix _).subset (List.mem_of_mem_head? hc))
    exact (hnear x hx).not_confused
  obtain ⟨a, pre, post, hsplit, hpre, hpost, rfl⟩ := htail.split hfound hnew hclear
  subst hsplit
  refine ⟨a, pre, post, rfl, fun x hx => ?_, fun x hx => ?_, rfl⟩
  · exact (hnear x (List.mem_append_left _ hx)).compareNS_neg_iff.mp (hpre x hx)
  · cases post with
    | nil => cases hx
    | cons z post =>
      have hz := (hnear z (List.mem_append_right _ List.mem_cons_self)).compareNS_pos_iff.mp
        (hpost z rfl)
      obtain ⟨hrest, -⟩ := List.pairwise_cons.mp (List.pairwise_append.mp hrising).2.1
      rcases List.mem_cons.mp hx with rfl | hx
      · exact hz
      · exact le_trans hz (hrest x hx)

theorem after_touchSyms {l : List NgbEntry} {w : World}
    (h : ∀ x ∈ l, w.neighbors.owns x.sym) : after (touchSyms l) w = w := by
  have hall : ¬ ∃ ent ∈ l, ¬ w.neighbors.owns ent.sym := fun ⟨x, hx, hnot⟩ => hnot (h x hx)
  unfold touchSyms
  rw [after_bind, value_get, after_get, after_ite, if_neg hall]
  rfl

/-- Nothing has been noted. -/
def SameLog (w w' : World) : Prop := w'.log = w.log

theorem sameLog_malloc : Keeps SameLog malloc := by
  intro w
  show (after malloc w).log = w.log
  cases hhead : w.mallocs.head with
  | true => rw [(malloc_of_true hhead).2]
  | false => rw [(malloc_of_false hhead).2]

theorem sameLog_addElem (l : CList NgbEntry) (n : NgbEntry) :
    Keeps SameLog (addElem compareNS malloc l n) :=
  keeps_addElem (R := SameLog) (fun _ => rfl) (fun _ _ _ h₁ h₂ => Eq.trans h₂ h₁) sameLog_malloc
    compareNS l n

/-- Putting a recipient back is not noted, as long as all are neighbours. -/
theorem log_requeue {w : World} {l : CList NgbEntry} {bound : Nat} (hl : l.Linked bound)
    (howned : ∀ x ∈ l.contents, w.neighbors.owns x.sym) (flood : Nat) (currentTime : Int)
    (tmp : Nat) (nw : NgbEntry) :
    (after (requeue flood currentTime l tmp nw) w).log = w.log := by
  have hsub := (@removeElem_spec _ compareNS _ _ hl nw).1.sublist
  have hfirst : after (touchSyms (walked (fun ent => compareNS ent nw = 0) l.contents)) w = w :=
    after_touchSyms fun x hx => howned x (walked_subset _ _ hx)
  unfold requeue
  generalize removeElem compareNS l nw = taken at hsub ⊢
  obtain ⟨l', temp⟩ := taken
  simp only [after_bind]
  rw [hfirst]
  cases temp with
  | none => rfl
  | some n =>
    have howned' : ∀ x ∈ l'.contents, w.neighbors.owns x.sym := fun x hx =>
      howned x ((hsub.map _).subset hx)
    simp only [after_bind, after_ite, after_pure, ite_self]
    generalize hu : after (waitTime (n.timesSent + 1)) (after (setSyms flood l') w) = u
    have hneighbors : u.neighbors = w.neighbors := by
      rw [← hu]
      exact (primitive_quiet.keeps_waitTime _ _).neighbors
    have hlog : u.log = w.log := by
      rw [← hu]
      unfold waitTime
      rw [after_ite]
      split <;> rfl
    rw [after_touchSyms fun x hx => hneighbors ▸ howned' x (walked_subset _ _ hx)]
    exact (sameLog_addElem l' _ u).trans hlog

/-! ### One turn -/

/-- Between two turns.  The recipients `due` are still to be sent the datum; those of
`tail` are not due, or not any more. -/
structure Underway (w : World) (flood : Nat) (f : FloodEntry) (now : Int)
    (due tail : List (ListEntry NgbEntry)) : Prop extends w.Carries flood f where
  allocates : w.Allocates
  entries : f.symNeighbors.entries = due ++ tail
  apart : Apart f.symNeighbors.contents
  rising : tail.Pairwise fun x y => x.content.waitTime ≤ y.content.waitTime
  still : ∀ x ∈ due, now - 2 ^ 14 ≤ x.content.waitTime ∧ x.content.waitTime ≤ now ∧
    x.content.timesSent ≤ 3
  rest : ∀ x ∈ tail, now < x.content.waitTime ∧ x.content.waitTime ≤ now + 2 ^ 14 ∧
    x.content.timesSent ≤ 4

section Turn

variable {w : World} {flood : Nat} {f : FloodEntry} {now : Int} {e : ListEntry NgbEntry}
  {due tail : List (ListEntry NgbEntry)}

/-- Those who are still to be sent the datum are different. -/
theorem Underway.distinct (h : Underway w flood f now due tail) :
    (due.map (·.content.sym)).Pairwise Distinct := by
  have hdistinct := h.writable.distinct
  unfold FloodEntry.waiting CList.contents at hdistinct
  rw [h.entries, List.map_map, List.map_append] at hdistinct
  exact hdistinct.sublist (List.sublist_append_left _ _)

/-- The recipient under the cursor is sent the datum, and the cursor goes on. -/
theorem Underway.sent (h : Underway w flood f now (e :: due) tail) {n : Nat}
    (hn : toChar (f.data.getD 1 0) + 2 = n) (hlength : n ≤ f.data.length) :
    ∃ u, Sends w u ∧ Boxes w u ∧ Broadcast [e.content.sym] [f.data.take n] w u ∧
      after (floodTurn flood now e.addr) w =
        after (requeue flood now f.symNeighbors e.addr e.content) u ∧
      value (floodTurn flood now e.addr) w = .goto ((due ++ tail).head?.map (·.addr)) := by
  have hentries : f.symNeighbors.entries = [] ++ e :: (due ++ tail) := h.entries
  have hunder := under_of_entries h.entry h.linked hentries
  have hmem : e.content ∈ f.symNeighbors.contents := (under_eq_some hunder).2
  have hown := h.owned _ (List.mem_map_of_mem hmem)
  obtain ⟨-, hdue, hfew⟩ := h.still e List.mem_cons_self
  have hfive : e.content.timesSent ≠ 5 := by omega
  have hsendable : f.Sendable := by
    unfold FloodEntry.Sendable
    rw [hn]
    exact Int.natCast_nonneg n
  have hone := (value_sendData_iff f e.content.sym.toNeighbor w).mpr hsendable
  have hsends := sends_sendData f.data e.content.sym.toNeighbor w
  have hgiven := broadcast_sendData hn hlength
    (h.writable.sublist (List.singleton_sublist.mpr (List.mem_map_of_mem hmem)))
  refine ⟨_, hsends, boxes_sendData _ _ w, hgiven, ?_, ?_⟩
  · rw [after_floodTurn hunder, if_neg hfive, if_pos hdue, if_pos hown, if_neg hone]
  · -- `remove_elem` finds the recipient
    have hspares : Spares f.symNeighbors.contents e.content := by
      intro x hx
      unfold CList.contents at hx
      rw [hentries, List.nil_append, List.map_cons, List.takeWhile_cons_of_neg (by simp)] at hx
      cases hx
    have hfound := ((@removeElem_spec _ compareNS _ _ h.linked e.content).1.own hspares h.apart).2
    rw [value_floodTurn hunder, if_neg hfive, if_pos hdue, if_pos hown, if_neg hone,
      value_requeue h.linked (hsends.toLater.elapsed.allocates h.allocates)
        (hfound.trans (find?_place h.apart hmem)), next?_eq h.linked hentries]

theorem Underway.near (h : Underway w flood f now (e :: due) tail) (r : Nat) :
    ∀ x ∈ due ++ tail, Near x.content (e.content.resent r now) := by
  intro x hx
  have hlo := lt_waitTime_resent e.content r now
  obtain ⟨-, -, hfew⟩ := h.still e List.mem_cons_self
  have hhi := waitTime_resent_le hfew r now
  have hplace : x.content.place ≠ e.content.place := by
    have hapart := h.apart
    unfold Apart CList.contents at hapart
    rw [h.entries, List.map_map, List.cons_append, List.map_cons, List.nodup_cons] at hapart
    intro heq
    apply hapart.1
    rw [Function.comp_apply, ← heq]
    exact List.mem_map_of_mem (f := NgbEntry.place ∘ fun x => x.content) hx
  have hbounds : now - 2 ^ 14 ≤ x.content.waitTime ∧ x.content.waitTime ≤ now + 2 ^ 14 := by
    rcases List.mem_append.mp hx with hdue | htail
    · obtain ⟨hlower, hupper, -⟩ := h.still x (List.mem_cons_of_mem _ hdue)
      exact ⟨hlower, by omega⟩
    · obtain ⟨hlower, hupper, -⟩ := h.rest x htail
      exact ⟨by omega, hupper⟩
  exact ⟨hplace, by omega, by omega⟩

/-- The recipient is put back behind those that are due. -/
theorem Underway.putBack (h : Underway w flood f now (e :: due) tail) {found : Option Nat}
    {r : Nat} {l' : CList NgbEntry} (hback : PutBack found r now e.content f.symNeighbors l')
    (hfound : found ≠ none) :
    ∃ a n pre post, Again now e.content n ∧ n.timesSent ≤ 4 ∧ n.waitTime ≤ now + 16 ∧
      tail = pre ++ post ∧ (∀ x ∈ pre, x.content.waitTime < n.waitTime) ∧
      (∀ x ∈ post, n.waitTime ≤ x.content.waitTime) ∧
      l'.entries = due ++ (pre ++ { addr := a, content := n } :: post) := by
  obtain ⟨-, hdue, hfew⟩ := h.still e List.mem_cons_self
  have hentries : f.symNeighbors.entries = e :: (due ++ tail) := h.entries
  have hsame : compareNS e.content e.content = 0 := compareNS_eq_zero_iff.mpr (.inl rfl)
  cases hback with
  | absent hall => exact absurd hsame (hall e (hentries ▸ List.mem_cons_self))
  | back n rest rc hremoves hinserts =>
    -- the first cell is the one that is taken out
    rw [hentries] at hremoves
    obtain ⟨rfl, htaken⟩ := hremoves.first_cell hsame
    obtain rfl := Option.some.inj htaken
    have hlater := lt_waitTime_resent e.content r now
    obtain ⟨a, pre, post, htail, hpre, hpost, hents⟩ := hinserts.behind hfound (h.near r) h.rising
      fun x hx =>
        lt_of_le_of_lt (h.still x (List.mem_cons_of_mem _ hx)).2.1 hlater
    exact ⟨a, e.content.resent r now, pre, post, ⟨rfl, rfl, hlater⟩,
      Nat.succ_le_succ hfew, waitTime_resent_le hfew _ now, htail, hpre, hpost, hents⟩

/-- **One turn** sends the datum to the first recipient that is due. -/
theorem Underway.turn (h : Underway w flood f now (e :: due) tail) {n : Nat}
    (hn : toChar (f.data.getD 1 0) + 2 = n) (hlength : n ≤ f.data.length) :
    let w' := after (floodTurn flood now e.addr) w
    value (floodTurn flood now e.addr) w = .goto ((due ++ tail).head?.map (·.addr)) ∧
      Broadcast [e.content.sym] [f.data.take n] w w' ∧
      ∃ l' x tail', Underway w' flood { f with symNeighbors := l' } now due tail' ∧
        Again now e.content x.content ∧ tail'.Perm (x :: tail) := by
  intro w'
  obtain ⟨u, hsends, hsent, hgiven, hafter, hvalue⟩ := h.sent hn hlength
  have halloc := hsends.toLater.elapsed.allocates h.allocates
  have hlinked := h.linked.mono hsends.next
  have howned : ∀ x ∈ f.symNeighbors.contents, u.neighbors.owns x.sym := fun x hx =>
    hsends.neighbors ▸ h.owned _ (List.mem_map_of_mem hx)
  have hboxes := filer_boxes.keeps_requeue flood now f.symNeighbors e.addr e.content u
  obtain ⟨l', found, hdataf, hback, hfound, hlinked'⟩ :=
    dataf_requeue hlinked flood now e.addr e.content
  have hlog := log_requeue hlinked howned flood now e.addr e.content
  have hmute := filer_mute.keeps_requeue flood now f.symNeighbors e.addr e.content u
  -- the recipient comes back somewhere among those that are not due
  obtain ⟨a, m, pre, post, hagain, hfew, hnear, htail, hpre, hpost, hents⟩ :=
    h.putBack hback fun hnone => Bool.false_ne_true ((hfound.mp hnone).symm.trans (halloc 0))
  rw [← hafter] at hboxes hdataf hlinked' hlog hmute
  have hperm : (pre ++ { addr := a, content := m } :: post).Perm
      ({ addr := a, content := m } :: tail) := htail ▸ List.perm_middle
  have hwaiting : (l'.contents.map (·.sym)).Perm f.waiting := by
    have hall : l'.entries.Perm ({ addr := a, content := m } :: (due ++ tail)) := by
      rw [hents]
      exact (hperm.append_left due).trans List.perm_middle
    unfold FloodEntry.waiting CList.contents
    rw [h.entries, List.map_map, List.map_map, List.cons_append, List.map_cons,
      Function.comp_apply, ← hagain.sym]
    exact hall.map _
  refine ⟨hvalue, hgiven.of_same hlog hmute.msgs, l', { addr := a, content := m }, _, ?_, hagain,
    hperm⟩
  · refine
      { entry := ?_, linked := hlinked', whole := h.whole, owned := ?_, writable := ?_, apart := ?_,
        allocates := hboxes.toElapsed.allocates halloc, entries := hents, rising := ?_,
        still := fun x hx => h.still x (List.mem_cons_of_mem _ hx), rest := ?_ }
    · rw [floodAt_of_relist hdataf, floodAt_of_dataf hsends.dataf, h.entry]
      simp
    · intro k hk
      rw [hboxes.neighbors, hsends.neighbors]
      exact h.owned k (hwaiting.subset hk)
    · exact (h.writable.of_boxes (hsent.trans hboxes)).perm hwaiting
    · have hplaces := hwaiting.map fun k => k.toNeighbor.place
      have hapart := h.apart
      unfold FloodEntry.waiting at hplaces
      rw [List.map_map, List.map_map] at hplaces
      exact hplaces.nodup_iff.mpr hapart
    · have hrising := h.rising
      rw [htail, List.pairwise_append] at hrising
      obtain ⟨hrising₁, hrising₂, hle⟩ := hrising
      refine List.pairwise_append.mpr ⟨hrising₁, List.pairwise_cons.mpr ⟨hpost, hrising₂⟩, ?_⟩
      intro x hx y hy
      rcases List.mem_cons.mp hy with rfl | hy
      · exact (hpre x hx).le
      · exact hle x hx y hy
    · intro x hx
      rcases List.mem_cons.mp (hperm.subset hx) with rfl | hx
      · exact ⟨hagain.later, le_trans hnear (by omega), hfew⟩
      · exact h.rest x hx

/-! ### The loop -/

/-- The cursor is on the first recipient that is due, or behind all of them. -/
def Cursor (due tail : List (ListEntry NgbEntry)) (cursor : Option Nat) : Prop :=
  match due with
  | [] => ∀ a ∈ cursor, ∃ x ∈ tail, x.addr = a
  | e :: _ => cursor = some e.addr

/-- What is left of the pass. -/
structure Ends (flood : Nat) (f : FloodEntry) (now : Int) (n : Nat)
    (due tail : List (ListEntry NgbEntry)) (w w' : World) : Prop where
  sends : Broadcast (due.map (·.content.sym)) [f.data.take n] w w'
  list : ∃ l' again, w'.floodAt flood = some { f with symNeighbors := l' } ∧
    List.Forall₂ (Again now) (due.map (·.content)) again ∧
    l'.contents.Perm (again ++ tail.map (·.content)) ∧
    (l'.contents.Pairwise fun x y => x.waitTime ≤ y.waitTime) ∧ Apart l'.contents

/-- Nobody is due any more. -/
theorem Underway.ends (h : Underway w flood f now [] tail) (w' : World) (hlog : w'.log = w.log)
    (hmsgs : w'.msgs = w.msgs) (hdataf : w'.dataf = w.dataf) (n : Nat) :
    Ends flood f now n [] tail w w' where
  sends := broadcast_of_same hlog hmsgs (.inl rfl)
  list := by
    refine ⟨f.symNeighbors, [], ?_, .nil, ?_, ?_, h.apart⟩
    · rw [floodAt_of_dataf hdataf]
      exact h.entry
    · unfold CList.contents
      rw [h.entries]
      exact List.Perm.refl _
    · unfold CList.contents
      rw [h.entries]
      exact List.pairwise_map.mpr h.rising

/-- The cursor is on somebody who is not due, and the loop stops. -/
theorem Underway.stop (h : Underway w flood f now [] tail) (n : Nat) {fuel : Nat}
    (hfuel : 0 < fuel) {cursor : Option Nat} (hcursor : Cursor [] tail cursor) :
    Ends flood f now n [] tail w (after (floodLoop flood now fuel cursor) w) := by
  obtain ⟨fuel, rfl⟩ : ∃ k, fuel = k + 1 := ⟨fuel - 1, (Nat.sub_add_cancel hfuel).symm⟩
  cases cursor with
  | none => exact h.ends w rfl rfl rfl n
  | some a =>
    obtain ⟨x, hx, rfl⟩ := hcursor a rfl
    obtain ⟨hearly, -, hfew⟩ := h.rest x hx
    obtain ⟨pre, post, rfl⟩ := List.append_of_mem hx
    obtain ⟨hvalue, hafter⟩ := early_turn h.entry h.linked h.entries (by omega) hearly
    have hstop : after (floodLoop flood now (fuel + 1) (some x.addr)) w =
        { w with nexttime := min w.nexttime x.content.waitTime } := by
      rw [floodLoop, after_bind, hvalue, hafter]
      rfl
    rw [hstop]
    exact h.ends { w with nexttime := min w.nexttime x.content.waitTime } rfl rfl rfl n

/-- `send_data` fails at the first recipient, and the loop stops. -/
theorem Underway.refused (h : Underway w flood f now (e :: due) tail)
    (hneg : toChar (f.data.getD 1 0) + 2 < 0) {fuel : Nat} (hfuel : (e :: due).length < fuel)
    {cursor : Option Nat} (hcursor : Cursor (e :: due) tail cursor) :
    after (floodLoop flood now fuel cursor) w = after (note .fault) w := by
  have hentries : f.symNeighbors.entries = [] ++ e :: (due ++ tail) := h.entries
  have hunder := under_of_entries h.entry h.linked hentries
  have hown := h.owned _ (List.mem_map_of_mem (under_eq_some hunder).2)
  obtain ⟨-, hdue, hfew⟩ := h.still e List.mem_cons_self
  have hfive : e.content.timesSent ≠ 5 := by omega
  have hzero : value (sendData f.data e.content.sym.toNeighbor) w = 0 := by
    by_contra hone
    exact absurd ((value_sendData_iff f e.content.sym.toNeighbor w).mp hone) (not_le.mpr hneg)
  obtain ⟨fuel, rfl⟩ : ∃ k, fuel = k + 1 :=
    ⟨fuel - 1, (Nat.sub_add_cancel (Nat.lt_of_le_of_lt (Nat.zero_le _) hfuel)).symm⟩
  obtain rfl : cursor = some e.addr := hcursor
  rw [floodLoop, after_bind, value_floodTurn hunder, after_floodTurn hunder, if_neg hfive,
    if_neg hfive, if_pos hdue, if_pos hdue, if_pos hown, if_pos hown, if_pos hzero, if_pos hzero,
    after_sendData_of_negative hneg]
  rfl

/-- **The loop** ends.  The induction is on the recipients that are still due. -/
theorem Underway.loop (h : Underway w flood f now due tail) {n : Nat}
    (hn : toChar (f.data.getD 1 0) + 2 = n) (hlength : n ≤ f.data.length) {fuel : Nat}
    (hfuel : due.length < fuel) {cursor : Option Nat} (hcursor : Cursor due tail cursor) :
    Ends flood f now n due tail w (after (floodLoop flood now fuel cursor) w) := by
  induction due generalizing w f tail fuel cursor with
  | nil => exact h.stop n hfuel hcursor
  | cons e due ih =>
    obtain ⟨fuel, rfl⟩ : ∃ k, fuel = k + 1 :=
      ⟨fuel - 1, (Nat.sub_add_cancel (Nat.lt_of_le_of_lt (Nat.zero_le _) hfuel)).symm⟩
    obtain ⟨hvalue, hgiven, l', x, tail', hnext, hagain, hperm⟩ := h.turn hn hlength
    have hcursor' : Cursor due tail' ((due ++ tail).head?.map (·.addr)) := by
      cases due with
      | nil =>
        intro a ha
        obtain ⟨y, hy, rfl⟩ := Option.map_eq_some_iff.mp ha
        exact ⟨y, hperm.symm.subset (List.mem_cons_of_mem x (List.mem_of_mem_head? hy)), rfl⟩
      | cons => rfl
    obtain rfl : cursor = some e.addr := hcursor
    have hloop : after (floodLoop flood now (fuel + 1) (some e.addr)) w =
        after (floodLoop flood now fuel ((due ++ tail).head?.map (·.addr)))
          (after (floodTurn flood now e.addr) w) := by
      rw [floodLoop, after_bind, hvalue]
    have hrest := ih hnext hn hlength (Nat.lt_of_succ_lt_succ hfuel) hcursor'
    rw [hloop]
    obtain ⟨l'', again, hentry, hall, hperm', hrising, hapart⟩ := hrest.list
    have hkept : (again ++ tail'.map (·.content)).Perm
        (x.content :: again ++ tail.map (·.content)) :=
      ((hperm.map _).append_left again).trans List.perm_middle
    exact ⟨hgiven.append hrest.sends h.distinct, l'', x.content :: again, hentry, .cons hagain hall,
      hperm'.trans hkept, hrising, hapart⟩

end Turn

/-! ### A pass -/

/-- In a list that is in order the recipients that are due are in front. -/
theorem split_of_rising {l : List (ListEntry NgbEntry)} (now : Int)
    (h : l.Pairwise fun x y => x.content.waitTime ≤ y.content.waitTime) :
    l = l.filter (fun x => x.content.waitTime ≤ now) ++
      l.filter fun x => now < x.content.waitTime := by
  induction l with
  | nil => rfl
  | cons e rest ih =>
    obtain ⟨hfirst, hrest⟩ := List.pairwise_cons.mp h
    by_cases hdue : e.content.waitTime ≤ now
    · rw [List.filter_cons_of_pos (by simpa using hdue),
        List.filter_cons_of_neg (by simpa using hdue), List.cons_append, ← ih hrest]
    · have hearly : now < e.content.waitTime := not_le.mp hdue
      have hlater : ∀ x ∈ e :: rest, now < x.content.waitTime := by
        intro x hx
        rcases List.mem_cons.mp hx with rfl | hx
        · exact hearly
        · exact lt_of_lt_of_le hearly (hfirst x hx)
      rw [List.filter_eq_nil_iff.mpr fun x hx => by simpa using hlater x hx, List.nil_append,
        List.filter_eq_self.mpr fun x hx => by simpa using hlater x hx]

section Pass

variable {w : World} {flood : Nat} {f : FloodEntry} {now : Int}

/-- A pass begins with the cursor on the first recipient. -/
theorem World.Carries.underway (h : w.Carries flood f) (halloc : w.Allocates)
    (hl : Scheduled now f.symNeighbors.contents) :
    ∃ front back, Underway w flood f now front back ∧
      front.map (·.content) = due now f.symNeighbors.contents ∧
      back.map (·.content) = early now f.symNeighbors.contents ∧
      Cursor front back f.symNeighbors.first := by
  have hrising : f.symNeighbors.entries.Pairwise fun x y =>
      x.content.waitTime ≤ y.content.waitTime := by
    have hcontents := hl.rising
    unfold CList.contents at hcontents
    rwa [List.pairwise_map] at hcontents
  -- a sorted list begins with those that are due
  have hsplit := split_of_rising now hrising
  have hmem : ∀ x ∈ f.symNeighbors.entries, x.content ∈ f.symNeighbors.contents := fun x hx =>
    List.mem_map_of_mem hx
  refine ⟨_, _, { h with
    allocates := halloc, entries := hsplit, apart := hl.apart,
    rising := hrising.sublist List.filter_sublist, still := ?_, rest := ?_ }, ?_, ?_, ?_⟩
  · intro x hx
    obtain ⟨hx, hdue⟩ := List.mem_filter.mp hx
    exact ⟨(hl.near _ (hmem x hx)).1, of_decide_eq_true hdue, hl.few _ (hmem x hx)⟩
  · intro x hx
    obtain ⟨hx, hearly⟩ := List.mem_filter.mp hx
    exact ⟨of_decide_eq_true hearly, (hl.near _ (hmem x hx)).2,
      Nat.le_succ_of_le (hl.few _ (hmem x hx))⟩
  · unfold due CList.contents
    rw [List.filter_map]
    rfl
  · unfold early CList.contents
    rw [List.filter_map]
    rfl
  · have hfirst : f.symNeighbors.first = f.symNeighbors.entries.head?.map (·.addr) := rfl
    rw [hfirst]
    generalize f.symNeighbors.entries.filter (fun x => x.content.waitTime ≤ now) = front at hsplit ⊢
    cases front with
    | nil =>
      intro a ha
      obtain ⟨x, hx, rfl⟩ := Option.map_eq_some_iff.mp ha
      rw [hsplit] at hx
      exact ⟨x, List.mem_of_mem_head? hx, rfl⟩
    | cons e front =>
      rw [hsplit]
      rfl

theorem Underway.contents {front back : List (ListEntry NgbEntry)}
    (h : Underway w flood f now front back) :
    f.symNeighbors.contents = front.map (·.content) ++ back.map (·.content) := by
  unfold CList.contents
  rw [h.entries, List.map_append]

theorem sym_of_again {l again : List NgbEntry} (h : List.Forall₂ (Again now) l again) :
    again.map (·.sym) = l.map (·.sym) := by
  induction h with
  | nil => rfl
  | cons hfirst _ ih => rw [List.map_cons, List.map_cons, hfirst.sym, ih]

/-- The loop has sent the whole TLV to everybody who was due. -/
theorem Ends.passesExactly {front back : List (ListEntry NgbEntry)} {n : Nat} {v w' : World}
    (h : Ends flood f now n front back v w') (hlog : v.log = w.log) (hmsgs : v.msgs = w.msgs)
    (hsplit : f.symNeighbors.contents = front.map (·.content) ++ back.map (·.content))
    (hfront : front.map (·.content) = due now f.symNeighbors.contents)
    (hback : back.map (·.content) = early now f.symNeighbors.contents)
    (hwhole : front ≠ [] → f.data.take n = f.data) : PassesExactly flood f now w w' := by
  have hkeys : front.map (·.content.sym) = (due now f.symNeighbors.contents).map (·.sym) := by
    rw [← hfront, List.map_map]
    rfl
  have hgiven : Broadcast (front.map (·.content.sym)) [f.data] v w' := by
    by_cases hnone : front = []
    · subst hnone
      exact ⟨h.sends.log, nofun, h.sends.silent, h.sends.kept⟩
    · rw [← hwhole hnone]
      exact h.sends
  have hclock : Broadcast (front.map (·.content.sym)) [] w v :=
    broadcast_of_same hlog hmsgs (.inr rfl)
  have hsends := hclock.trans hgiven
  rw [List.nil_append, hkeys] at hsends
  obtain ⟨l', again, hentry, hagain, hperm, hrising, hapart⟩ := h.list
  have hsyms := sym_of_again hagain
  have hwaiting : (l'.contents.map (·.sym)).Perm f.waiting := by
    unfold FloodEntry.waiting
    rw [hsplit, List.map_append, ← hsyms, ← List.map_append]
    exact hperm.map _
  refine ⟨hsends, l', again, hentry, hfront ▸ hagain, ?_, hwaiting, hrising, hapart⟩
  rw [← hback]
  exact hperm

/-- **A pass transmits exactly what is due**, when `send_data` reads the length
byte as it is, or when nobody is due. -/
theorem passesExactly_iff (h : w.Carries flood f) (halloc : w.Allocates)
    (hl : Scheduled w.clock.head f.symNeighbors.contents) :
    PassesExactly flood f w.clock.head w (after (floodMessageToNeighbours flood) w) ↔
      ((∃ x ∈ f.symNeighbors.contents, x.waitTime ≤ w.clock.head) →
        (f.data.getD 1 0).toNat ≤ 127) := by
  have hv : (after getSeconds w).Carries flood f :=
    ⟨h.entry, h.linked, h.whole, h.owned, h.writable.distinct, h.writable.box⟩
  obtain ⟨front, back, hunder, hfront, hback, hcursor⟩ :=
    hv.underway ((quiet_getSeconds w).toLater.elapsed.allocates halloc) hl
  have hpass : after (floodMessageToNeighbours flood) w = after (floodLoop flood w.clock.head
      (2 * f.symNeighbors.entries.length + 1) f.symNeighbors.first) (after getSeconds w) := by
    unfold floodMessageToNeighbours
    rw [after_bind, after_bind, value_get, after_get]
    simp only [hv.entry]
    rfl
  have hfuel : front.length < 2 * f.symNeighbors.entries.length + 1 := by
    rw [hunder.entries, List.length_append]
    omega
  have hdue : (∃ x ∈ f.symNeighbors.contents, x.waitTime ≤ w.clock.head) ↔ front ≠ [] := by
    have hnil : front = [] ↔ due w.clock.head f.symNeighbors.contents = [] := by
      rw [← hfront, List.map_eq_nil_iff]
    unfold due at hnil
    rw [Ne, hnil, List.filter_eq_nil_iff]
    simp
  have hexact : ∀ {n w'}, Ends flood f w.clock.head n front back (after getSeconds w) w' →
      (front ≠ [] → f.data.take n = f.data) → PassesExactly flood f w.clock.head w w' :=
    fun hends hwhole => hends.passesExactly rfl rfl hunder.contents hfront hback hwhole
  rw [hpass, hdue]
  generalize 2 * f.symNeighbors.entries.length + 1 = fuel at hfuel ⊢
  generalize f.symNeighbors.first = cursor at hcursor ⊢
  cases front with
  | nil =>
    -- nobody is due, and nothing is sent
    have hends := hunder.stop 0 hfuel hcursor
    exact iff_of_true (hexact hends fun hne => absurd rfl hne) fun hne => absurd rfl hne
  | cons e front =>
    have hchar := toChar_eq (f.data.getD 1 0)
    have hwhole := h.whole
    constructor
    · intro hpasses _
      have hfirst : e.content.sym ∈ (due w.clock.head f.symNeighbors.contents).map (·.sym) := by
        rw [← hfront]
        exact List.mem_cons_self
      have hall := hpasses.sends.takes _ hfirst
      by_contra hlong
      by_cases hneg : toChar (f.data.getD 1 0) + 2 < 0
      · -- `send_data` fails at once
        obtain ⟨ext, hext, -, hclean⟩ := hpasses.sends.log
        rw [hunder.refused hneg hfuel hcursor] at hext
        have hfault : [Obs.fault] = ext := List.append_cancel_left hext
        exact hclean (hfault ▸ List.mem_singleton_self _)
      · -- too few bytes are sent
        obtain ⟨n, hn⟩ : ∃ n : Nat, toChar (f.data.getD 1 0) + 2 = n :=
          ⟨_, (Int.toNat_of_nonneg (not_lt.mp hneg)).symm⟩
        have hfew := (hunder.loop hn (by omega) hfuel hcursor).sends.takes _ List.mem_cons_self
        have hsame := congrArg List.length
          ((hall.relays.of_same rfl rfl).unique hfew.relays)
        rw [List.length_take] at hsame
        omega
    · intro hsize
      have hsize := hsize (List.cons_ne_nil e front)
      have hn : toChar (f.data.getD 1 0) + 2 = (f.data.length : Nat) := by omega
      apply hexact (hunder.loop hn (le_refl _) hfuel hcursor)
      intro _
      exact List.take_length

end Pass

/-- A datum of `size` bytes for two recipients; the first one is due at the time `10`. -/
def entryOf (size : UInt8) : FloodEntry where
  index := ⟨0, 0⟩
  data := 4 :: size :: List.replicate size.toNat 0
  symNeighbors :=
    { length := 2, last := some 5, entries :=
      [{ addr := 4, content := { sym := firstPtr, timesSent := 0, waitTime := 5 } },
        { addr := 5, content := { sym := secondPtr, timesSent := 1, waitTime := 20 } }] }

def entryWorld (size : UInt8) : World :=
  { pairAt 10 with
    next := 6
    dataf :=
      { length := 1, last := some 3, entries := [{ addr := 3, content := some (entryOf size) }] } }

theorem carries_entryWorld (size : UInt8) : (entryWorld size).Carries 3 (entryOf size) where
  entry := rfl
  linked := by
    refine ⟨?_, rfl, ?_⟩
    · show [4, 5].Nodup
      decide
    · show ∀ e ∈ (entryOf 0).symNeighbors.entries, e.addr < 6
      decide +kernel
  whole := by simp [entryOf]
  owned := by
    show ∀ k ∈ [firstPtr, secondPtr], (pairAt 10).neighbors.owns k
    decide +kernel
  writable :=
    { distinct := by
        refine List.pairwise_pair.mpr ⟨by decide +kernel, fun a ha => ?_⟩
        cases ha
      box := by
        intro k hk a ha
        have hnone : ∀ k ∈ [firstPtr, secondPtr], k.msg = none := by decide
        rw [hnone k hk] at ha
        cases ha }

theorem scheduled_entryWorld (size : UInt8) :
    Scheduled 10 (entryOf size).symNeighbors.contents where
  rising := by
    show List.Pairwise _ [_, _]
    decide
  apart := by
    show List.Nodup [_, _]
    decide +kernel
  few := by
    show ∀ x ∈ [_, _], _
    decide
  near := by
    show ∀ x ∈ [_, _], _
    decide

/-- Twelve bytes are sent as they are. -/
theorem passesExactly_short :
    PassesExactly 3 (entryOf 12) 10 (entryWorld 12)
      (after (floodMessageToNeighbours 3) (entryWorld 12)) :=
  (passesExactly_iff (carries_entryWorld 12) (fun _ => rfl) (scheduled_entryWorld 12)).mpr
    fun _ => by decide

/-- Of 255 bytes, and the two in front, one is sent; `send_data` does not fail. -/
theorem not_passesExactly_long :
    (entryWorld 255).Carries 3 (entryOf 255) ∧ (entryWorld 255).Allocates ∧
      Scheduled 10 (entryOf 255).symNeighbors.contents ∧ (entryOf 255).Sendable ∧
      ¬ PassesExactly 3 (entryOf 255) 10 (entryWorld 255)
        (after (floodMessageToNeighbours 3) (entryWorld 255)) := by
  refine ⟨carries_entryWorld 255, fun _ => rfl, scheduled_entryWorld 255, by decide, fun h => ?_⟩
  have hdue : due 10 (entryOf 255).symNeighbors.contents = [⟨firstPtr, 0, 5⟩] := by decide +kernel
  have hmem : firstPtr ∈ (due 10 (entryOf 255).symNeighbors.contents).map (·.sym) := by
    rw [hdue]
    exact List.mem_cons_self
  have hfew : Relays firstPtr [4] (entryWorld 255)
      (after (floodMessageToNeighbours 3) (entryWorld 255)) := by
    decide +kernel
  have hlen := congrArg List.length ((h.sends.takes _ hmem).relays.unique hfew)
  rw [(carries_entryWorld 255).whole] at hlen
  exact absurd hlen (by decide)

end FloodPeer
