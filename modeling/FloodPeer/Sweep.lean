/-
FloodPeer/Sweep.lean

What a pass of `flood_message_to_neighbours` does to `NEXTTIME`.

A pass lowers `NEXTTIME` to the deadline of the recipient at which it stops, and to
no other.  So it takes the deadlines of those who are in the list when the cursor
comes to the last one that is due (`seen`).  Nobody comes to that one again: when it
has been put back in front, `NEXTTIME` knows nothing of its deadline (`late`).
-/
import FloodPeer.Inactive

namespace FloodPeer

open Octets StateLogic Runs Backoff

/-! ### What leaves the time alone -/

/-- `NEXTTIME`, the clock and the random numbers are the same. -/
structure Timeless (w w' : World) : Prop where
  nexttime : w'.nexttime = w.nexttime
  clock : w'.clock = w.clock
  rands : w'.rands = w.rands

theorem Timeless.refl (w : World) : Timeless w w := ⟨rfl, rfl, rfl⟩

theorem Timeless.trans {u v w : World} (h₁ : Timeless u v) (h₂ : Timeless v w) : Timeless u w :=
  ⟨h₂.nexttime.trans h₁.nexttime, h₂.clock.trans h₁.clock, h₂.rands.trans h₁.rands⟩

section Timeless

variable {α β : Type}

theorem Timeless.pure (a : α) : Keeps Timeless (Pure.pure a : Peer α) := Timeless.refl

theorem Timeless.bind {m : Peer α} {f : α → Peer β} (hm : Keeps Timeless m)
    (hf : ∀ a, Keeps Timeless (f a)) : Keeps Timeless (m >>= f) :=
  @Keeps.bind _ _ _ Timeless (fun _ _ _ => Timeless.trans) _ _ hm hf

theorem timeless_note (o : Obs) : Keeps Timeless (note o) := fun _ => ⟨rfl, rfl, rfl⟩

theorem timeless_malloc : Keeps Timeless malloc := by
  intro w
  cases h : w.mallocs.head with
  | true =>
    rw [(malloc_of_true h).2]
    exact ⟨rfl, rfl, rfl⟩
  | false =>
    rw [(malloc_of_false h).2]
    exact ⟨rfl, rfl, rfl⟩

theorem timeless_touchSyms (l : List NgbEntry) : Keeps Timeless (touchSyms l) := by
  intro w
  rcases after_touchSyms_cases l w with h | h <;> rw [h]
  · exact .refl w
  · exact timeless_note .fault w

theorem timeless_setSyms (cell : Nat) (l : CList NgbEntry) : Keeps Timeless (setSyms cell l) :=
  fun _ => ⟨rfl, rfl, rfl⟩

theorem timeless_sendMessage (buf : MessageH) (taille : Nat) (key : Neighbor) :
    Keeps Timeless (sendMessage buf taille key) := by
  intro w
  obtain ⟨_, _, _, h⟩ := after_sendMessage_eq buf taille key w
  rw [h]
  exact ⟨rfl, rfl, rfl⟩

theorem timeless_sendData (tlv : List UInt8) (key : Neighbor) :
    Keeps Timeless (sendData tlv key) := by
  intro w
  obtain ⟨_, _, _, _, h⟩ := after_sendData_eq tlv key w
  rw [h]
  exact ⟨rfl, rfl, rfl⟩

theorem timeless_removeNeighborFromFlood (data : DataIndex) (peer : NeighborPtr) :
    Keeps Timeless (removeNeighborFromFlood data peer) := by
  have hget : Keeps Timeless (getFlood data) :=
    Timeless.bind .refl fun _ => Keeps.ite
      (fun _ => Timeless.bind (timeless_note _) fun _ => Timeless.pure _) fun _ => Timeless.pure _
  apply Timeless.bind hget
  intro ent
  split
  · exact Timeless.bind (timeless_touchSyms _) fun _ =>
      Timeless.bind (timeless_setSyms _ _) fun _ => Timeless.pure _
  · exact Timeless.pure _

theorem timeless_removeFromFloods (peer : NeighborPtr) (l : List (Option FloodEntry)) :
    Keeps Timeless (removeFromFloods peer l) := by
  induction l with
  | nil => exact Timeless.pure _
  | cons f rest ih =>
    cases f with
    | none => exact Timeless.bind (timeless_note _) fun _ => ih
    | some f => exact Timeless.bind (timeless_removeNeighborFromFlood _ _) fun _ => ih

theorem timeless_removeNeighborAux (key : Neighbor) (t : Tree) :
    Keeps Timeless (removeNeighborAux key t) := by
  have hfree : ∀ msg, Keeps Timeless (freeIfSet msg) := by
    intro msg w
    cases msg with
    | none => exact .refl w
    | some a => exact ⟨rfl, rfl, rfl⟩
  induction t with
  | null => exact Timeless.pure _
  | node k v left right ihl ihr =>
    refine Keeps.ite (fun _ => ?_) fun _ => Keeps.ite (fun _ => ?_) fun _ => ?_
    · exact Timeless.bind (hfree _) fun _ => Timeless.pure _
    · exact Timeless.bind ihl fun _ => Timeless.pure _
    · exact Timeless.bind ihr fun _ => Timeless.pure _

theorem timeless_handleInactive (sym : NeighborPtr) : Keeps Timeless (handleInactive sym) := by
  have hremove : Keeps Timeless (removeNeighborEverywhere sym) :=
    Timeless.bind .refl fun _ => Timeless.bind (timeless_removeFromFloods _ _) fun _ =>
      Timeless.bind (Timeless.bind .refl fun _ => Timeless.bind (timeless_removeNeighborAux _ _)
        fun _ _ => ⟨rfl, rfl, rfl⟩) fun _ => Timeless.pure _
  intro w
  have hmem : Timeless w (after uninit w) := ⟨rfl, rfl, rfl⟩
  rw [after_handleInactive, after_expire]
  split
  · exact hmem.trans ((timeless_note _ _).trans ((timeless_sendMessage _ _ _ _).trans (hremove _)))
  · exact hmem.trans (timeless_note _ _)

end Timeless

/-- Putting a recipient back takes one random number. -/
theorem time_requeue {l : CList NgbEntry} {nw n : NgbEntry}
    (hn : (removeElem compareNS l nw).2 = some n) (flood : Nat) (currentTime : Int) (tmp : Nat)
    (w : World) : let w' := after (requeue flood currentTime l tmp nw) w
    w'.nexttime = w.nexttime ∧ w'.clock = w.clock ∧ w'.rands = w.rands.tail := by
  intro w'
  have hwait : ∀ u : World, after (waitTime (n.timesSent + 1)) u =
      { u with rands := u.rands.tail } := fun _ => rfl
  have hadd : ∀ l' n', Keeps Timeless (addElem compareNS malloc l' n') :=
    keeps_addElem Timeless.refl (fun _ _ _ => Timeless.trans) timeless_malloc compareNS
  have hw' : w' = after (requeue flood currentTime l tmp nw) w := rfl
  unfold requeue at hw'
  generalize removeElem compareNS l nw = taken at hn hw'
  obtain ⟨l', temp⟩ := taken
  obtain rfl : temp = some n := hn
  simp only [after_bind, after_ite, after_pure, ite_self, hwait] at hw'
  have hfirst := (timeless_touchSyms (walked (fun ent => compareNS ent nw = 0) l.contents) w).trans
    (timeless_setSyms flood l' _)
  generalize after (setSyms flood l') (after (touchSyms _) w) = u at hfirst hw'
  have hlast : Timeless { u with rands := u.rands.tail } w' := by
    rw [hw']
    exact (timeless_touchSyms _ _).trans ((hadd _ _ _).trans (timeless_setSyms _ _ _))
  exact ⟨hlast.nexttime.trans hfirst.nexttime, hlast.clock.trans hfirst.clock,
    hlast.rands.trans (congrArg Stream'.tail hfirst.rands)⟩

/-! ### What a pass sees -/

/-- The last recipient that is due, when it is sent the datum: nobody comes to it
again. -/
def unwatched (due : List NgbEntry) : Option NgbEntry :=
  due.getLast?.filter fun x => x.timesSent ≠ 5

/-- Those who are given up. -/
def gone (due : List NgbEntry) : List (List Nat ×ₗ Nat) :=
  (due.filter fun x => x.timesSent = 5).map NgbEntry.place

/-- The recipients in the list when the cursor comes to the last one that is due, with
the random numbers `r`. -/
def seen (now : Int) (r : Stream' Nat) (due rest : List NgbEntry) : List NgbEntry :=
  (passed due).mapIdx (fun i x => x.resent (r.get i) now) ++ rest

/-- The last one, after it has been put back. -/
def late (now : Int) (r : Stream' Nat) (due : List NgbEntry) : Option NgbEntry :=
  (unwatched due).map fun x => x.resent (r.get (passed due).length) now

section Seen

variable (now : Int) (r : Stream' Nat) (due rest : List NgbEntry) {x y : NgbEntry}

theorem unwatched_cons_of_five (hx : x.timesSent = 5) : unwatched (x :: due) = unwatched due := by
  cases due with
  | nil => simp [unwatched, hx]
  | cons y due => rfl

theorem seen_cons_of_five (hx : x.timesSent = 5) :
    seen now r (x :: due) rest = seen now r due rest ∧ late now r (x :: due) = late now r due ∧
      gone (x :: due) = x.place :: gone due := by
  unfold seen late gone
  rw [passed_cons_of_five hx, unwatched_cons_of_five due hx, List.filter_cons_of_pos (by simp [hx])]
  exact ⟨rfl, rfl, rfl⟩

theorem seen_cons (hx : x.timesSent ≠ 5) :
    seen now r (x :: y :: due) rest = x.resent r.head now :: seen now r.tail (y :: due) rest ∧
      late now r (x :: y :: due) = late now r.tail (y :: due) := by
  unfold seen late
  rw [passed_cons hx, List.mapIdx_cons]
  exact ⟨rfl, rfl⟩

theorem seen_singleton (hx : x.timesSent ≠ 5) :
    seen now r [x] rest = rest ∧ late now r [x] = some (x.resent r.head now) := by
  refine ⟨rfl, ?_⟩
  simp [late, unwatched, hx, passed]

theorem gone_cons (hx : x.timesSent ≠ 5) : gone (x :: due) = gone due := by
  unfold gone
  rw [List.filter_cons_of_neg (by simp [hx])]

end Seen

/-! ### One pass -/

/-- The deadline is not taken for that of a probe. -/
def Unprobed (x : NgbEntry) : Prop := x.waitTime ≠ 0 → ¬ (65536 : Int) ∣ x.waitTime

theorem spares_of_told {l : List NgbEntry} (h : ∀ x ∈ l, Unprobed x) (peer : NeighborPtr) :
    Spares l (ngbProbe peer) := by
  intro x hx hconfused
  obtain ⟨-, hne, hdvd⟩ := hconfused
  refine h x ((List.takeWhile_prefix _).subset hx) hne ?_
  simpa [ngbProbe] using hdvd

/-- The recipients that are not due: the first one is due first, and soon. -/
structure Leads (now : Int) (rest : List (ListEntry NgbEntry)) : Prop where
  near : ∀ x ∈ rest.head?, x.content.waitTime ≤ now + 32768
  least : ∀ x ∈ rest.head?, ∀ y ∈ rest, x.content.waitTime ≤ y.content.waitTime

/-- Somebody is put back among them. -/
theorem Leads.put {now : Int} {n : NgbEntry} {rest rest' : List (ListEntry NgbEntry)}
    {found : Option Nat} {rc : Int} (h : Leads now rest)
    (hinserts : Inserts compareNS n found rest rest' rc) (hrc : rc ≠ 0)
    (hnear : ∀ x ∈ rest.head?, Near x.content n) (hn : n.waitTime ≤ now + 32768) :
    Leads now rest' ∧ ∃ x ∈ rest', x.content.waitTime ≤ n.waitTime := by
  rcases hinserts.first hrc hnear with ⟨x, hx, hlt, hhead⟩ | ⟨hle, a, rfl⟩
  · refine ⟨⟨?_, ?_⟩, x, List.mem_of_mem_head? hhead, hlt.le⟩
    · intro z hz
      obtain rfl := Option.some.inj (hhead.symm.trans hz)
      exact h.near x hx
    · intro z hz y hy
      obtain rfl := Option.some.inj (hhead.symm.trans hz)
      rcases hinserts.mem.mp hy with hold | ⟨-, b, -, rfl⟩
      · exact h.least x hx y hold
      · exact hlt.le
  · refine ⟨⟨?_, ?_⟩, _, List.mem_cons_self, le_refl _⟩
    · intro z hz
      obtain rfl := Option.some.inj hz
      exact hn
    · intro z hz y hy
      obtain rfl := Option.some.inj hz
      rcases List.mem_cons.mp hy with rfl | hy
      · exact le_refl _
      · cases rest with
        | nil => cases hy
        | cons x rest => exact le_trans (hle x rfl) (h.least x rfl y hy)

/-- What a pass over the entry `f` in the cell `flood` does.  It sees the recipients
`sees`; `last` has been put back after that, and those in the places `places` have been
given up. -/
structure Sweeps (flood : Nat) (f : FloodEntry) (sees : List NgbEntry) (last : Option NgbEntry)
    (places : List (List Nat ×ₗ Nat)) (w w' : World) : Prop where
  later : w'.nexttime ≤ w.nexttime
  taken : ∀ x ∈ sees, w'.nexttime ≤ x.waitTime
  reached : w'.nexttime = w.nexttime ∨ ∃ x ∈ sees, w'.nexttime = x.waitTime
  list : ∃ l', w'.floodAt flood = some { f with symNeighbors := l' } ∧
    (∀ x ∈ l'.contents, x ∈ sees ∨ x ∈ last) ∧
    ∀ y ∈ last, (∀ x ∈ sees, y.waitTime < x.waitTime) → y ∈ l'.contents
  others : ∀ a ≠ flood, ∀ g, w.floodAt a = some g → ∃ l',
    w'.floodAt a = some { g with symNeighbors := l' } ∧
      l'.contents = g.symNeighbors.contents.filter fun x => x.place ∉ places
  null : ∀ a, w.floodAt a = none → w'.floodAt a = none
  owns : ∀ k, w.neighbors.owns k → k.toNeighbor.place ∉ places → w'.neighbors.owns k
  clock : w'.clock = w.clock

section Pass

variable {w : World} {flood : Nat} {now : Int} {f : FloodEntry} {e : ListEntry NgbEntry}
  {due rest : List (ListEntry NgbEntry)} {last : Option NgbEntry}

/-- The pass stops at the first recipient that is not due, or at the end of the list. -/
theorem sweeps_stop (last : Option NgbEntry) {l' : CList NgbEntry} {bound : Nat}
    (hentry : w.floodAt flood = some { f with symNeighbors := l' }) (hl' : l'.Linked bound)
    (hmem : ∀ x ∈ rest.head?, x ∈ l'.entries)
    (hstop : ∀ x ∈ rest.head?, x.content.timesSent ≠ 5 ∧ now < x.content.waitTime)
    (hlead : Leads now rest) (hold : ∀ x ∈ l'.contents, x ∈ rest.map (·.content) ∨ x ∈ last)
    (hback : ∀ y ∈ last, (∀ x ∈ rest.map (·.content), y.waitTime < x.waitTime) →
      y ∈ l'.contents) (fuel : Nat) :
    let w' := after (floodLoop flood now (fuel + 1) (rest.head?.map (·.addr))) w
    Sweeps flood f (rest.map (·.content)) last [] w w' ∧ w'.rands = w.rands := by
  have hlist : ∀ t : Int, ({ w with nexttime := t } : World).floodAt flood =
      some { f with symNeighbors := l' } := fun _ => hentry
  have hothers : ∀ (t : Int) (a : Nat) (g : FloodEntry), w.floodAt a = some g →
      ∃ l', ({ w with nexttime := t } : World).floodAt a = some { g with symNeighbors := l' } ∧
        l'.contents = g.symNeighbors.contents.filter fun x =>
          x.place ∉ ([] : List (List Nat ×ₗ Nat)) :=
    fun _ a g hg => ⟨g.symNeighbors, hg, (List.filter_eq_self.mpr fun _ _ => by simp).symm⟩
  cases rest with
  | nil =>
    refine ⟨?_, rfl⟩
    exact
      { later := le_refl _
        taken := fun _ hx => nomatch hx
        reached := .inl rfl
        list := ⟨l', hentry, hold, hback⟩
        others := fun a _ g hg => hothers w.nexttime a g hg
        null := fun _ hnull => hnull
        owns := fun _ hk _ => hk
        clock := rfl }
  | cons x rest =>
    obtain ⟨hfive, hearly⟩ := hstop x rfl
    obtain ⟨pre, post, hentries⟩ := List.append_of_mem (hmem x rfl)
    obtain ⟨hvalue, hafter⟩ := early_turn hentry hl' hentries hfive hearly
    have hloop : after (floodLoop flood now (fuel + 1) (some x.addr)) w =
        { w with nexttime := min w.nexttime x.content.waitTime } := by
      rw [floodLoop, after_bind, hvalue, hafter]
      rfl
    rw [List.head?_cons, Option.map_some, hloop]
    refine ⟨?_, rfl⟩
    exact
      { later := min_le_left _ _
        taken := fun z hz => by
          obtain ⟨y, hy, rfl⟩ := List.mem_map.mp hz
          exact le_trans (min_le_right _ _) (hlead.least x rfl y hy)
        reached := by
          rcases min_choice w.nexttime x.content.waitTime with hmin | hmin
          · exact .inl hmin
          · exact .inr ⟨x.content, List.mem_cons_self, hmin⟩
        list := ⟨l', hlist _, hold, hback⟩
        others := fun a _ g hg => hothers _ a g hg
        null := fun _ hnull => hnull
        owns := fun _ hk _ => hk
        clock := rfl }

/-- The turn that gives the first recipient up, and the rest of the pass. -/
theorem Sweeps.of_inactive {sees : List NgbEntry} {places : List (List Nat ×ₗ Nat)} {w' : World}
    (h : Walking w flood now f (e :: due) rest) (hfive : e.content.timesSent = 5)
    (htold : ∀ a ≠ flood, ∀ g, w.floodAt a = some g → ∀ x ∈ g.symNeighbors.contents, Unprobed x)
    (hrest : Sweeps flood { f with symNeighbors := withoutPeer e.content.sym f.symNeighbors } sees
      last places (after (floodTurn flood now e.addr) w) w') :
    Sweeps flood f sees last (e.content.place :: places) w w' := by
  obtain ⟨-, hlists, -⟩ := h.inactive hfive
  have htime : Timeless w (after (floodTurn flood now e.addr) w) := by
    rw [after_floodTurn h.under, if_pos hfive]
    exact timeless_handleInactive e.content.sym w
  exact
    { later := le_of_le_of_eq hrest.later htime.nexttime
      taken := hrest.taken
      reached := hrest.reached.imp_left fun heq => heq.trans htime.nexttime
      list := hrest.list
      others := by
        intro a ha g hg
        have hleft := contents_withoutPeer (h.register.lists a g hg)
          (spares_of_told (htold a ha g hg) e.content.sym) (h.apart a g hg)
        obtain ⟨l', hl', hcontents⟩ := hrest.others a ha _ (by rw [hlists, hg]; rfl)
        refine ⟨l', hl', ?_⟩
        rw [hcontents, hleft, List.filter_filter]
        apply List.filter_congr
        intro x _
        rw [← Bool.decide_and, decide_eq_decide, List.mem_cons, not_or, and_comm]
        rfl
      null := fun a ha => hrest.null a (by rw [hlists, ha]; rfl)
      owns := by
        intro k hk hplace
        rw [List.mem_cons, not_or] at hplace
        refine hrest.owns k ?_ hplace.2
        rcases (Move.does_act (.turn flood now e.addr) w).owns h.sound h.register hk with
          hown | ⟨peer, heffect, hsame⟩
        · exact hown
        · rw [h.effect, if_pos hfive] at heffect
          obtain rfl := Effect.gone.inj heffect
          exact absurd hsame hplace.1
      clock := hrest.clock.trans htime.clock }

/-- The turn that sends the datum to the first recipient, and the rest of the pass. -/
theorem Sweeps.of_sent {sees sees' : List NgbEntry} {places : List (List Nat ×ₗ Nat)}
    {w' : World} (h : Walking w flood now f (e :: due) rest) (hfive : e.content.timesSent ≠ 5)
    {l' : CList NgbEntry}
    (hdataf : (after (floodTurn flood now e.addr) w).dataf =
      w.dataf.relist (fun a f => if a = flood then l' else f.symNeighbors))
    (htime : (after (floodTurn flood now e.addr) w).nexttime = w.nexttime)
    (hclock : (after (floodTurn flood now e.addr) w).clock = w.clock)
    (hrest : Sweeps flood { f with symNeighbors := l' } sees' last places
      (after (floodTurn flood now e.addr) w) w')
    (hsub : ∀ x ∈ sees', x ∈ sees) (hsees : ∀ x ∈ sees, ∃ y ∈ sees', y.waitTime ≤ x.waitTime) :
    Sweeps flood f sees last places w w' := by
  have hlists : ∀ a, (after (floodTurn flood now e.addr) w).floodAt a = (w.floodAt a).map fun f =>
      { f with symNeighbors := if a = flood then l' else f.symNeighbors } :=
    floodAt_of_relist hdataf
  obtain ⟨l'', hl'', hold, hback⟩ := hrest.list
  exact
    { later := le_of_le_of_eq hrest.later htime
      taken := by
        intro x hx
        obtain ⟨y, hy, hle⟩ := hsees x hx
        exact le_trans (hrest.taken y hy) hle
      reached := by
        rcases hrest.reached with heq | ⟨x, hx, heq⟩
        · exact .inl (heq.trans htime)
        · exact .inr ⟨x, hsub x hx, heq⟩
      list := ⟨l'', hl'', fun x hx => (hold x hx).imp_left (hsub x),
        fun y hy hlt => hback y hy fun x hx => hlt x (hsub x hx)⟩
      others := by
        intro a ha g hg
        have hsame : (after (floodTurn flood now e.addr) w).floodAt a = some g := by
          rw [hlists, hg, Option.map_some, if_neg ha]
        exact hrest.others a ha g hsame
      null := fun a ha => hrest.null a (by rw [hlists, ha]; rfl)
      owns := by
        intro k hk hplace
        refine hrest.owns k ?_ hplace
        rcases (Move.does_act (.turn flood now e.addr) w).owns h.sound h.register hk with
          hown | ⟨peer, heffect, -⟩
        · exact hown
        · rw [h.effect, if_neg hfive] at heffect
          split_ifs at heffect
      clock := hrest.clock.trans hclock }

/-- Sending the datum takes one random number. -/
theorem Walking.time_sent (h : Walking w flood now f (e :: due) rest)
    (hfive : e.content.timesSent ≠ 5) {next : Option Nat}
    (hgoto : value (floodTurn flood now e.addr) w = .goto next) :
    let w' := after (floodTurn flood now e.addr) w
    w'.nexttime = w.nexttime ∧ w'.clock = w.clock ∧ w'.rands = w.rands.tail := by
  intro w'
  have hdue := h.past e List.mem_cons_self
  have hown := h.owned e List.mem_cons_self
  have hone : value (sendData f.data e.content.sym.toNeighbor) w ≠ 0 := by
    intro hzero
    rw [value_floodTurn h.under, if_neg hfive, if_pos hdue, if_pos hown, if_pos hzero] at hgoto
    cases hgoto
  have hremoves := (@removeElem_spec _ compareNS _ _ h.linked e.content).1
  rw [h.entries] at hremoves
  have htaken := (hremoves.first_cell (compareNS_eq_zero_iff.mpr (.inl rfl))).2
  have hw' : w' = after (requeue flood now f.symNeighbors e.addr e.content)
      (after (sendData f.data e.content.sym.toNeighbor) w) := by
    show after (floodTurn flood now e.addr) w = _
    rw [after_floodTurn h.under, if_neg hfive, if_pos hdue, if_pos hown, if_neg hone]
  have hsend := timeless_sendData f.data e.content.sym.toNeighbor w
  obtain ⟨htime, hclock, hrands⟩ := time_requeue htaken flood now e.addr
    (after (sendData f.data e.content.sym.toNeighbor) w)
  rw [hw']
  exact ⟨htime.trans hsend.nexttime, hclock.trans hsend.clock,
    hrands.trans (congrArg Stream'.tail hsend.rands)⟩

/-- Somebody is put back in front of those that are not due. -/
theorem Walking.near_last (h : Walking w flood now f (e :: due) rest) (hlead : Leads now rest)
    (hfive : e.content.timesSent ≠ 5) (r : Nat) :
    ∀ x ∈ rest.head?, Near x.content (e.content.resent r now) := by
  intro x hx
  have hmem := List.mem_of_mem_head? hx
  have hahead := h.ahead x hx
  have hnear := hlead.near x hx
  have hlater := lt_waitTime_resent e.content r now
  have hlast := le_trans (le_latest e.content r now) (latest_le (n := 4)
    (by have := h.few e List.mem_cons_self; omega) now)
  exact ⟨h.place (List.mem_append_right _ hmem), by omega, by omega⟩

/-- **The loop**, with memory.  The induction is on the recipients that are still due. -/
theorem Walking.sweeps (h : Walking w flood now f due rest) (hlead : Leads now rest)
    (hsend : f.Sendable) (halloc : w.Allocates)
    (htold : (∃ x ∈ due, x.content.timesSent = 5) → ∀ a ≠ flood, ∀ g, w.floodAt a = some g →
      ∀ x ∈ g.symNeighbors.contents, Unprobed x) {fuel : Nat} (hfuel : due.length < fuel) :
    let w' := after (floodLoop flood now fuel ((due ++ rest).head?.map (·.addr))) w
    Sweeps flood f (seen now w.rands (due.map (·.content)) (rest.map (·.content)))
      (late now w.rands (due.map (·.content))) (gone (due.map (·.content))) w w' ∧
    w'.rands = w.rands.drop ((due.map (·.content)).countP fun x => x.timesSent ≠ 5) := by
  induction due generalizing w f rest fuel with
  | nil =>
    obtain ⟨fuel, rfl⟩ : ∃ k, fuel = k + 1 := ⟨fuel - 1, (Nat.sub_add_cancel hfuel).symm⟩
    refine sweeps_stop none h.entry h.linked (fun x hx => ?_) (fun x hx => ⟨?_, h.ahead x hx⟩) hlead
      (fun x hx => .inl ?_) (fun y hy => nomatch (show y ∈ none from hy)) fuel
    · rw [h.entries]
      exact List.mem_of_mem_head? hx
    · exact h.unhurried.bare rfl _ (Option.mem_map_of_mem _ hx)
    · unfold CList.contents at hx
      rwa [h.entries] at hx
  | cons e due ih =>
    obtain ⟨fuel, rfl⟩ : ∃ k, fuel = k + 1 :=
      ⟨fuel - 1, (Nat.sub_add_cancel (Nat.lt_of_le_of_lt (Nat.zero_le _) hfuel)).symm⟩
    have hmove := Move.does_act (.turn flood now e.addr) w
    have halloc' : (after (floodTurn flood now e.addr) w).Allocates :=
      hmove.elapsed.allocates halloc
    have hloop : ∀ next, value (floodTurn flood now e.addr) w = .goto next →
        after (floodLoop flood now (fuel + 1) (some e.addr)) w =
          after (floodLoop flood now fuel next) (after (floodTurn flood now e.addr) w) := by
      intro next hvalue
      rw [floodLoop, after_bind, hvalue]
    rw [List.cons_append, List.head?_cons, Option.map_some]
    by_cases hfive : e.content.timesSent = 5
    · obtain ⟨hvalue, hlists, hnext⟩ := h.inactive hfive
      have hrands : (after (floodTurn flood now e.addr) w).rands = w.rands := by
        rw [after_floodTurn h.under, if_pos hfive]
        exact (timeless_handleInactive e.content.sym w).rands
      have htold' := htold ⟨e, List.mem_cons_self, hfive⟩
      obtain ⟨hsweeps, hafter⟩ := ih hnext hlead hsend halloc' (fun _ a ha g hg x hx => by
        rw [hlists] at hg
        obtain ⟨g₀, hg₀, rfl⟩ := Option.map_eq_some_iff.mp hg
        exact htold' a ha g₀ hg₀ x
          ((contents_sublist_withoutPeer (h.register.lists a g₀ hg₀) _).subset hx))
        (Nat.lt_of_succ_lt_succ hfuel)
      obtain ⟨hseen, hlate, hgone⟩ := seen_cons_of_five now w.rands (due.map (·.content))
        (rest.map (·.content)) hfive
      rw [hrands] at hsweeps hafter
      rw [hloop _ hvalue, List.map_cons, hseen, hlate, hgone,
        List.countP_cons_of_neg (by simp [hfive])]
      exact ⟨.of_inactive h hfive htold' hsweeps, hafter⟩
    · rcases h.sent hfive with ⟨-, hfail⟩ |
        ⟨hvalue, l', found, rc, rest', hdataf, hl', hinserts, hrc, hnext⟩
      · exact absurd ⟨hsend, halloc⟩ hfail
      obtain ⟨htime, hclock, hrands⟩ := h.time_sent hfive hvalue
      have hentry : (after (floodTurn flood now e.addr) w).floodAt flood =
          some { f with symNeighbors := l' } := by
        rw [floodAt_of_relist hdataf, h.entry]
        simp
      have hnear := h.near_last hlead hfive w.rands.head
      rw [hloop _ hvalue, List.map_cons, gone_cons _ hfive,
        List.countP_cons_of_pos (by simp [hfive])]
      by_cases hdue : due = []
      · -- that was the last one
        subst hdue
        obtain ⟨fuel, rfl⟩ : ∃ k, fuel = k + 1 :=
          ⟨fuel - 1, (Nat.sub_add_cancel (Nat.lt_of_succ_lt_succ hfuel)).symm⟩
        obtain ⟨hseen, hlate⟩ := seen_singleton now w.rands (rest.map (·.content)) hfive
        obtain rfl : l'.entries = rest' := hl'
        have hlinked := (hmove.files h.sound h.register).1.lists flood _ hentry
        have hold : ∀ x ∈ l'.contents,
            x ∈ rest.map (·.content) ∨ x ∈ some (e.content.resent w.rands.head now) := by
          intro x hx
          obtain ⟨y, hy, rfl⟩ := List.mem_map.mp hx
          rcases hinserts.mem.mp hy with hold | ⟨-, a, -, rfl⟩
          · exact .inl (List.mem_map_of_mem hold)
          · exact .inr rfl
        have hback : ∀ y ∈ some (e.content.resent w.rands.head now),
            (∀ x ∈ rest.map (·.content), y.waitTime < x.waitTime) → y ∈ l'.contents := by
          intro y hy hlt
          obtain rfl := Option.some.inj hy
          rcases hinserts.first hrc hnear with ⟨x, hx, hlt', -⟩ | ⟨-, a, heq⟩
          · have hmem := List.mem_of_mem_head? hx
            exact absurd (hlt _ (List.mem_map_of_mem hmem)) (not_lt.mpr hlt'.le)
          · unfold CList.contents
            rw [heq]
            exact List.mem_cons_self
        obtain ⟨hsweeps, hafter⟩ := sweeps_stop (f := { f with symNeighbors := l' }) _ hentry
          hlinked (fun x hx => hinserts.mem.mpr (.inl (List.mem_of_mem_head? hx)))
          (fun x hx => ⟨h.unhurried.bare rfl _ (Option.mem_map_of_mem _ hx), h.ahead x hx⟩) hlead
          hold hback fuel
        rw [List.map_nil, hseen, hlate]
        exact ⟨.of_sent h hfive hdataf htime hclock hsweeps (fun _ hx => hx)
          fun x hx => ⟨x, hx, le_refl _⟩, hafter.trans hrands⟩
      · obtain ⟨y, due, rfl⟩ := List.exists_cons_of_ne_nil hdue
        have hlast := le_trans (le_latest e.content w.rands.head now) (latest_le (n := 4)
          (by have := h.few e List.mem_cons_self; omega) now)
        obtain ⟨hlead', x, hx, hle⟩ := hlead.put hinserts hrc hnear (by omega)
        obtain ⟨hsweeps, hafter⟩ := ih (hnext hdue) hlead' hsend halloc'
          (fun hfives a ha g hg x hx => by
            rw [floodAt_of_relist hdataf] at hg
            obtain ⟨g₀, hg₀, rfl⟩ := Option.map_eq_some_iff.mp hg
            dsimp only at hx
            rw [if_neg ha] at hx
            obtain ⟨z, hz, hzfive⟩ := hfives
            exact htold ⟨z, List.mem_cons_of_mem _ hz, hzfive⟩ a ha g₀ hg₀ x hx)
          (Nat.lt_of_succ_lt_succ hfuel)
        obtain ⟨hseen, hlate⟩ := seen_cons now w.rands (due.map (·.content)) (rest.map (·.content))
          (y := y.content) hfive
        rw [hrands] at hsweeps hafter
        rw [List.map_cons, hseen, hlate]
        refine ⟨.of_sent h hfive hdataf htime hclock hsweeps (fun z hz => ?_) fun z hz => ?_,
          hafter⟩
        · rcases List.mem_append.mp hz with hz | hz
          · exact List.mem_cons_of_mem _ (List.mem_append_left _ hz)
          · obtain ⟨z', hz', rfl⟩ := List.mem_map.mp hz
            rcases hinserts.mem.mp hz' with hold | ⟨-, a, -, rfl⟩
            · exact List.mem_cons_of_mem _ (List.mem_append_right _ (List.mem_map_of_mem hold))
            · exact List.mem_cons_self
        · rcases List.mem_cons.mp hz with rfl | hz
          · exact ⟨x.content, List.mem_append_right _ (List.mem_map_of_mem hx), hle⟩
          · refine ⟨z, ?_, le_refl _⟩
            rcases List.mem_append.mp hz with hz | hz
            · exact List.mem_append_left _ hz
            · obtain ⟨z', hz', rfl⟩ := List.mem_map.mp hz
              exact List.mem_append_right _ (List.mem_map_of_mem (hinserts.mem.mpr (.inl hz')))

end Pass

end FloodPeer
