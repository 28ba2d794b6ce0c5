/-
FloodPeer/Walk.lean

The cursor of `flood_message_to_neighbours` on its way through the recipients that
are due.

They stand in front of the list, and each turn takes the first one out.  What is
put back comes behind those that are still due, perhaps in front of all the
others, so the recipient at which the cursor comes to stand after the last one
that is due is not always the one that was there before the pass.  Which
recipients it can be is told by the list and the time alone (`Unhurried`).
-/
import FloodPeer.Turn

namespace FloodPeer

open Octets StateLogic Runs Backoff

/-! ### The recipients that are due -/

/-- The recipients that are due, in front of the list. -/
def ripe (now : Int) (l : List NgbEntry) : List NgbEntry := l.takeWhile fun x => x.waitTime ≤ now

/-- The recipients behind them. -/
def unripe (now : Int) (l : List NgbEntry) : List NgbEntry := l.dropWhile fun x => x.waitTime ≤ now

/-- The recipients that are due, and the others, in the list itself. -/
theorem entries_ripe (now : Int) (l : CList NgbEntry) :
    ∃ due rest, l.entries = due ++ rest ∧ due.map (·.content) = ripe now l.contents ∧
      rest.map (·.content) = unripe now l.contents := by
  refine ⟨l.entries.takeWhile fun x => x.content.waitTime ≤ now,
    l.entries.dropWhile fun x => x.content.waitTime ≤ now, (List.takeWhile_append_dropWhile).symm,
    ?_, ?_⟩
  · unfold ripe CList.contents
    rw [List.takeWhile_map]
    rfl
  · unfold unripe CList.contents
    rw [List.dropWhile_map]
    rfl

theorem mem_ripe {now : Int} {l : List NgbEntry} {x : NgbEntry} (hx : x ∈ ripe now l) :
    x.waitTime ≤ now :=
  of_decide_eq_true (List.all_eq_true.mp List.all_takeWhile x hx)

theorem ripe_subset (now : Int) (l : List NgbEntry) : ripe now l ⊆ l :=
  (List.takeWhile_prefix _).subset

theorem unripe_head {now : Int} {l : List NgbEntry} {x : NgbEntry} (hx : x ∈ (unripe now l).head?) :
    now < x.waitTime := by
  have hnot := List.head?_dropWhile_not (fun x : NgbEntry => decide (x.waitTime ≤ now)) l
  unfold unripe at hx
  rw [Option.mem_def.mp hx] at hnot
  exact not_le.mp (of_decide_eq_false (by simpa using hnot))

/-- Those in front of the last one that are sent the datum. -/
def passed (due : List NgbEntry) : List NgbEntry := due.dropLast.filter fun x => x.timesSent ≠ 5

theorem passed_cons_of_five {x : NgbEntry} {due : List NgbEntry} (hx : x.timesSent = 5) :
    passed (x :: due) = passed due := by
  cases due with
  | nil => rfl
  | cons y due =>
    unfold passed
    rw [List.dropLast_cons_cons, List.filter_cons_of_neg (by simp [hx])]

theorem passed_cons {x y : NgbEntry} {due : List NgbEntry} (hx : x.timesSent ≠ 5) :
    passed (x :: y :: due) = x :: passed (y :: due) := by
  unfold passed
  rw [List.dropLast_cons_cons, List.filter_cons_of_pos (by simp [hx])]

/-- The earliest deadline that a recipient can get at the time `now`. -/
def NgbEntry.soonest (x : NgbEntry) (now : Int) : Int := now + 2 ^ x.timesSent

/-- The latest one. -/
def NgbEntry.latest (x : NgbEntry) (now : Int) : Int := now + (2 ^ (x.timesSent + 1) - 1)

theorem soonest_le (x : NgbEntry) (r : Nat) (now : Int) :
    x.soonest now ≤ (x.resent r now).waitTime := by
  calc x.soonest now
    _ = least (x.timesSent + 1) + now := by rw [least_succ, Int.add_comm]; rfl
    _ ≤ waitOf (x.timesSent + 1) r + now := Int.add_le_add_right (least_le_waitOf _ r) now

theorem le_latest (x : NgbEntry) (r : Nat) (now : Int) :
    (x.resent r now).waitTime ≤ x.latest now := by
  have hlt := waitOf_lt_pow (Nat.succ_pos x.timesSent) r
  show waitOf (x.timesSent + 1) r + now ≤ now + (2 ^ (x.timesSent + 1) - 1)
  rw [Int.add_comm]
  exact Int.add_le_add_left (Int.le_sub_one_of_lt hlt) now

theorem latest_le {x : NgbEntry} {n : Nat} (hx : x.timesSent ≤ n) (now : Int) :
    x.latest now ≤ now + (2 ^ (n + 1) - 1) :=
  Int.add_le_add_left
    (Int.sub_le_sub_right (pow_le_pow_right₀ (by decide) (Nat.succ_le_succ hx)) 1) now

/-- The pass that begins at the time `now` with the recipients `due`, and with `next`
behind them, is over before it comes to a recipient of five transmissions
that is not due. -/
structure Unhurried (now : Int) (due : List NgbEntry) (next : Option NgbEntry) : Prop where
  /-- Deadlines that are compared are less than nine hours apart. -/
  near : passed due ≠ [] →
    (∀ x ∈ due.tail, now - 32737 < x.waitTime) ∧ ∀ x ∈ next, x.waitTime ≤ now + 32768
  /-- The cursor comes to `next`, -/
  bare : passed due = [] → ∀ x ∈ next, x.timesSent ≠ 5
  /-- or to a recipient that has been put back in front of it. -/
  first : passed due ≠ [] →
    (∃ c ∈ passed due, c.timesSent ≤ 3 ∧
      ∀ x ∈ next, x.timesSent = 5 → c.latest now ≤ x.waitTime) ∨
    ∃ x ∈ next, x.timesSent ≠ 5 ∧ x.waitTime < now + 16

instance (now : Int) (due : List NgbEntry) (next : Option NgbEntry) :
    Decidable (Unhurried now due next) :=
  decidable_of_iff (_ ∧ _ ∧ _)
    ⟨fun h => ⟨h.1, h.2.1, h.2.2⟩, fun h => ⟨h.near, h.bare, h.first⟩⟩

section Unhurried

variable {now : Int} {d : NgbEntry} {due : List NgbEntry} {next : Option NgbEntry}

/-- The first recipient is given up. -/
theorem Unhurried.tail_of_five (h : Unhurried now (d :: due) next) (hd : d.timesSent = 5) :
    Unhurried now due next := by
  have hpassed : passed (d :: due) = passed due := passed_cons_of_five hd
  refine ⟨fun hne => ?_, fun hnil => h.bare (hpassed.trans hnil), fun hne => ?_⟩
  · obtain ⟨hlower, hupper⟩ := h.near (hpassed ▸ hne)
    exact ⟨fun x hx => hlower x (List.mem_of_mem_tail hx), hupper⟩
  · rw [← hpassed]
    exact h.first (hpassed ▸ hne)

variable {n : NgbEntry}

/-- The first recipient is put back behind `next`. -/
theorem Unhurried.tail_kept (h : Unhurried now (d :: due) next) (hdue : due ≠ [])
    (hd : d.timesSent ≤ 4) (hhi : n.waitTime ≤ d.latest now)
    (hnext : ∃ x ∈ next, x.waitTime < n.waitTime) : Unhurried now due next := by
  obtain ⟨y, due, rfl⟩ := List.exists_cons_of_ne_nil hdue
  obtain ⟨x, rfl, hlt⟩ : ∃ x, next = some x ∧ x.waitTime < n.waitTime := hnext
  have hpassed : passed (d :: y :: due) = d :: passed (y :: due) := passed_cons (by omega)
  have hne : passed (d :: y :: due) ≠ [] := hpassed ▸ List.cons_ne_nil _ _
  -- where `d` is a reason, `x` is one now
  have hbefore : (∃ c ∈ passed (y :: due), c.timesSent ≤ 3 ∧
      ∀ x' ∈ some x, x'.timesSent = 5 → c.latest now ≤ x'.waitTime) ∨
        x.timesSent ≠ 5 ∧ x.waitTime < now + 16 := by
    have hall := h.first hne
    rw [hpassed] at hall
    rcases hall with ⟨c, hc, hthree, hlater⟩ | ⟨x', hx', hmild⟩
    · rcases List.mem_cons.mp hc with rfl | hc
      · have hsoon := latest_le hthree now
        refine .inr ⟨fun hfive => ?_, by omega⟩
        exact absurd (hlater x rfl hfive) (by omega)
      · exact .inl ⟨c, hc, hthree, hlater⟩
    · exact .inr (Option.some.inj hx' ▸ hmild)
  refine ⟨fun _ => ?_, fun hnil x' hx' => ?_, fun _ => ?_⟩
  · obtain ⟨hlower, hupper⟩ := h.near hne
    exact ⟨fun x hx => hlower x (List.mem_cons_of_mem _ hx), hupper⟩
  · obtain rfl := Option.some.inj hx'
    rcases hbefore with ⟨c, hc, -⟩ | ⟨hfive, -⟩
    · rw [hnil] at hc
      cases hc
    · exact hfive
  · exact hbefore.imp_right fun hmild => ⟨x, rfl, hmild⟩

/-- The first recipient is put back in front of `next`. -/
theorem Unhurried.tail_put (h : Unhurried now (d :: due) next) (hdue : due ≠ [])
    (hd : d.timesSent ≤ 4) (htimes : n.timesSent = d.timesSent + 1)
    (hlo : d.soonest now ≤ n.waitTime) (hhi : n.waitTime ≤ d.latest now)
    (hnext : ∀ x ∈ next, n.waitTime ≤ x.waitTime) : Unhurried now due (some n) := by
  obtain ⟨y, due, rfl⟩ := List.exists_cons_of_ne_nil hdue
  have hpassed : passed (d :: y :: due) = d :: passed (y :: due) := passed_cons (by omega)
  have hne : passed (d :: y :: due) ≠ [] := hpassed ▸ List.cons_ne_nil _ _
  -- a fifth transmission sets a deadline that is 16 seconds away, or more
  have hfifth : n.timesSent = 5 → now + 16 ≤ n.waitTime := by
    intro hfive
    have hfour : d.timesSent = 4 := by omega
    unfold NgbEntry.soonest at hlo
    rw [hfour] at hlo
    exact hlo
  have hbefore : (∃ c ∈ passed (y :: due), c.timesSent ≤ 3) ∨
      n.timesSent ≠ 5 ∧ n.waitTime < now + 16 := by
    have hall := h.first hne
    rw [hpassed] at hall
    rcases hall with ⟨c, hc, hthree, -⟩ | ⟨x, hx, -, hlt⟩
    · rcases List.mem_cons.mp hc with rfl | hc
      · have hsoon := latest_le hthree now
        exact .inr ⟨by omega, by omega⟩
      · exact .inl ⟨c, hc, hthree⟩
    · have hn := hnext x hx
      exact .inr ⟨fun hfive => absurd (hfifth hfive) (by omega), by omega⟩
  refine ⟨fun _ => ⟨fun x hx => (h.near hne).1 x (List.mem_cons_of_mem _ hx), fun x hx => ?_⟩,
    fun hnil x hx => ?_, fun _ => ?_⟩
  · obtain rfl := Option.some.inj hx
    have hlast := latest_le hd now
    omega
  · obtain rfl := Option.some.inj hx
    rcases hbefore with ⟨c, hc, -⟩ | ⟨hfive, -⟩
    · rw [hnil] at hc
      cases hc
    · exact hfive
  · rcases hbefore with ⟨c, hc, hthree⟩ | hmild
    · refine .inl ⟨c, hc, hthree, fun x hx hfive => ?_⟩
      obtain rfl := Option.some.inj hx
      have hsoon := latest_le hthree now
      have hlate := hfifth hfive
      omega
    · exact .inr ⟨n, rfl, hmild⟩

end Unhurried

/-! ### Putting back -/

/-- A recipient is put back in front of the others, or the first one stays. -/
theorem Inserts.first {n : NgbEntry} {rest rest' : List (ListEntry NgbEntry)}
    {found : Option Nat} {rc : Int} (h : Inserts compareNS n found rest rest' rc)
    (hrc : rc ≠ 0) (hnear : ∀ x ∈ rest.head?, Near x.content n) :
    (∃ x ∈ rest.head?, x.content.waitTime < n.waitTime ∧ rest'.head? = some x) ∨
      (∀ x ∈ rest.head?, n.waitTime ≤ x.content.waitTime) ∧
        ∃ a, rest' = { addr := a, content := n } :: rest := by
  cases h with
  | failed => exact absurd rfl hrc
  | clash pre e post hl hpre he =>
    subst hl
    cases pre with
    | nil =>
      rcases compareNS_eq_zero_iff.mp he with hsame | hconfused
      · exact absurd hsame (hnear e rfl).place
      · exact absurd hconfused (hnear e rfl).not_confused
    | cons x pre =>
      exact .inl ⟨x, rfl, (hnear x rfl).compareNS_neg_iff.mp (hpre x List.mem_cons_self), rfl⟩
  | inserted a pre post _ hl hpre hpost =>
    subst hl
    cases pre with
    | nil => exact .inr ⟨fun x hx => (hnear x hx).compareNS_pos_iff.mp (hpost x hx), a, rfl⟩
    | cons x pre =>
      exact .inl ⟨x, rfl, (hnear x rfl).compareNS_neg_iff.mp (hpre x List.mem_cons_self), rfl⟩

/-! ### Between two turns -/

/-- The pass over the entry `f` in the cell `flood`: the cursor is on the first one
of the recipients `due`, which are still to be met; those of `rest` are not due, or
not any more. -/
structure Walking (w : World) (flood : Nat) (now : Int) (f : FloodEntry)
    (due rest : List (ListEntry NgbEntry)) : Prop where
  sound : w.Sound
  register : w.Register
  apart : w.Apart
  entry : w.floodAt flood = some f
  entries : f.symNeighbors.entries = due ++ rest
  past : ∀ x ∈ due, x.content.waitTime ≤ now
  ahead : ∀ x ∈ rest.head?, now < x.content.waitTime
  few : ∀ x ∈ due, x.content.timesSent ≤ 5
  owned : ∀ x ∈ due, w.neighbors.owns x.content.sym
  distinct : (∃ x ∈ due, x.content.timesSent = 5) → (indices w.dataf.contents).Nodup
  unhurried : Unhurried now (due.map (·.content)) (rest.head?.map (·.content))

section Walking

variable {w : World} {flood : Nat} {now : Int} {f : FloodEntry} {e : ListEntry NgbEntry}
  {due rest : List (ListEntry NgbEntry)}

theorem Walking.linked (h : Walking w flood now f due rest) :
    f.symNeighbors.Linked w.next := h.register.lists flood f h.entry

theorem Walking.under (h : Walking w flood now f (e :: due) rest) :
    w.under flood e.addr = some (f, e.content) := under_first h.entry h.linked h.entries

/-- Another recipient has another place. -/
theorem Walking.place (h : Walking w flood now f (e :: due) rest) {x : ListEntry NgbEntry}
    (hx : x ∈ due ++ rest) : x.content.place ≠ e.content.place := by
  have hapart := h.apart flood f h.entry
  unfold FloodPeer.Apart CList.contents at hapart
  rw [h.entries, List.map_map, List.cons_append, List.map_cons, List.nodup_cons] at hapart
  intro heq
  apply hapart.1
  rw [Function.comp_apply, ← heq]
  exact List.mem_map_of_mem (f := NgbEntry.place ∘ fun x => x.content) hx

theorem Walking.effect (h : Walking w flood now f (e :: due) rest) :
    (Move.turn flood now e.addr).effect w =
      if e.content.timesSent = 5 then .gone e.content.sym
      else if f.Sendable then .resent ⟨flood, now, f, e.content⟩ else .nothing := by
  have hown := h.owned e List.mem_cons_self
  have hdue := h.past e List.mem_cons_self
  rw [effect_turn h.under, if_neg (not_not.mpr hown)]
  simp only [hdue, true_and]

/-- The others that are due are still neighbours after the turn. -/
theorem Walking.owned_after (h : Walking w flood now f (e :: due) rest) :
    ∀ x ∈ due, (after (floodTurn flood now e.addr) w).neighbors.owns x.content.sym := by
  intro x hx
  have hmove := Move.does_act (.turn flood now e.addr) w
  rcases hmove.owns h.sound h.register (h.owned x (List.mem_cons_of_mem _ hx)) with
    hown | ⟨peer, heffect, hplace⟩
  · exact hown
  · rw [h.effect] at heffect
    split_ifs at heffect
    obtain rfl := Effect.gone.inj heffect
    exact absurd hplace (h.place (List.mem_append_left _ hx))

/-- The next turn, when the lists are known. -/
theorem Walking.next (h : Walking w flood now f (e :: due) rest) {l' : CList NgbEntry}
    {rest' : List (ListEntry NgbEntry)}
    (hentry : (after (floodTurn flood now e.addr) w).floodAt flood =
      some { f with symNeighbors := l' })
    (hentries : l'.entries = due ++ rest') (hahead : ∀ x ∈ rest'.head?, now < x.content.waitTime)
    (hunhurried : Unhurried now (due.map (·.content)) (rest'.head?.map (·.content))) :
    Walking (after (floodTurn flood now e.addr) w) flood now { f with symNeighbors := l' }
      due rest' := by
  have hmove := Move.does_act (.turn flood now e.addr) w
  exact
    { sound := hmove.sound h.sound
      register := (hmove.files h.sound h.register).1
      apart := hmove.apart h.sound h.register h.apart
      entry := hentry
      entries := hentries
      past := fun x hx => h.past x (List.mem_cons_of_mem _ hx)
      ahead := hahead
      few := fun x hx => h.few x (List.mem_cons_of_mem _ hx)
      owned := h.owned_after
      distinct := fun ⟨x, hx, hfive⟩ => hmove.distinct h.sound h.register
        (fun _ hsay => nomatch hsay) (h.distinct ⟨x, List.mem_cons_of_mem _ hx, hfive⟩)
      unhurried := hunhurried }

/-- **The first recipient is given up.** -/
theorem Walking.inactive (h : Walking w flood now f (e :: due) rest)
    (hfive : e.content.timesSent = 5) :
    value (floodTurn flood now e.addr) w = .goto ((due ++ rest).head?.map (·.addr)) ∧
    (∀ a, (after (floodTurn flood now e.addr) w).floodAt a = (w.floodAt a).map fun f =>
      { f with symNeighbors := withoutPeer e.content.sym f.symNeighbors }) ∧
    Walking (after (floodTurn flood now e.addr) w) flood now
      { f with symNeighbors := withoutPeer e.content.sym f.symNeighbors } due rest := by
  obtain ⟨hvalue, hlists, hrest⟩ := first_inactive now h.register
    (h.distinct ⟨e, List.mem_cons_self, hfive⟩) h.entry h.entries hfive
    (h.owned e List.mem_cons_self)
  refine ⟨hvalue, hlists, h.next ?_ hrest h.ahead (h.unhurried.tail_of_five hfive)⟩
  rw [hlists, h.entry]
  rfl

/-- What is near enough to be compared. -/
theorem Walking.near (h : Walking w flood now f (e :: due) rest)
    (hfive : e.content.timesSent ≠ 5) (hdue : due ≠ []) (r : Nat) :
    (∀ x ∈ due, compareNS x.content (e.content.resent r now) < 0) ∧
      ∀ x ∈ rest.head?, Near x.content (e.content.resent r now) := by
  obtain ⟨y, due, rfl⟩ := List.exists_cons_of_ne_nil hdue
  have hne : passed ((e :: y :: due).map (·.content)) ≠ [] := by
    rw [List.map_cons, List.map_cons, passed_cons hfive]
    exact List.cons_ne_nil _ _
  obtain ⟨hlower, hupper⟩ := h.unhurried.near hne
  have hlater := lt_waitTime_resent e.content r now
  have hlast := le_trans (le_latest e.content r now) (latest_le (n := 4)
    (by have := h.few e List.mem_cons_self; omega) now)
  constructor
  · intro x hx
    have hpast := h.past x (List.mem_cons_of_mem _ hx)
    have hx' : now - 32737 < x.content.waitTime := hlower _ (List.mem_map_of_mem hx)
    have hnear : Near x.content (e.content.resent r now) :=
      ⟨h.place (List.mem_append_left _ hx), by omega, by omega⟩
    exact hnear.compareNS_neg_iff.mpr (by omega)
  · intro x hx
    have hmem := List.mem_of_mem_head? hx
    have hahead := h.ahead x hx
    have hx' : x.content.waitTime ≤ now + 32768 := hupper _ (Option.mem_map_of_mem _ hx)
    exact ⟨h.place (List.mem_append_right _ hmem), by omega, by omega⟩

/-- **The first recipient is sent the datum** and put back.  Otherwise the pass
stops. -/
theorem Walking.sent (h : Walking w flood now f (e :: due) rest)
    (hfive : e.content.timesSent ≠ 5) :
    (value (floodTurn flood now e.addr) w = .stop ∧ ¬ (f.Sendable ∧ w.Allocates)) ∨
    (value (floodTurn flood now e.addr) w = .goto ((due ++ rest).head?.map (·.addr)) ∧
      ∃ l' found rc rest',
        (after (floodTurn flood now e.addr) w).dataf =
          w.dataf.relist (fun a f => if a = flood then l' else f.symNeighbors) ∧
        l'.entries = due ++ rest' ∧
        Inserts compareNS (e.content.resent w.rands.head now) found rest rest' rc ∧ rc ≠ 0 ∧
        (due ≠ [] → Walking (after (floodTurn flood now e.addr) w) flood now
          { f with symNeighbors := l' } due rest')) := by
  rcases first_sent h.register h.entry h.entries hfive (h.past e List.mem_cons_self)
    (h.owned e List.mem_cons_self) with hstop | ⟨hgoto, l', found, rc, hdataf, hinserts, hrc⟩
  · exact .inl hstop
  refine .inr ⟨hgoto, l', found, rc, ?_⟩
  by_cases hdue : due = []
  · subst hdue
    exact ⟨l'.entries, hdataf, rfl, hinserts, hrc, fun hne => absurd rfl hne⟩
  obtain ⟨hfront, hnear⟩ := h.near hfive hdue w.rands.head
  obtain ⟨rest', hentries, hinserts'⟩ := hinserts.append_left hfront
  refine ⟨rest', hdataf, hentries, hinserts', hrc, fun _ => ?_⟩
  have hentry : (after (floodTurn flood now e.addr) w).floodAt flood =
      some { f with symNeighbors := l' } := by
    rw [floodAt_of_relist hdataf, h.entry]
    simp
  have hfour : e.content.timesSent ≤ 4 := by
    have hfew := h.few e List.mem_cons_self
    omega
  have hdue' : due.map (·.content) ≠ [] := fun hnil => hdue (List.map_eq_nil_iff.mp hnil)
  have hhi := le_latest e.content w.rands.head now
  rcases hinserts'.first hrc hnear with ⟨x, hx, hlt, hhead⟩ | ⟨hle, a, rfl⟩
  · rw [← Option.mem_def.mp hx] at hhead
    refine h.next hentry hentries (hhead ▸ h.ahead) ?_
    rw [hhead]
    exact h.unhurried.tail_kept hdue' hfour hhi ⟨x.content, Option.mem_map_of_mem _ hx, hlt⟩
  · refine h.next hentry hentries (fun x hx => ?_) ?_
    · obtain rfl := Option.some.inj hx
      exact lt_waitTime_resent _ _ _
    · refine h.unhurried.tail_put hdue' hfour rfl (soonest_le _ _ _) hhi fun x hx => ?_
      obtain ⟨y, hy, rfl⟩ := Option.map_eq_some_iff.mp hx
      exact hle y hy

/-- The cursor is on a recipient at which the pass stops. -/
def Arrived (w : World) (flood : Nat) (now : Int) (cursor : Option Nat) : Prop :=
  ∀ a ∈ cursor, ∃ f x, w.under flood a = some (f, x) ∧ x.timesSent ≠ 5 ∧ now < x.waitTime

/-- Behind the last recipient that is due. -/
theorem arrived_of_mem {bound : Nat} (hf : w.floodAt flood = some f)
    (hl : f.symNeighbors.Linked bound) (hmem : ∀ x ∈ rest.head?, x ∈ f.symNeighbors.entries)
    (hahead : ∀ x ∈ rest.head?, now < x.content.waitTime)
    (hfew : ∀ x ∈ rest.head?, x.content.timesSent ≠ 5) :
    Arrived w flood now (rest.head?.map (·.addr)) := by
  intro a ha
  obtain ⟨x, hx, rfl⟩ := Option.map_eq_some_iff.mp ha
  obtain ⟨pre, post, hentries⟩ := List.append_of_mem (hmem x hx)
  exact ⟨f, x.content, under_of_entries hf hl hentries, hfew x hx, hahead x hx⟩

theorem Walking.arrived (h : Walking w flood now f [] rest) :
    Arrived w flood now (rest.head?.map (·.addr)) := by
  refine arrived_of_mem h.entry h.linked (fun x hx => ?_) h.ahead fun x hx => ?_
  · rw [h.entries]
    exact List.mem_of_mem_head? hx
  · exact h.unhurried.bare rfl _ (Option.mem_map_of_mem _ hx)

/-- The last recipient that is due has been sent the datum. -/
theorem Walking.arrived_after (h : Walking w flood now f [e] rest) {w' : World}
    {l' : CList NgbEntry} {bound : Nat} (hl' : l'.Linked bound)
    (hentry : w'.floodAt flood = some { f with symNeighbors := l' })
    (hrest : ∀ x ∈ rest, x ∈ l'.entries) : Arrived w' flood now (rest.head?.map (·.addr)) := by
  refine arrived_of_mem hentry hl' (fun x hx => hrest x (List.mem_of_mem_head? hx)) h.ahead
    fun x hx => ?_
  exact h.unhurried.bare rfl _ (Option.mem_map_of_mem _ hx)

/-- A pass begins with the cursor on the first recipient. -/
theorem walking_start (hw : w.Sound) (hr : w.Register) (hapart : w.Apart)
    (hf : w.floodAt flood = some f) (howned : ∀ k ∈ f.waiting, w.neighbors.owns k)
    (hfew : ∀ x ∈ f.symNeighbors.contents, x.timesSent ≤ 5)
    (hdistinct : (∃ x ∈ ripe now f.symNeighbors.contents, x.timesSent = 5) →
      (indices w.dataf.contents).Nodup)
    (hunhurried : Unhurried now (ripe now f.symNeighbors.contents)
      (unripe now f.symNeighbors.contents).head?) :
    ∃ due rest, Walking w flood now f due rest ∧
      due.map (·.content) = ripe now f.symNeighbors.contents ∧
      rest.map (·.content) = unripe now f.symNeighbors.contents ∧
      f.symNeighbors.first = (due ++ rest).head?.map (·.addr) := by
  obtain ⟨due, rest, hentries, hdue, hrest⟩ := entries_ripe now f.symNeighbors
  have hmem : ∀ x ∈ due, x.content ∈ ripe now f.symNeighbors.contents := fun x hx =>
    hdue ▸ List.mem_map_of_mem hx
  have hhead : rest.head?.map (·.content) = (unripe now f.symNeighbors.contents).head? := by
    rw [← hrest, List.head?_map]
  refine ⟨due, rest, ?_, hdue, hrest, ?_⟩
  · exact
      { sound := hw
        register := hr
        apart := hapart
        entry := hf
        entries := hentries
        past := fun x hx => mem_ripe (hmem x hx)
        ahead := fun x hx => unripe_head (hhead ▸ Option.mem_map_of_mem _ hx)
        few := fun x hx => hfew _ (ripe_subset _ _ (hmem x hx))
        owned := fun x hx => howned _ (List.mem_map_of_mem (ripe_subset _ _ (hmem x hx)))
        distinct := fun ⟨x, hx, hfive⟩ => hdistinct ⟨x.content, hmem x hx, hfive⟩
        unhurried := by
          rw [hdue, hhead]
          exact hunhurried }
  · rw [← hentries]
    rfl

end Walking

end FloodPeer
