/-
FloodPeer/Hellos.lean

What the records know about the Hellos that were heard.

A run has a history, and the history says which Hellos `hello` has accepted
(`heard`).  The times in a record are those of the last Hello accepted from its
address; its identifier is not, because the update branch of `add_neighbor_aux`
leaves it alone.  A short Hello sets the time of the last long one back to `0`,
and `0` is also a reading of the clock.
-/
import FloodPeer.Selection

namespace FloodPeer

open Octets StateLogic SortedAssoc Runs

/-! ### History -/

/-- A Hello that was accepted: the address it came from, the identifier of its
source, whether it was a long one, and the time. -/
structure Heard where
  place : List Nat ×ₗ Nat
  id : UInt64
  long : Bool
  time : Nat

/-- The record that is made of it. -/
def Heard.ident (h : Heard) : Ident where
  id := h.id
  lastHello := h.time
  lastHelloLong := if h.long then h.time else 0

/-- The Hello that a move accepts: a short one, or a long one addressed to `ID`. -/
def heardBy (w : World) : Move → Option Heard
  | .tlv type buf length client =>
    if type = 2 ∧ (length = 16 → u64At buf 8 = w.id) then
      some { place := (sockaddr6ToNeighbor client).place
             id := u64At buf 0
             long := length = 16
             time := w.clock.head }
    else none
  | _ => none

/-- The Hellos accepted in a run, oldest first. -/
def heard (tr : List (World × Move)) : List Heard := tr.filterMap fun x => heardBy x.1 x.2

/-- The last of those that came from the address `p`. -/
def lastHeard (p : List Nat ×ₗ Nat) (tr : List (World × Move)) : Option Heard :=
  (heard tr).reverse.find? fun h => h.place = p

theorem helloIdent_eq (w : World) (buf : Mem) (length : UInt8) (client : Sockaddr) :
    helloIdent w.id buf length w.clock.head =
      (heardBy w (.tlv 2 buf length client)).map Heard.ident := by
  unfold helloIdent heardBy
  by_cases h16 : length = 16
  · by_cases hdest : u64At buf 8 = w.id
    · simp [h16, hdest, Heard.ident]
    · simp [h16, hdest]
  · simp [h16, Heard.ident]

theorem heardBy_tlv (w : World) (type : UInt8) (buf : Mem) (length : UInt8) (client : Sockaddr) :
    heardBy w (.tlv type buf length client) =
      if type = 2 ∧ (length = 16 → u64At buf 8 = w.id) then
        some { place := (sockaddr6ToNeighbor client).place
               id := u64At buf 0
               long := length = 16
               time := w.clock.head }
      else none := rfl

theorem place_of_heardBy {w : World} {buf : Mem} {length : UInt8} {client : Sockaddr} {h : Heard}
    (hh : heardBy w (.tlv 2 buf length client) = some h) :
    h.place = (sockaddr6ToNeighbor client).place := by
  rw [heardBy_tlv] at hh
  by_cases hc : (2 : UInt8) = 2 ∧ (length = 16 → u64At buf 8 = w.id)
  · rw [if_pos hc] at hh
    exact (Option.some.inj hh) ▸ rfl
  · rw [if_neg hc] at hh
    cases hh

theorem id_of_heardBy {w : World} {buf : Mem} {length : UInt8} {client : Sockaddr} {h : Heard}
    (hh : heardBy w (.tlv 2 buf length client) = some h) : h.id = u64At buf 0 := by
  rw [heardBy_tlv] at hh
  obtain rfl := Option.some.inj (Option.ite_none_right_eq_some.mp hh).2
  rfl

/-- Only a Hello is heard, at the time that the clock shows. -/
theorem heardBy_cases {w : World} {m : Move} {h : Heard} (hh : heardBy w m = some h) :
    (∃ buf length client, m = .tlv 2 buf length client) ∧ h.time = w.clock.head := by
  cases m with
  | tlv type buf length client =>
    rw [heardBy_tlv] at hh
    by_cases hc : type = 2 ∧ (length = 16 → u64At buf 8 = w.id)
    · rw [if_pos hc] at hh
      exact ⟨⟨buf, length, client, by rw [hc.1]⟩, (Option.some.inj hh) ▸ rfl⟩
    · rw [if_neg hc] at hh
      cases hh
  | _ => cases hh

theorem lastHeard_snoc (p : List Nat ×ₗ Nat) (tr : List (World × Move)) (w : World) (m : Move) :
    lastHeard p (tr ++ [(w, m)]) =
      match heardBy w m with
      | some h => if h.place = p then some h else lastHeard p tr
      | none => lastHeard p tr := by
  unfold lastHeard heard
  rw [List.filterMap_append]
  cases hh : heardBy w m with
  | none => simp [hh]
  | some h =>
    by_cases hp : h.place = p
    · simp [hh, hp]
    · simp [hh, hp]

/-- What was heard last was heard in some move. -/
theorem mem_of_lastHeard {p : List Nat ×ₗ Nat} {tr : List (World × Move)} {h : Heard}
    (hh : lastHeard p tr = some h) : h.place = p ∧ h ∈ heard tr := by
  unfold lastHeard at hh
  have hplace := List.find?_some hh
  have hmem := List.mem_of_find?_eq_some hh
  exact ⟨of_decide_eq_true hplace, List.mem_reverse.mp hmem⟩

/-- What was heard last was not heard before anything else. -/
theorem lastHeard_append {p : List Nat ×ₗ Nat} {tr₁ tr₂ : List (World × Move)} {h₀ : Heard}
    (hmem : h₀ ∈ heard tr₂) (hp : h₀.place = p) :
    lastHeard p (tr₁ ++ tr₂) = lastHeard p tr₂ := by
  unfold lastHeard heard at *
  rw [List.filterMap_append, List.reverse_append, List.find?_append]
  obtain ⟨h, hh⟩ : ∃ h, List.find? (fun h : Heard => decide (h.place = p))
      (List.filterMap (fun x : World × Move => heardBy x.1 x.2) tr₂).reverse = some h := by
    rw [← Option.isSome_iff_exists, List.find?_isSome]
    exact ⟨h₀, List.mem_reverse.mpr hmem, decide_eq_true hp⟩
  rw [hh, Option.some_or]

/-! ### The clock along a run -/

theorem elapsed_of_run {w w' : World} {tr : List (World × Move)} (h : Run Move.Does w tr w') :
    Elapsed w w' :=
  h.invariant (Elapsed.refl w) fun _ _ _ hv hmove => hv.trans hmove.elapsed

/-- What is heard in a run is not heard before its beginning. -/
theorem le_time_of_run {w w' : World} {tr : List (World × Move)} (h : Run Move.Does w tr w')
    (hmono : w.Monotonic) {hd : Heard} (hmem : hd ∈ heard tr) : w.clock.head ≤ hd.time := by
  obtain ⟨x, hx, hheard⟩ := List.mem_filterMap.mp hmem
  obtain ⟨pre, post, rfl⟩ := List.mem_iff_append.mp hx
  obtain ⟨hpre, -⟩ := h.split_cons
  rw [(heardBy_cases hheard).2]
  exact (elapsed_of_run hpre).clock_le hmono

/-! ### Records and history -/

/-- Every record is in the relation `R` to the last Hello from its address. -/
def Recorded (R : Ident → Heard → Prop) (w : World) (tr : List (World × Move)) : Prop :=
  ∀ e ∈ w.neighbors.inorder, ∃ h, lastHeard (entryPlace e) tr = some h ∧ R e.2 h

/-- `add_neighbor` does not fail, nor make a second record, for a neighbour. -/
theorem Added.rc_of_mem {key : Neighbor} {val : Ident} {t t' : Tree} {lo hi : Nat} {rc : Int}
    (hadd : Added key val t lo hi t' rc) {e : NeighborPtr × Ident} (he : e ∈ t.inorder)
    (hplace : entryPlace e = key.place) : rc = 2 := by
  cases hadd with
  | failed habsent => exact absurd hplace (habsent e he)
  | added a hlo hhi habsent => exact absurd hplace (habsent e he)
  | updated => rfl

/-- A move keeps the relation when a new record and a new time do. -/
theorem Recorded.step {R : Ident → Heard → Prop} {w w' : World} {tr : List (World × Move)}
    {m : Move} (hrec : Recorded R w tr) (hw : w.Sound) (hmove : m.Does w w')
    (hfresh : ∀ h, heardBy w m = some h → R h.ident h)
    (htouch : ∀ h, heardBy w m = some h → ∀ e ∈ w.neighbors.inorder, entryPlace e = h.place →
      R { e.2 with lastHello := h.ident.lastHello, lastHelloLong := h.ident.lastHelloLong } h) :
    Recorded R w' (tr ++ [(w, m)]) := by
  intro e he
  rw [lastHeard_snoc]
  cases hh : heardBy w m with
  | none =>
    -- nothing was heard: the record is an old one
    refine hrec e ?_
    by_cases hm : ∃ buf length client, m = .tlv 2 buf length client
    · obtain ⟨buf, length, client, rfl⟩ := hm
      rw [show w' = after (hello buf length (sockaddr6ToNeighbor client)) w from hmove] at he
      have hcases := (hello_cases hw buf length (sockaddr6ToNeighbor client)).2
      rw [helloIdent_eq w buf length client, hh] at hcases
      rwa [show (after (hello buf length (sockaddr6ToNeighbor client)) w).neighbors = _
        from hcases] at he
    · have hsub := (hmove.settles
        (fun buf length client heq => hm ⟨buf, length, client, heq⟩) hw).2
      exact hsub.subset he
  | some h =>
    obtain ⟨⟨buf, length, client, rfl⟩, -⟩ := heardBy_cases hh
    rw [show w' = after (hello buf length (sockaddr6ToNeighbor client)) w from hmove] at he
    have hcases := (hello_cases hw buf length (sockaddr6ToNeighbor client)).2
    rw [helloIdent_eq w buf length client, hh] at hcases
    obtain ⟨u, v, rc, hu, hadd, hneighbors⟩ := hcases
    obtain ⟨msg, htree, -⟩ := hadd.tree
    have hsorted : u.neighbors.Sorted := hu.neighbors ▸ hw.neighbors
    have hplace : h.place = (sockaddr6ToNeighbor client).place := place_of_heardBy hh
    rw [hneighbors] at he
    rw [hu.neighbors] at htree hsorted
    show ∃ h', (if h.place = entryPlace e then some h else lastHeard (entryPlace e) tr) =
      some h' ∧ _
    rcases htree.mem hsorted he with ⟨hold, hne⟩ | ⟨-, -, a, -, -, rfl⟩ | ⟨-, e₀, he₀, hp, rfl⟩
    · have hother : h.place ≠ entryPlace e := by
        intro heq
        have hkey : entryPlace e = ({ sockaddr6ToNeighbor client with msg := msg } :
            Neighbor).place := heq.symm.trans hplace
        exact hne (htree.rc_of_mem hold hkey) hkey
      rw [if_neg hother]
      exact hrec e hold
    · have hkey : h.place = entryPlace (({ ({ sockaddr6ToNeighbor client with msg := msg } :
          Neighbor) with addr := a } : NeighborPtr), h.ident) := hplace
      rw [if_pos hkey]
      exact ⟨h, rfl, hfresh h hh⟩
    · have hp' : h.place = entryPlace e₀ := hplace.trans hp.symm
      rw [if_pos (show h.place = entryPlace (touchEntry h.ident e₀) from hp')]
      exact ⟨h, rfl, htouch h hh e₀ he₀ hp'.symm⟩

/-- The times of a record are those of the last Hello. -/
def SameTimes (val : Ident) (h : Heard) : Prop :=
  val.lastHello = h.ident.lastHello ∧ val.lastHelloLong = h.ident.lastHelloLong

theorem recorded_nil {R : Ident → Heard → Prop} {w : World} (h : w.Initial) :
    Recorded R w [] := by
  intro e he
  rw [h.neighbors] at he
  exact absurd he List.not_mem_nil

/-- After every run, the times in the records are those of the last Hellos. -/
theorem recorded_of_run {w w' : World} {tr : List (World × Move)} (hw : w.Initial)
    (h : Run Move.Does w tr w') : w'.Sound ∧ Recorded SameTimes w' tr := by
  induction h with
  | nil => exact ⟨sound_of_initial hw, recorded_nil hw⟩
  | snoc hrun hmove ih =>
    obtain ⟨hsound, hrec⟩ := ih
    exact ⟨hmove.sound hsound, hrec.step hsound hmove (fun _ _ => ⟨rfl, rfl⟩)
      fun _ _ _ _ _ => ⟨rfl, rfl⟩⟩

/-! ### Symmetric neighbours -/

/-- The time of the last long Hello is not negative, and `0` after a short one. -/
theorem lastHelloLong_cases (h : Heard) :
    (h.long = true ∧ h.ident.lastHelloLong = h.time) ∨
    (h.long = false ∧ h.ident.lastHelloLong = 0) := by
  unfold Heard.ident
  cases h.long with
  | true => exact .inl ⟨rfl, rfl⟩
  | false => exact .inr ⟨rfl, rfl⟩

/-! ### One other peer

The examples below have one other peer, with the identifier `7` or, after a
restart, `8`; the identifier of a freshly booted peer is `1`. -/

/-- Where the other peer is. -/
def remote : Sockaddr where
  addr := Vector.replicate 16 1
  port := 5

/-- The value of a Hello from `src` to `dst`. -/
def helloValue (src dst : UInt8) : Mem :=
  ofBytes [src, 0, 0, 0, 0, 0, 0, 0, dst, 0, 0, 0, 0, 0, 0, 0]

/-- A long Hello to us. -/
def longHello (src : UInt8) : Move := .tlv 2 (helloValue src 1) 16 remote

/-- A short Hello. -/
def shortHello (src : UInt8) : Move := .tlv 2 (helloValue src 0) 8 remote

/-- A peer that was started when the clock showed `now`. -/
def bootAt (now : Nat) : World := World.boot fun k => now + k

/-- A turn of the main loop that nothing has woken. -/
def idleWake : Wake := { selected := false, soc := none, gui := none }

/-- The variables of `main` when the periodic messages are due. -/
def dueState : MainState := { msg := fun _ => 0, client := remote, nexthello := 0 }

theorem monotonic_bootAt (now : Nat) : (bootAt now).Monotonic :=
  fun _ _ h => Nat.add_le_add_left h now

theorem allocates_actAll (l : List Move) {w : World} (h : w.Allocates) : (actAll l w).Allocates :=
  (elapsed_of_run (run_actAll l w)).allocates h

/-! ### A neighbour stays symmetric -/

/-- A neighbour heard at `h.time`, by a long Hello or another, is in the list of
`get_symmetrical` at a time `u` less than 120 seconds later exactly when the
clock still shows less than 120 seconds, or the last Hello heard was a long
one. -/
theorem symmetricAt_iff_last_long {w w' : World} {tr₁ tr₂ : List (World × Move)}
    {x : World × Move} {h : Heard} {u : Nat} (hw : w.Initial) (hmono : w.Monotonic)
    (hrun : Run Move.Does w (tr₁ ++ x :: tr₂) w') (hx : heardBy x.1 x.2 = some h)
    (hstay : ∃ e ∈ w'.neighbors.inorder, entryPlace e = h.place)
    (hu : u < h.time + 120) (halloc : w'.Allocates) :
    (∃ ent ∈ w'.symmetricAt u, ent.sym.toNeighbor.place = h.place) ↔
      u < 120 ∨ (lastHeard h.place (tr₁ ++ x :: tr₂)).map Heard.long = some true := by
  obtain ⟨-, hrec⟩ := recorded_of_run hw hrun
  obtain ⟨hsub, hall⟩ := symmetricAt_spec w' u
  constructor
  · rintro ⟨ent, hent, hplace⟩
    have hmem := hsub.subset (List.mem_map_of_mem hent)
    obtain ⟨val, he, hsel⟩ := mem_selected_iff.mp hmem
    obtain ⟨h', hlast, -, htime⟩ := hrec _ he
    have hsel : (u : Int) - val.lastHelloLong < 120 := of_decide_eq_true hsel
    rw [show entryPlace (ent.sym, val) = h.place from hplace] at hlast
    rcases lastHelloLong_cases h' with ⟨hl, -⟩ | ⟨-, hzero⟩
    · exact .inr (by rw [hlast, Option.map_some, hl])
    · refine .inl ?_
      have hval : val.lastHelloLong = 0 := htime.trans hzero
      omega
  · intro hcond
    obtain ⟨⟨k, val⟩, he, hplace⟩ := hstay
    obtain ⟨h', hlast, -, htime⟩ := hrec _ he
    rw [hplace] at hlast
    have hsel : val.symmetricAt u = true := by
      refine decide_eq_true (?_ : (u : Int) - val.lastHelloLong < 120)
      have hval : val.lastHelloLong = h'.ident.lastHelloLong := htime
      rcases lastHelloLong_cases h' with ⟨hl, ht⟩ | ⟨hs, ht⟩
      · -- the last Hello is `h` or a later one
        have hmem : h ∈ heard (x :: tr₂) :=
          List.mem_filterMap.mpr ⟨x, List.mem_cons_self, hx⟩
        rw [lastHeard_append hmem rfl] at hlast
        obtain ⟨-, hlater⟩ := mem_of_lastHeard hlast
        obtain ⟨hbefore, hafter⟩ := hrun.cut
        have hle := le_time_of_run hafter ((elapsed_of_run hbefore).monotonic hmono) hlater
        have htx := (heardBy_cases hx).2
        omega
      · -- the last Hello was short: only the start of the clock makes up for that
        rw [hlast, Option.map_some, hs] at hcond
        rcases hcond with hcond | hcond
        · omega
        · cases hcond
    have hkey : k ∈ (w'.symmetricAt u).map (·.sym) := by
      rw [hall halloc]
      exact mem_selected_iff.mpr ⟨val, he, hsel⟩
    obtain ⟨ent, hent, rfl⟩ := List.mem_map.mp hkey
    exact ⟨ent, hent, hplace⟩

/-- One long Hello: the neighbour is symmetric ten seconds later. -/
theorem symmetricAt_after_longHello :
    ∃ ent ∈ (actAll [longHello 7] (bootAt 130)).symmetricAt 140,
      ent.sym.toNeighbor.place = (sockaddr6ToNeighbor remote).place := by
  have hrun : Run Move.Does (bootAt 130) ([] ++ (bootAt 130, longHello 7) :: [])
      (actAll [longHello 7] (bootAt 130)) := run_actAll [longHello 7] (bootAt 130)
  refine (symmetricAt_iff_last_long (u := 140) (initial_boot _) (monotonic_bootAt 130) hrun rfl ?_
    (by decide) (allocates_actAll _ fun _ => rfl)).mpr (.inr (by decide +kernel))
  decide +kernel

/-- A long Hello at 130 seconds and a short one at 131: the neighbour is not
symmetric at 140 seconds. -/
theorem symmetricAt_after_shortHello :
    Run Move.Does (bootAt 130) (actHistory [longHello 7, shortHello 7] (bootAt 130))
        (actAll [longHello 7, shortHello 7] (bootAt 130)) ∧
      (heardBy (bootAt 130) (longHello 7)).map (fun h => (h.place, h.long, h.time)) =
        some ((sockaddr6ToNeighbor remote).place, true, 130) ∧
      (actAll [longHello 7, shortHello 7] (bootAt 130)).neighbors.inorder.map entryPlace =
        [(sockaddr6ToNeighbor remote).place] ∧
      (actAll [longHello 7, shortHello 7] (bootAt 130)).symmetricAt 140 = [] :=
  ⟨run_actAll _ _, by decide +kernel, by decide +kernel, by decide +kernel⟩

/-! ### Only neighbours that have proved themselves are symmetric -/

/-- Every neighbour in the list of `get_symmetrical` at the time `now` has sent a
long Hello to us less than 120 seconds before. -/
def ProvedAt (w : World) (tr : List (World × Move)) (now : Nat) : Prop :=
  ∀ ent ∈ w.symmetricAt now, ∃ h ∈ heard tr, h.place = ent.sym.toNeighbor.place ∧
    h.long = true ∧ now < h.time + 120

/-- No neighbour is known by short Hellos alone. -/
def NoneUnproved (w : World) (tr : List (World × Move)) : Prop :=
  ∀ e ∈ w.neighbors.inorder, ∃ h ∈ heard tr, h.place = entryPlace e ∧ h.long = true

/-- That only neighbours that have proved themselves are taken for symmetric is
right from the 120th second of the clock on; before, only when there are no
others. -/
theorem provedAt_iff {w w' : World} {tr : List (World × Move)} {now : Nat} (hw : w.Initial)
    (hrun : Run Move.Does w tr w') :
    (120 ≤ now ∨ NoneUnproved w' tr → ProvedAt w' tr now) ∧
    (w'.Allocates → ProvedAt w' tr now → 120 ≤ now ∨ NoneUnproved w' tr) := by
  obtain ⟨-, hrec⟩ := recorded_of_run hw hrun
  obtain ⟨hsub, hall⟩ := symmetricAt_spec w' now
  constructor
  · intro hcond ent hent
    obtain ⟨val, he, hsel⟩ := mem_selected_iff.mp (hsub.subset (List.mem_map_of_mem hent))
    have hsel : (now : Int) - val.lastHelloLong < 120 := of_decide_eq_true hsel
    by_cases hnow : 120 ≤ now
    · -- the time of the last long Hello is not `0`
      obtain ⟨h, hlast, -, htime⟩ := hrec _ he
      have hval : val.lastHelloLong = h.ident.lastHelloLong := htime
      obtain ⟨hplace, hmem⟩ := mem_of_lastHeard hlast
      rcases lastHelloLong_cases h with ⟨hlong, ht⟩ | ⟨-, hzero⟩
      · exact ⟨h, hmem, hplace, hlong, by omega⟩
      · omega
    · obtain ⟨h, hmem, hplace, hlong⟩ := (hcond.resolve_left hnow) _ he
      exact ⟨h, hmem, hplace, hlong, by omega⟩
  · intro halloc hproved
    refine or_iff_not_imp_left.mpr fun hnow e he => ?_
    -- everybody is in the list
    have hsel : e.2.symmetricAt now = true := by
      refine decide_eq_true (?_ : (now : Int) - e.2.lastHelloLong < 120)
      obtain ⟨h, -, -, htime⟩ := hrec e he
      rcases lastHelloLong_cases h with ⟨-, ht⟩ | ⟨-, hzero⟩ <;> omega
    have hkey : e.1 ∈ (w'.symmetricAt now).map (·.sym) := by
      rw [hall halloc]
      exact mem_selected_iff.mpr ⟨e.2, he, hsel⟩
    obtain ⟨ent, hent, hsym⟩ := List.mem_map.mp hkey
    obtain ⟨h, hmem, hplace, hlong, -⟩ := hproved ent hent
    exact ⟨h, hmem, hplace.trans (by rw [hsym]; rfl), hlong⟩

/-- A neighbour that has only sent a short Hello, at 130 seconds, is not taken
for symmetric. -/
theorem provedAt_after_shortHello :
    ProvedAt (actAll [shortHello 7] (bootAt 130)) (actHistory [shortHello 7] (bootAt 130)) 140 :=
  (provedAt_iff (initial_boot _) (run_actAll _ _)).1 (.inl (by decide))

/-- A neighbour that has only sent a short Hello, at 1 second, is taken for
symmetric. -/
theorem not_provedAt_after_shortHello :
    Run Move.Does (bootAt 1) (actHistory [shortHello 7] (bootAt 1))
        (actAll [shortHello 7] (bootAt 1)) ∧
      ¬ ProvedAt (actAll [shortHello 7] (bootAt 1)) (actHistory [shortHello 7] (bootAt 1)) 2 := by
  refine ⟨run_actAll _ _, fun hproved => ?_⟩
  have hone : ((actAll [shortHello 7] (bootAt 1)).symmetricAt 2).length = 1 := by decide +kernel
  obtain ⟨ent, hent⟩ := List.exists_mem_of_length_pos (by omega :
    0 < ((actAll [shortHello 7] (bootAt 1)).symmetricAt 2).length)
  obtain ⟨h, hmem, -, hlong, -⟩ := hproved ent hent
  have hshort : ∀ h ∈ heard (actHistory [shortHello 7] (bootAt 1)), h.long = false := by
    decide +kernel
  rw [hshort h hmem] at hlong
  cases hlong

/-! ### Identifiers -/

/-- A Hello from a neighbour carries the identifier that is recorded for it. -/
def SameId (w : World) (m : Move) : Prop :=
  ∀ h ∈ heardBy w m, ∀ e ∈ w.neighbors.inorder, entryPlace e = h.place → e.2.id = h.id

instance (w : World) (m : Move) : Decidable (SameId w m) := by
  unfold SameId; infer_instance

/-- The recorded identifiers are those of the last Hellos. -/
def LastIds (w : World) (tr : List (World × Move)) : Prop :=
  ∀ e ∈ w.neighbors.inorder, (lastHeard (entryPlace e) tr).map Heard.id = some e.2.id

instance (w : World) (tr : List (World × Move)) : Decidable (LastIds w tr) := by
  unfold LastIds; infer_instance

/-- The recorded identifiers are right as long as no neighbour changes its own. -/
theorem lastIds_of_run {w w' : World} {tr : List (World × Move)} (hw : w.Initial)
    (hrun : Run Move.Does w tr w') (hsame : ∀ x ∈ tr, SameId x.1 x.2) : LastIds w' tr := by
  have hrec : w'.Sound ∧ Recorded (fun val h => val.id = h.id) w' tr := by
    induction hrun with
    | nil => exact ⟨sound_of_initial hw, recorded_nil hw⟩
    | @snoc tr t u m hrun hmove ih =>
      obtain ⟨hsound, hrec⟩ := ih fun x hx => hsame x (List.mem_append_left _ hx)
      have hm : SameId t m := hsame (t, m) (List.mem_append_right _ (List.mem_singleton_self _))
      exact ⟨hmove.sound hsound, hrec.step hsound hmove (fun _ _ => rfl) hm⟩
  intro e he
  obtain ⟨h, hlast, hid⟩ := hrec.2 e he
  rw [hlast, Option.map_some, hid]

/-- Two Hellos with the same identifier. -/
theorem lastIds_after_two_hellos :
    LastIds (actAll [shortHello 7, longHello 7] (bootAt 0))
      (actHistory [shortHello 7, longHello 7] (bootAt 0)) := by
  have hsame : ∀ x ∈ actHistory [shortHello 7, longHello 7] (bootAt 0), SameId x.1 x.2 := by
    decide +kernel
  exact lastIds_of_run (initial_boot _) (run_actAll _ _) hsame

/-- A neighbour that comes back with another identifier keeps the old one. -/
theorem not_lastIds_after_restart :
    Run Move.Does (bootAt 0) (actHistory [shortHello 7, shortHello 8] (bootAt 0))
        (actAll [shortHello 7, shortHello 8] (bootAt 0)) ∧
      ¬ LastIds (actAll [shortHello 7, shortHello 8] (bootAt 0))
        (actHistory [shortHello 7, shortHello 8] (bootAt 0)) :=
  ⟨run_actAll _ _, by decide +kernel⟩

end FloodPeer
