/-
FloodPeer/FirstRecipients.lean

Whom a new datum is flooded to.

`add_message_to_flood` takes the symmetrical neighbours and removes the sender
with a probe whose deadline is `0`.  At almost all times this is right.  In the
second before a multiple of 65536 the new deadlines differ from `0` by a
multiple of 65536, `compare_n_s` takes every neighbour for the sender, and the
first one is removed whoever it is (`floodsRightly_iff`).
-/
import FloodPeer.Confusion

namespace FloodPeer

open Octets StateLogic

/-- The recipients of a datum that has come from `toDelete` at the time `u`: the
symmetrical neighbours but this one, in order, never sent to and due in a second. -/
structure RightRecipients (w : World) (u : Nat) (toDelete : Option NeighborPtr)
    (l : List NgbEntry) : Prop where
  mem : ∀ k, k ∈ l.map (·.sym) ↔
    (∃ val, (k, val) ∈ w.neighbors.inorder ∧ val.symmetricAt u = true) ∧
      ∀ peer ∈ toDelete, k.toNeighbor.place ≠ peer.toNeighbor.place
  ascending : l.Pairwise fun x y => compareN x.sym.toNeighbor y.sym.toNeighbor < 0
  fresh : ∀ x ∈ l, x.timesSent = 0 ∧ x.waitTime = u + 1

/-- From `w` to `w'` the datum has been added to `DATAF` for the right recipients. -/
def FloodsRightly (msgSend : Mem) (size : UInt8) (toDelete : Option NeighborPtr) (u : Nat)
    (w w' : World) : Prop :=
  ∃ a l, w'.dataf.entries =
      recent (w.dataf.entries ++ [{ addr := a, content := some (newEntry msgSend size l) }]) ∧
    RightRecipients w u toDelete l.contents

/-! ### The symmetrical neighbours -/

section Symmetric

variable {w : World} {u : Nat}

/-- At a time that stands still, with memory, the list is the one at this time. -/
theorem symmetric_of_frozen (hclock : w.clock = Stream'.const u) (halloc : w.Allocates) :
    ∃ l, value (getSymmetrical w.neighbors) w = some l ∧ l.contents = w.symmetricAt u ∧
      l.Linked (after (getSymmetrical w.neighbors) w).next := by
  have hw : w.at u = w := by
    unfold World.at
    rw [← hclock]
  rcases getSymmetrical_cases w.neighbors w with ⟨-, hnot⟩ | ⟨l, hl, hlinked, -⟩
  · exact absurd halloc hnot
  · refine ⟨l, hl, ?_, hlinked⟩
    unfold World.symmetricAt
    rw [hw, hl]
    rfl

theorem mem_symmetricAt_iff (halloc : w.Allocates) {k : NeighborPtr} :
    k ∈ (w.symmetricAt u).map (·.sym) ↔
      ∃ val, (k, val) ∈ w.neighbors.inorder ∧ val.symmetricAt u = true := by
  rw [(symmetricAt_spec w u).2 halloc, mem_selected_iff]

theorem ascending_symmetricAt (hsorted : w.neighbors.Sorted) :
    (w.symmetricAt u).Pairwise fun x y => compareN x.sym.toNeighbor y.sym.toNeighbor < 0 := by
  have hsub : (w.neighbors.selected (·.symmetricAt u)).Sublist (w.neighbors.inorder.map Prod.fst) :=
    List.filter_sublist.map _
  exact List.pairwise_map.mp (ascending_of_sublist hsorted ((symmetricAt_spec w u).1.trans hsub))

theorem apart_symmetricAt (hsorted : w.neighbors.Sorted) : Apart (w.symmetricAt u) := by
  apply List.pairwise_map.mpr
  apply (ascending_symmetricAt hsorted).imp
  intro x y hlt
  exact ne_of_lt (compareN_neg_iff.mp hlt)

theorem fresh_symmetricAt {x : NgbEntry} (hx : x ∈ w.symmetricAt u) :
    x.timesSent = 0 ∧ x.waitTime = u + 1 := by
  unfold World.symmetricAt at hx
  cases hl : value (getSymmetrical w.neighbors) (w.at u) with
  | none =>
    rw [hl] at hx
    exact absurd hx List.not_mem_nil
  | some l =>
    rw [hl] at hx
    obtain ⟨v, hv, hent⟩ := made_getSymmetrical hl x hx
    have hclock : v.clock = Stream'.const u := hv.frozen rfl
    rw [eq_of_initNgbEntry hent, hclock]
    exact ⟨rfl, Int.add_comm 1 u⟩

/-! ### Without the sender -/

/-- With everybody but the sender the recipients are right. -/
theorem right_filter (hsorted : w.neighbors.Sorted) (halloc : w.Allocates)
    (toDelete : Option NeighborPtr) : RightRecipients w u toDelete
      ((w.symmetricAt u).filter fun x => ∀ peer ∈ toDelete, x.place ≠ peer.toNeighbor.place) where
  mem := by
    intro k
    rw [← mem_symmetricAt_iff halloc]
    constructor
    · intro hk
      obtain ⟨x, hx, rfl⟩ := List.mem_map.mp hk
      obtain ⟨hx, hother⟩ := List.mem_filter.mp hx
      exact ⟨List.mem_map_of_mem hx, of_decide_eq_true hother⟩
    · rintro ⟨hk, hother⟩
      obtain ⟨x, hx, rfl⟩ := List.mem_map.mp hk
      exact List.mem_map_of_mem (List.mem_filter.mpr ⟨hx, decide_eq_true hother⟩)
  ascending := (ascending_symmetricAt hsorted).sublist List.filter_sublist
  fresh := fun _ hx => fresh_symmetricAt (List.mem_filter.mp hx).1

/-- A new recipient is taken for the sender that it is not when its deadline is a
multiple of 65536. -/
theorem compareNS_ngbProbe_eq_zero_iff {x : NgbEntry} (hx : x ∈ w.symmetricAt u)
    (peer : NeighborPtr) : compareNS x (ngbProbe peer) = 0 ↔
      x.place = peer.toNeighbor.place ∨ 65536 ∣ u + 1 := by
  have hwait : x.waitTime - (ngbProbe peer).waitTime = ((u + 1 : Nat) : Int) := by
    rw [(fresh_symmetricAt hx).2]
    exact Int.sub_zero _
  have hdvd : (65536 : Int) ∣ x.waitTime - (ngbProbe peer).waitTime ↔ 65536 ∣ u + 1 := by
    rw [hwait]
    exact Int.natCast_dvd_natCast
  rw [compareNS_eq_zero_iff]
  unfold Confused
  rw [hdvd]
  constructor
  · rintro (hplace | ⟨-, -, hclock⟩)
    · exact .inl hplace
    · exact .inr hclock
  · rintro (hplace | hclock)
    · exact .inl hplace
    · by_cases hplace : x.place = peer.toNeighbor.place
      · exact .inl hplace
      · refine .inr ⟨hplace, fun heq => ?_, hclock⟩
        rw [heq, Int.sub_self] at hwait
        exact absurd hwait.symm (Int.natCast_ne_zero.mpr (Nat.succ_ne_zero u))

/-- Which recipients are left when the sender has been removed. -/
theorem contents_withoutSender {l : CList NgbEntry} {bound : Nat} (hlinked : l.Linked bound)
    (hl : l.contents = w.symmetricAt u) (hsorted : w.neighbors.Sorted) (peer : NeighborPtr) :
    (withoutPeer peer l).contents = if 65536 ∣ u + 1 then (w.symmetricAt u).tail else
      (w.symmetricAt u).filter fun x => x.place ≠ peer.toNeighbor.place := by
  split
  · -- everybody compares equal to the probe
    rename_i hclock
    have hfirst : (withoutPeer peer l).contents =
        l.contents.eraseP (fun x => compareNS x (ngbProbe peer) = 0) :=
      (removeElem_spec hlinked (ngbProbe peer)).1.first.1
    rw [hfirst, hl]
    cases hsym : w.symmetricAt u with
    | nil => rfl
    | cons x rest =>
      have hx : x ∈ w.symmetricAt u := hsym ▸ List.mem_cons_self
      exact List.eraseP_cons_of_pos
        (decide_eq_true ((compareNS_ngbProbe_eq_zero_iff hx peer).mpr (.inr hclock)))
  · -- nobody is confused with the sender
    rename_i hclock
    rw [← hl]
    apply contents_withoutPeer hlinked
    · intro x hx hconfused
      have hmem : x ∈ w.symmetricAt u := hl ▸ (List.takeWhile_prefix _).subset hx
      have hzero := compareNS_eq_zero_iff.mpr (.inr hconfused)
      exact hconfused.1
        (((compareNS_ngbProbe_eq_zero_iff hmem peer).mp hzero).resolve_right hclock)
    · rw [hl]
      exact apart_symmetricAt hsorted

/-- The first recipient is the one to leave out. -/
theorem right_tail_iff (hsorted : w.neighbors.Sorted) (halloc : w.Allocates)
    (peer : NeighborPtr) : RightRecipients w u (some peer) (w.symmetricAt u).tail ↔
      ∀ k ∈ (w.neighbors.selected (·.symmetricAt u)).head?,
        k.toNeighbor.place = peer.toNeighbor.place := by
  have hright := right_filter (u := u) hsorted halloc (some peer)
  have hasc := ascending_symmetricAt (u := u) hsorted
  have hmem := @mem_symmetricAt_iff w u halloc
  rw [← (symmetricAt_spec w u).2 halloc, List.head?_map]
  cases hsym : w.symmetricAt u with
  | nil =>
    rw [hsym] at hright
    exact ⟨fun _ => nofun, fun _ => hright⟩
  | cons x rest =>
    rw [hsym] at hright hasc hmem
    obtain ⟨hfirst, -⟩ := List.pairwise_cons.mp hasc
    have hlater : ∀ y ∈ rest, x.place ≠ y.place := fun y hy =>
      ne_of_lt (compareN_neg_iff.mp (hfirst y hy))
    constructor
    · intro h k hk
      obtain rfl : x.sym = k := Option.some.inj hk
      by_contra hne
      -- the first one would be missing
      have hin : x.sym ∈ rest.map (·.sym) := (h.mem x.sym).mpr
        ⟨hmem.mp List.mem_cons_self, fun _ hpeer => Option.some.inj hpeer ▸ hne⟩
      obtain ⟨y, hy, heq⟩ := List.mem_map.mp hin
      exact hlater y hy (congrArg (fun k => k.toNeighbor.place) heq.symm)
    · intro h
      have hsame : x.place = peer.toNeighbor.place := h x.sym rfl
      have hothers : (x :: rest).filter (fun x => ∀ p ∈ some peer, x.place ≠ p.toNeighbor.place) =
          rest := by
        rw [List.filter_cons_of_neg (by simpa using hsame), List.filter_eq_self]
        intro y hy
        simpa [← hsame] using (hlater y hy).symm
      rw [hothers] at hright
      exact hright

end Symmetric

/-! ### The new entry -/

/-- With memory there is a new entry for what is left of the symmetrical neighbours. -/
theorem filed_addMessageToFlood {w : World} (hr : w.Register) (halloc : w.Allocates)
    (msgSend : Mem) (size : UInt8) (toDelete : Option NeighborPtr) :
    ∃ a l, value (getSymmetrical w.neighbors) w = some l ∧
      (after (addMessageToFlood msgSend size toDelete) w).dataf.entries = recent (w.dataf.entries ++
        [{ addr := a, content := some (newEntry msgSend size (firstRecipients toDelete l)) }]) := by
  obtain ⟨hfiles, -⟩ := files_addMessageToFlood hr msgSend size toDelete
  cases hfiles with
  | nothing _ hmem => exact absurd halloc hmem
  | entry a content _ _ hentries hcontent =>
    rcases hcontent with ⟨-, hmem⟩ | ⟨l, hl, rfl⟩
    · exact absurd halloc hmem
    · exact ⟨a, l, hl, hentries⟩

/-- **New data goes to the right neighbours.**  With memory and a clock that
stands still, the recipients are right unless the new deadlines are a multiple
of 65536 and the first symmetrical neighbour is not the sender. -/
theorem floodsRightly_iff {w : World} {u : Nat} (hsorted : w.neighbors.Sorted) (hr : w.Register)
    (halloc : w.Allocates) (hclock : w.clock = Stream'.const u) (msgSend : Mem) (size : UInt8)
    (toDelete : Option NeighborPtr) :
    FloodsRightly msgSend size toDelete u w (after (addMessageToFlood msgSend size toDelete) w) ↔
      ∀ peer ∈ toDelete, 65536 ∣ u + 1 →
        ∀ k ∈ (w.neighbors.selected (·.symmetricAt u)).head?,
          k.toNeighbor.place = peer.toNeighbor.place := by
  obtain ⟨a, l, hl, hentries⟩ := filed_addMessageToFlood hr halloc msgSend size toDelete
  obtain ⟨l', hl', hcontents, hlinked⟩ := symmetric_of_frozen hclock halloc
  obtain rfl : l = l' := Option.some.inj (hl.symm.trans hl')
  -- the recipients of the new entry are the ones that count
  have hiff : FloodsRightly msgSend size toDelete u w
      (after (addMessageToFlood msgSend size toDelete) w) ↔
        RightRecipients w u toDelete (firstRecipients toDelete l).contents := by
    constructor
    · rintro ⟨a', l', hentries', hright⟩
      rw [hentries, recent_append_singleton, recent_append_singleton] at hentries'
      have hlast := List.singleton_inj.mp (List.append_cancel_left hentries')
      have hcontent := Option.some.inj (congrArg ListEntry.content hlast)
      have hsyms : firstRecipients toDelete l = l' :=
        congrArg FloodEntry.symNeighbors hcontent
      exact hsyms ▸ hright
    · intro hright
      exact ⟨a, _, hentries, hright⟩
  rw [hiff]
  have hright := right_filter (u := u) hsorted halloc toDelete
  cases toDelete with
  | none =>
    have hall : (w.symmetricAt u).filter
        (fun x => ∀ peer ∈ (none : Option NeighborPtr), x.place ≠ peer.toNeighbor.place) =
          l.contents := by
      rw [hcontents]
      exact List.filter_eq_self.mpr fun _ _ => decide_eq_true nofun
    rw [hall] at hright
    exact ⟨fun _ => nofun, fun _ => hright⟩
  | some peer =>
    show RightRecipients w u (some peer) (withoutPeer peer l).contents ↔ _
    rw [contents_withoutSender hlinked hcontents hsorted peer]
    by_cases hwrap : 65536 ∣ u + 1
    · rw [if_pos hwrap, right_tail_iff hsorted halloc]
      exact ⟨fun h _ hpeer _ => Option.some.inj hpeer ▸ h, fun h => h peer rfl hwrap⟩
    · rw [if_neg hwrap]
      refine ⟨fun _ _ _ hdvd => absurd hdvd hwrap, fun _ => ?_⟩
      have hall : (w.symmetricAt u).filter
          (fun x => ∀ p ∈ some peer, x.place ≠ p.toNeighbor.place) =
            (w.symmetricAt u).filter fun x => x.place ≠ peer.toNeighbor.place := by
        apply List.filter_congr
        intro x _
        simp
      rw [← hall]
      exact hright

/-- Two neighbours: the first and the second one in order. -/
def firstPtr : NeighborPtr := { ip := .replicate 16 1, port := 5, msg := none, addr := 1 }

def secondPtr : NeighborPtr := { ip := .replicate 16 2, port := 5, msg := none, addr := 2 }

/-- Both are symmetrical at the time `u`. -/
def pairAt (u : Nat) : World :=
  { World.boot (Stream'.const u) with
    neighbors := .node secondPtr ⟨7, u, u⟩ (.node firstPtr ⟨8, u, u⟩ .null .null) .null }

/-- The datum comes from the second one. -/
theorem floodsRightly_pair : FloodsRightly (fun _ => 0) 12 (some secondPtr) 10 (pairAt 10)
    (after (addMessageToFlood (fun _ => 0) 12 (some secondPtr)) (pairAt 10)) := by
  have hsorted : (pairAt 10).neighbors.Sorted := by
    unfold Tree.Sorted SortedAssoc.Ascending
    decide +kernel
  have hr : (pairAt 10).Register :=
    Register.of_same (register_of_initial (initial_boot fun _ => 10)) rfl (Nat.le_refl _)
  exact (floodsRightly_iff hsorted hr (fun _ => rfl) rfl _ _ _).mpr
    fun _ _ hdvd => absurd hdvd (by decide)

/-- One second before 65536 the first one is left out, and the sender is a recipient of
its own datum. -/
theorem not_floodsRightly_pair : ¬ FloodsRightly (fun _ => 0) 12 (some secondPtr) 65535
    (pairAt 65535)
    (after (addMessageToFlood (fun _ => 0) 12 (some secondPtr)) (pairAt 65535)) := by
  rintro ⟨a, l, hentries, hright⟩
  have hlist := congrArg (List.map fun e => e.content.map fun f => f.symNeighbors.contents) hentries
  have hkept : some l.contents =
      some [{ sym := secondPtr, timesSent := 0, waitTime := 65536 : NgbEntry }] := by
    apply List.singleton_inj.mp
    exact hlist.symm.trans (by decide +kernel)
  have hsender := (hright.mem secondPtr).mp
    (by rw [Option.some.inj hkept]; exact List.mem_singleton_self _)
  exact hsender.2 secondPtr rfl rfl

end FloodPeer
