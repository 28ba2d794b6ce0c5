/-
FloodPeer/Flooding.lean

Who is still to be sent a datum.

The recipients of an entry of `DATAF` are a set of neighbours: the symmetrical
ones when the entry is made, without the one that the datum came from.  A
neighbour leaves the set when it answers and when it is given up
(`Effect.drops`), and at no other time.  The lists of recipients keep to that
in the runs in which nobody is confused with the neighbour that is looked for
(`Clear`).
-/
import FloodPeer.Confusion
import FloodPeer.Recency
import Mathlib.Data.List.ReduceOption

namespace FloodPeer

open Octets StateLogic Runs SortedAssoc

/-! ### The set of recipients -/

/-- The neighbours that have not answered yet. -/
def FloodEntry.waiting (f : FloodEntry) : List NeighborPtr :=
  f.symNeighbors.contents.map (·.sym)

/-- The entries of `DATAF`. -/
def World.floods (w : World) : List FloodEntry := w.dataf.contents.reduceOption

/-- The effect takes `k` out of the recipients of the datum `index`. -/
def Effect.drops (e : Effect) (index : DataIndex) (k : NeighborPtr) : Prop :=
  match e with
  | .answered i peer => i = index ∧ k.toNeighbor.place = peer.toNeighbor.place
  | .gone peer => k.toNeighbor.place = peer.toNeighbor.place
  | _ => False

instance (e : Effect) (index : DataIndex) (k : NeighborPtr) : Decidable (e.drops index k) := by
  unfold Effect.drops; split <;> infer_instance

/-- `n`, the recipient that `remove_elem` takes for `nw`, can be put back. -/
def Requeues (l : List NgbEntry) (nw : NgbEntry) (r : Nat) (currentTime : Int) : Prop :=
  ∀ n ∈ l.find? (fun x => compareNS x nw = 0),
    Inserted (l.eraseP (fun x => compareNS x nw = 0)) (n.resent r currentTime)

/-- In this move nobody is confused with the neighbour that is looked for, and
the nonce of a local message is fresh. -/
structure Clear (w : World) (m : Move) : Prop where
  fresh : Fresh w m
  filed : ∀ peer ∈ m.source, ∀ l ∈ value (getSymmetrical w.neighbors) w,
    (m.given w).isSome → Spares l.contents (ngbProbe peer)
  answered : ∀ index peer, m.effect w = .answered index peer → ∀ f ∈ w.floods, f.index = index →
    Spares f.symNeighbors.contents (ngbProbe peer)
  gone : ∀ peer, m.effect w = .gone peer → ∀ f ∈ w.floods,
    Spares f.symNeighbors.contents (ngbProbe peer)
  resent : ∀ t, m.effect w = .resent t →
    Requeues t.flood.symNeighbors.contents t.recipient w.rands.head t.time

/-- What is true of `DATAF` after such moves. -/
structure World.Served (w : World) : Prop where
  owned : ∀ a f, w.floodAt a = some f → ∀ k ∈ f.waiting, w.neighbors.owns k
  apart : ∀ a f, w.floodAt a = some f → Apart f.symNeighbors.contents
  distinct : (indices w.dataf.contents).Nodup
  filled : none ∉ w.dataf.contents

theorem mem_floods {w : World} {bound a : Nat} {f : FloodEntry} (hl : w.dataf.Linked bound)
    (hf : w.floodAt a = some f) : f ∈ w.floods := by
  have hmem := (floodAt_eq_some_iff hl).mp hf
  exact List.reduceOption_mem_iff.mpr (List.mem_map.mpr ⟨_, hmem, rfl⟩)

theorem mem_floods_iff {w : World} (hr : w.Register) {f : FloodEntry} :
    f ∈ w.floods ↔ ∃ a, w.floodAt a = some f := by
  constructor
  · intro hf
    obtain ⟨e, he, hcontent⟩ := List.mem_map.mp (List.reduceOption_mem_iff.mp hf)
    obtain ⟨a, content⟩ := e
    obtain rfl : content = some f := hcontent
    exact ⟨a, (floodAt_eq_some_iff hr.linked).mpr he⟩
  · rintro ⟨a, hf⟩
    exact mem_floods hr.linked hf

/-- Where the indices are different, each is found in the cell of its entry. -/
theorem foundAt_of_distinct {w : World} (h : (indices w.dataf.contents).Nodup) {bound a : Nat}
    {f : FloodEntry} (hl : w.dataf.Linked bound) (hf : w.floodAt a = some f) :
    w.dataf.foundAt f.index = some a := by
  have hmem := (floodAt_eq_some_iff hl).mp hf
  unfold CList.foundAt
  rw [get_of_distinct h hmem rfl]
  rfl

/-- `remove_neighbor_everywhere` comes to every entry once. -/
theorem visits_of_distinct {w : World} (h : (indices w.dataf.contents).Nodup) {bound a : Nat}
    {f : FloodEntry} (hl : w.dataf.Linked bound) (hf : w.floodAt a = some f) :
    w.dataf.visits w.dataf.contents a = 1 := by
  have hmem := (floodAt_eq_some_iff hl).mp hf
  have hcount : w.dataf.visits w.dataf.contents a =
      (w.dataf.entries.map (·.addr)).countP (fun b => b = a) := by
    unfold CList.visits CList.contents
    rw [List.countP_map, List.countP_map]
    apply List.countP_congr
    intro e he
    obtain ⟨b, content⟩ := e
    cases content with
    | none =>
      -- the cell of a null pointer is another one
      have hne : b ≠ a := by
        rintro rfl
        have hnull : w.dataf.cell? b = some ⟨b, none⟩ := hl.cell?_eq he
        have hcell : w.dataf.cell? b = some ⟨b, some f⟩ := hl.cell?_eq hmem
        cases hnull.symm.trans hcell
      simp [hne]
    | some g =>
      have hfound := foundAt_of_distinct h hl ((floodAt_eq_some_iff hl).mpr he)
      simp [hfound]
  rw [hcount]
  exact List.count_eq_one_of_mem hl.nodup (List.mem_map.mpr ⟨_, hmem, rfl⟩)

/-- The lists without a neighbour that is removed. -/
theorem floodAt_of_forgetPeer {w w' : World} (h : (indices w.dataf.contents).Nodup) {bound : Nat}
    (hl : w.dataf.Linked bound) {peer : NeighborPtr} (hdataf : w'.dataf = forgetPeer peer w.dataf)
    (a : Nat) : w'.floodAt a =
      (w.floodAt a).map fun f => { f with symNeighbors := withoutPeer peer f.symNeighbors } := by
  rw [floodAt_of_relist hdataf]
  apply Option.map_congr
  intro f hf
  rw [visits_of_distinct h hl hf, Function.iterate_one]

/-! ### One move -/

theorem waiting_filter (l : List NgbEntry) (place : List Nat ×ₗ Nat) :
    (l.filter fun x => x.place ≠ place).map (·.sym) =
      (l.map (·.sym)).filter fun k => k.toNeighbor.place ≠ place := by
  rw [List.filter_map]
  rfl

/-- The recipient that is taken out has a place of its own. -/
theorem Removes.own_place {y n : NgbEntry} {l rest : List (ListEntry NgbEntry)}
    (h : Removes compareNS y l rest (some n)) (hapart : Apart (l.map (·.content))) (r : Nat)
    (currentTime : Int) :
    ∀ x ∈ rest.map (·.content), x.place ≠ (n.resent r currentTime).place := by
  intro x hx heq
  have hnodup : ((n :: rest.map (·.content)).map NgbEntry.place).Nodup :=
    (h.perm.map _).nodup_iff.mp hapart
  rw [List.map_cons, List.nodup_cons] at hnodup
  exact hnodup.1 (heq ▸ List.mem_map_of_mem hx)

/-- What it takes to put a recipient back. -/
theorem Removes.requeues_iff {y n : NgbEntry} {l : CList NgbEntry}
    {rest : List (ListEntry NgbEntry)} (h : Removes compareNS y l.entries rest (some n)) (r : Nat)
    (currentTime : Int) : Requeues l.contents y r currentTime ↔
      Inserted (rest.map (·.content)) (n.resent r currentTime) := by
  obtain ⟨hrest, hn⟩ := h.first
  have hn' : l.contents.find? (fun x => compareNS x y = 0) = some n := hn.symm
  have hrest' : rest.map (·.content) = l.contents.eraseP (fun x => compareNS x y = 0) := hrest
  unfold Requeues
  rw [hn', hrest']
  constructor
  · intro hall
    exact hall n rfl
  · intro hins n' hn'
    exact Option.some.inj hn' ▸ hins

/-- Sending a datum again keeps the recipients, with memory for the new cell. -/
theorem PutBack.perm {found : Option Nat} {r : Nat} {currentTime : Int} {nw : NgbEntry}
    {l l' : CList NgbEntry} (h : PutBack found r currentTime nw l l') (hfound : found ≠ none)
    (hapart : Apart l.contents) (hclear : Requeues l.contents nw r currentTime) :
    (l'.contents.map (·.sym)).Perm (l.contents.map (·.sym)) := by
  cases h with
  | absent _ hsame =>
    unfold CList.contents
    rw [hsame]
  | back n rest rc hremoves hinserts =>
    -- `n` goes out and comes back
    have hsplit : l.contents.Perm (n :: rest.map (·.content)) := hremoves.perm
    have hperm := hinserts.perm hfound (hremoves.own_place hapart r currentTime)
      ((hremoves.requeues_iff r currentTime).mp hclear)
    exact (hperm.map (·.sym)).trans (hsplit.map (·.sym)).symm

theorem Requeued.perm {w : World} {currentTime : Int} {nw : NgbEntry} {l l' : CList NgbEntry}
    (h : Requeued w currentTime nw l l') (halloc : w.Allocates) (hapart : Apart l.contents)
    (hclear : Requeues l.contents nw w.rands.head currentTime) :
    (l'.contents.map (·.sym)).Perm (l.contents.map (·.sym)) := by
  cases h with
  | absent hl hsame =>
    unfold CList.contents
    rw [hsame]
  | back n rest found rc hremoves hinserts hfound =>
    exact (PutBack.back n rest rc hremoves hinserts).perm (hfound halloc) hapart hclear

/-- Nobody is dropped. -/
theorem filter_drops_nothing {index : DataIndex} (l : List NeighborPtr) :
    (l.filter fun k => ¬ Effect.nothing.drops index k) = l :=
  List.filter_eq_self.mpr fun _ _ => decide_eq_true id

/-- **A move without a new entry** takes out the recipients that it should, and
leaves the others. -/
theorem Relists.refines {m : Move} {w w' : World} (h : Relists m w w') (hr : w.Register)
    (hs : w.Served) (halloc : w.Allocates) (hclear : Clear w m) :
    ∃ g, w'.dataf = w.dataf.relist g ∧ ∀ a f, w.floodAt a = some f →
      ((g a f).contents.map (·.sym)).Perm
        (f.waiting.filter fun k => ¬ (m.effect w).drops f.index k) := by
  cases h with
  | nothing heffect hdataf =>
    refine ⟨fun _ f => f.symNeighbors, by rw [hdataf, relist_self], fun a f _ => ?_⟩
    rw [heffect, filter_drops_nothing]
    exact List.Perm.refl _
  | answered index peer heffect hdataf =>
    refine ⟨_, hdataf, fun a f hf => ?_⟩
    have hfound := foundAt_of_distinct hs.distinct hr.linked hf
    rw [heffect]
    by_cases hindex : f.index = index
    · rw [← hindex, if_pos hfound]
      have hspares := hclear.answered index peer heffect f (mem_floods hr.linked hf) hindex
      rw [contents_withoutPeer (hr.lists a f hf) hspares (hs.apart a f hf), waiting_filter]
      apply List.Perm.of_eq
      apply List.filter_congr
      intro k _
      exact decide_eq_decide.mpr (not_congr (and_iff_right rfl).symm)
    · -- an entry for another datum is not the one that is found
      have hother : w.dataf.foundAt index ≠ some a := by
        intro hat
        obtain ⟨e, he, haddr⟩ := Option.map_eq_some_iff.mp hat
        obtain ⟨hmem, f', hcontent, hf'⟩ := get_eq_some he
        have hcell := (floodAt_eq_some_iff hr.linked).mp hf
        have heq : e = ⟨a, some f⟩ := List.inj_on_of_nodup_map hr.linked.nodup hmem hcell haddr
        rw [heq] at hcontent
        exact hindex ((Option.some.inj hcontent) ▸ hf')
      rw [if_neg hother, List.filter_eq_self.mpr]
      · exact List.Perm.refl _
      · intro k _
        exact decide_eq_true fun hdrops => hindex hdrops.1.symm
  | gone peer heffect hdataf =>
    refine ⟨_, hdataf, fun a f hf => ?_⟩
    -- with one entry for each index, every list is visited exactly once
    have hspares := hclear.gone peer heffect f (mem_floods hr.linked hf)
    rw [visits_of_distinct hs.distinct hr.linked hf, Function.iterate_one,
      contents_withoutPeer (hr.lists a f hf) hspares (hs.apart a f hf), waiting_filter, heffect]
    apply List.Perm.of_eq
    apply List.filter_congr
    intro k _
    exact decide_eq_decide.mpr Iff.rfl
  | resent t l heffect hdataf hrequeued =>
    refine ⟨_, hdataf, fun a f hf => ?_⟩
    have hall : (f.waiting.filter fun k => ¬ (m.effect w).drops f.index k) = f.waiting := by
      rw [heffect]
      exact List.filter_eq_self.mpr fun _ _ => decide_eq_true id
    rw [hall]
    split
    · rename_i ha
      obtain ⟨tmp, -, hunder, -⟩ := effect_resent heffect
      have hat := (under_eq_some hunder).1
      rw [← ha, hf] at hat
      obtain rfl := Option.some.inj hat
      exact hrequeued.perm halloc (hs.apart a _ hf) (hclear.resent t heffect)
    · exact List.Perm.refl _

/-- The new entry is not about an index in `DATAF`. -/
theorem not_drops_of_given {m : Move} {w : World} {v : Mem × UInt8} (h : m.given w = some v)
    {bound a : Nat} (hl : w.dataf.Linked bound) {f : FloodEntry} (hf : w.floodAt a = some f)
    (k : NeighborPtr) : ¬ (m.effect w).drops f.index k := by
  cases m with
  | tlv type buf length client =>
    obtain ⟨⟨rfl, hnew⟩, -⟩ := Option.ite_none_right_eq_some.mp h
    have heffect : (Move.tlv 4 buf length client).effect w =
        .answered (indexAt buf) (sockaddr6ToNeighbor client).ptr := rfl
    rw [heffect]
    intro hdrops
    refine foundAt_eq_none_iff.mp hnew ⟨f, ?_, hdrops.1.symm⟩
    exact List.mem_map.mpr ⟨_, (floodAt_eq_some_iff hl).mp hf, rfl⟩
  | say got => exact id
  | _ => cases h

/-- **One move.**  An entry that was there has lost the recipients that the move
drops; any other is new. -/
theorem Move.Does.refines {m : Move} {w w' : World} (h : m.Does w w') (hw : w.Sound)
    (hr : w.Register) (hs : w.Served) (halloc : w.Allocates) (hclear : Clear w m) {a : Nat}
    {f' : FloodEntry} (hf' : w'.floodAt a = some f') :
    (∃ f, w.floodAt a = some f ∧ f'.index = f.index ∧
      f'.waiting.Perm (f.waiting.filter fun k => ¬ (m.effect w).drops f.index k)) ∨
    (w.next ≤ a ∧ ∃ v l, m.given w = some v ∧ value (getSymmetrical w.neighbors) w = some l ∧
      f' = newEntry v.1 v.2 (firstRecipients m.source l)) := by
  obtain ⟨hr', hfiles⟩ := h.files hw hr
  cases hgiven : m.given w with
  | none =>
    rw [hgiven] at hfiles
    obtain ⟨g, hdataf, hperm⟩ := hfiles.refines hr hs halloc hclear
    rw [floodAt_of_relist hdataf] at hf'
    obtain ⟨f, hf, rfl⟩ := Option.map_eq_some_iff.mp hf'
    exact .inl ⟨f, hf, rfl, hperm a f hf⟩
  | some v =>
    rw [hgiven] at hfiles
    rcases hfiles.1.floodAt hr hr' hf' with hold | ⟨hlo, l, hl, hnew⟩
    · refine .inl ⟨f', hold, rfl, ?_⟩
      rw [List.filter_eq_self.mpr fun k _ =>
        decide_eq_true (not_drops_of_given hgiven hr.linked hold k)]
    · exact .inr ⟨hlo, v, l, rfl, hl, hnew⟩

/-- The keys that stay. -/
theorem Move.Does.owns {m : Move} {w w' : World} (h : m.Does w w') (hw : w.Sound)
    (hr : w.Register) {k : NeighborPtr} (hk : w.neighbors.owns k) : w'.neighbors.owns k ∨
      ∃ peer, m.effect w = .gone peer ∧ k.toNeighbor.place = peer.toNeighbor.place := by
  obtain ⟨-, hfiles⟩ := h.files hw hr
  cases hgiven : m.given w with
  | none =>
    rw [hgiven] at hfiles
    cases hfiles with
    | nothing _ _ howns => exact .inl (howns k hk)
    | answered index peer _ _ hsame => exact .inl (hsame ▸ hk)
    | gone peer heffect _ howns =>
      by_cases hplace : k.toNeighbor.place = peer.toNeighbor.place
      · exact .inr ⟨peer, heffect, hplace⟩
      · exact .inl ((howns k).mpr ⟨hk, hplace⟩)
    | resent t l _ _ _ _ hsame => exact .inl (hsame ▸ hk)
  | some v =>
    rw [hgiven] at hfiles
    exact .inl (hfiles.2 ▸ hk)

/-- The symmetrical neighbours are neighbours, each once. -/
theorem apart_getSymmetrical {w : World} (hw : w.Sound) {l : CList NgbEntry}
    (hl : value (getSymmetrical w.neighbors) w = some l) :
    l.Linked (after (getSymmetrical w.neighbors) w).next ∧ Apart l.contents ∧
      ∀ x ∈ l.contents, w.neighbors.owns x.sym := by
  rcases getSymmetrical_cases w.neighbors w with ⟨hnone, -⟩ | ⟨l', hl', hlinked, hsub⟩
  · rw [hl] at hnone
    cases hnone
  · rw [hl] at hl'
    obtain rfl := Option.some.inj hl'
    have hkeys : (w.neighbors.inorder.map entryPlace).Nodup :=
      List.pairwise_map.mpr (hw.neighbors.imp ne_of_lt)
    have hplaces := hsub.map fun k : NeighborPtr => k.toNeighbor.place
    rw [List.map_map, List.map_map] at hplaces
    exact ⟨hlinked, hplaces.nodup hkeys, fun x hx => hsub.subset (List.mem_map_of_mem hx)⟩

theorem contents_firstRecipients {l : CList NgbEntry} {bound : Nat} (hl : l.Linked bound)
    (toDelete : Option NeighborPtr) :
    (firstRecipients toDelete l).contents.Sublist l.contents := by
  cases toDelete with
  | none => exact List.Sublist.refl _
  | some peer => exact (removeElem_spec hl (ngbProbe peer)).1.sublist.map _

/-- The first recipients are symmetrical neighbours, each once, and the source
of the datum is not one of them. -/
theorem first_recipients {m : Move} {w : World} (hw : w.Sound) (hclear : Clear w m)
    {v : Mem × UInt8} (hgiven : m.given w = some v) {l : CList NgbEntry}
    (hl : value (getSymmetrical w.neighbors) w = some l) :
    Apart (firstRecipients m.source l).contents ∧
      ∀ x ∈ (firstRecipients m.source l).contents, w.neighbors.owns x.sym ∧
        ∀ peer ∈ m.source, x.place ≠ peer.toNeighbor.place := by
  obtain ⟨hlinked, hapart, howns⟩ := apart_getSymmetrical hw hl
  have hsub := contents_firstRecipients hlinked m.source
  refine ⟨(hsub.map _).nodup hapart, fun x hx => ⟨howns x (hsub.subset hx), ?_⟩⟩
  intro peer hpeer
  have hspares := hclear.filed peer hpeer l hl (by rw [hgiven]; rfl)
  rw [Option.mem_def.mp hpeer, firstRecipients, contents_withoutPeer hlinked hspares hapart] at hx
  exact of_decide_eq_true (List.mem_filter.mp hx).2

/-! ### Runs -/

theorem apart_iff_waiting (f : FloodEntry) :
    Apart f.symNeighbors.contents ↔ (f.waiting.map fun k => k.toNeighbor.place).Nodup := by
  unfold Apart FloodEntry.waiting
  rw [List.map_map]
  rfl

theorem none_mem_labels_iff {w : World} : none ∈ w.labels ↔ none ∈ w.dataf.contents := by
  unfold World.labels
  simp [List.mem_map]

/-- Every cell of `DATAF` has an entry. -/
theorem Move.Does.filled {m : Move} {w w' : World} (h : m.Does w w') (hw : w.Sound)
    (hr : w.Register) (halloc : w.Allocates) (hfilled : none ∉ w.dataf.contents) :
    none ∉ w'.dataf.contents := by
  rw [← none_mem_labels_iff, h.labels hw hr halloc]
  cases addedBy w m with
  | none => exact none_mem_labels_iff.not.mpr hfilled
  | some entry =>
    intro hnone
    rcases List.mem_append.mp ((recent_sublist _).subset hnone) with hold | hnew
    · exact hfilled (none_mem_labels_iff.mp hold)
    · cases List.mem_singleton.mp hnew

/-- Clear moves keep the lists of recipients in order. -/
theorem Move.Does.served {m : Move} {w w' : World} (h : m.Does w w') (hw : w.Sound)
    (hr : w.Register) (hs : w.Served) (halloc : w.Allocates) (hclear : Clear w m) :
    w'.Served where
  owned := by
    intro a f' hf' k hk
    rcases h.refines hw hr hs halloc hclear hf' with
      ⟨f, hf, -, hperm⟩ | ⟨-, v, l, hgiven, hl, rfl⟩
    · obtain ⟨hmem, hdrops⟩ := List.mem_filter.mp (hperm.mem_iff.mp hk)
      rcases h.owns hw hr (hs.owned a f hf k hmem) with hown | ⟨peer, heffect, hplace⟩
      · exact hown
      · refine absurd ?_ (of_decide_eq_true hdrops)
        rw [heffect]
        exact hplace
    · obtain ⟨-, hfiles⟩ := h.files hw hr
      rw [hgiven] at hfiles
      rw [hfiles.2]
      obtain ⟨x, hx, rfl⟩ := List.mem_map.mp hk
      exact ((first_recipients hw hclear hgiven hl).2 x hx).1
  apart := by
    intro a f' hf'
    rcases h.refines hw hr hs halloc hclear hf' with
      ⟨f, hf, -, hperm⟩ | ⟨-, v, l, hgiven, hl, rfl⟩
    · rw [apart_iff_waiting, (hperm.map _).nodup_iff]
      have hold := (apart_iff_waiting f).mp (hs.apart a f hf)
      exact (List.filter_sublist.map _).nodup hold
    · exact (first_recipients hw hclear hgiven hl).1
  distinct := h.distinct hw hr hclear.fresh hs.distinct
  filled := h.filled hw hr halloc hs.filled

/-- What holds in every state of a run of clear moves. -/
structure World.Steady (w : World) : Prop where
  sound : w.Sound
  register : w.Register
  served : w.Served
  allocates : w.Allocates

theorem steady_of_initial {w : World} (h : w.Initial) (halloc : w.Allocates) : w.Steady where
  sound := sound_of_initial h
  register := register_of_initial h
  served :=
    { owned := fun a f hf => by
        unfold World.floodAt at hf
        rw [h.dataf] at hf
        cases hf
      apart := fun a f hf => by
        unfold World.floodAt at hf
        rw [h.dataf] at hf
        cases hf
      distinct := by
        rw [h.dataf]
        exact List.nodup_nil
      filled := by
        rw [h.dataf]
        exact List.not_mem_nil }
  allocates := halloc

theorem Move.Does.steady {m : Move} {w w' : World} (h : m.Does w w') (hw : w.Steady)
    (hclear : Clear w m) : w'.Steady where
  sound := h.sound hw.sound
  register := (h.files hw.sound hw.register).1
  served := h.served hw.sound hw.register hw.served hw.allocates hclear
  allocates := h.elapsed.allocates hw.allocates

theorem steady_of_run {w w' : World} {tr : List (World × Move)} (h : Run Move.Does w tr w')
    (hw : w.Steady) (hclear : ∀ x ∈ tr, Clear x.1 x.2) : w'.Steady :=
  h.invariant_of hclear hw fun _ _ _ hv hclear hmove => hmove.steady hv hclear

theorem source_of_answered {m : Move} {w : World} {index : DataIndex} {peer : NeighborPtr}
    (h : m.effect w = .answered index peer) : m.source = some peer := by
  unfold Move.effect at h
  cases m with
  | tlv type buf length client =>
    dsimp only at h
    split at h
    · exact congrArg some (Effect.answered.inj h).2
    · split at h <;> cases h
  | turn flood currentTime tmp =>
    dsimp only at h
    split at h
    · cases h
    split at h
    · cases h
    split at h
    · cases h
    split at h <;> cases h
  | expire mem sym =>
    dsimp only at h
    split at h <;> cases h
  | _ => cases h

/-- In the move an Ack or a Data TLV for the datum `index` comes from where `k`
is. -/
def Answers (w : World) (m : Move) (index : DataIndex) (k : NeighborPtr) : Prop :=
  ∃ peer, m.effect w = .answered index peer ∧ k.toNeighbor.place = peer.toNeighbor.place

/-- The move removes `k` from `NEIGHBORS`. -/
def Unlists (w : World) (m : Move) (k : NeighborPtr) : Prop :=
  w.neighbors.owns k ∧ ¬ (m.act w).neighbors.owns k

/-- A recipient is only dropped for one of two reasons. -/
theorem drops_cases {m : Move} {w : World} (hw : w.Steady) {a : Nat} {f : FloodEntry}
    (hf : w.floodAt a = some f) {k : NeighborPtr} (hk : k ∈ f.waiting)
    (hdrops : (m.effect w).drops f.index k) : Answers w m f.index k ∨ Unlists w m k := by
  obtain ⟨-, hfiles⟩ := (m.does_act w).files hw.sound hw.register
  cases hgiven : m.given w with
  | some v => exact absurd hdrops (not_drops_of_given hgiven hw.register.linked hf k)
  | none =>
    rw [hgiven] at hfiles
    cases hfiles with
    | nothing heffect =>
      rw [heffect] at hdrops
      exact hdrops.elim
    | answered index peer heffect =>
      rw [heffect] at hdrops
      exact .inl ⟨peer, hdrops.1 ▸ heffect, hdrops.2⟩
    | gone peer heffect _ howns =>
      rw [heffect] at hdrops
      exact .inr ⟨hw.served.owned a f hf k hk, fun hown => ((howns k).mp hown).2 hdrops⟩
    | resent t l heffect =>
      rw [heffect] at hdrops
      exact hdrops.elim

/-- An entry from the state `v` that is still there after a run. -/
theorem waiting_of_run {v w : World} {tr : List (World × Move)} (hrun : Run Move.Does v tr w)
    (hv : v.Steady) (hclear : ∀ x ∈ tr, Clear x.1 x.2) {a : Nat} {f f' : FloodEntry}
    (hf : v.floodAt a = some f) (hf' : w.floodAt a = some f') :
    f'.index = f.index ∧ (∀ k ∈ f'.waiting, k ∈ f.waiting) ∧ ∀ k ∈ f.waiting, k ∉ f'.waiting →
      ∃ x ∈ tr, Answers x.1 x.2 f.index k ∨ Unlists x.1 x.2 k := by
  induction hrun generalizing f' with
  | nil =>
    rw [hf] at hf'
    obtain rfl := Option.some.inj hf'
    exact ⟨rfl, fun k hk => hk, fun k hk hnot => absurd hk hnot⟩
  | @snoc tr u w m hrun hmove ih =>
    have hbefore : ∀ x ∈ tr, Clear x.1 x.2 := fun x hx => hclear x (List.mem_append_left _ hx)
    have hlast := hclear (u, m) (List.mem_append_right _ List.mem_cons_self)
    have hu := steady_of_run hrun hv hbefore
    rcases hmove.refines hu.sound hu.register hu.served hu.allocates hlast hf' with
      ⟨f₁, hf₁, hindex, hperm⟩ | ⟨hlo, -⟩
    · obtain ⟨hindex₁, hsub, hleft⟩ := ih hbefore hf₁
      refine ⟨hindex.trans hindex₁, fun k hk => ?_, fun k hk hnot => ?_⟩
      · exact hsub k (List.mem_filter.mp (hperm.mem_iff.mp hk)).1
      · by_cases hk₁ : k ∈ f₁.waiting
        · -- it leaves in the last move
          have hdrops : (m.effect u).drops f₁.index k := by
            by_contra hstay
            exact hnot (hperm.mem_iff.mpr (List.mem_filter.mpr ⟨hk₁, decide_eq_true hstay⟩))
          refine ⟨(u, m), List.mem_append_right _ List.mem_cons_self, ?_⟩
          rw [← hindex₁]
          exact drops_cases hu hf₁ hk₁ hdrops
        · -- it has left before
          obtain ⟨x, hx, hwhy⟩ := hleft k hk hk₁
          exact ⟨x, List.mem_append_left _ hx, hwhy⟩
    · -- cells are not used twice
      have hlt := floodAt_lt hv.register hf
      have hle := (elapsed_of_run hrun).next
      omega

/-- What a run does to the recipients of every datum, while it is in `DATAF`. -/
structure Faithful (w₀ : World) (tr : List (World × Move)) (w : World) : Prop where
  /-- Every recipient is a neighbour. -/
  held : ∀ a f, w.floodAt a = some f → ∀ k ∈ f.waiting, w.neighbors.owns k
  /-- A recipient leaves because it answers or because it is removed. -/
  left : ∀ tr₁ v tr₂ a f f', tr = tr₁ ++ tr₂ → Run Move.Does w₀ tr₁ v → Run Move.Does v tr₂ w →
    v.floodAt a = some f → w.floodAt a = some f' → ∀ k ∈ f.waiting, k ∉ f'.waiting →
      ∃ x ∈ tr₂, Answers x.1 x.2 f.index k ∨ Unlists x.1 x.2 k
  /-- Who has answered is no recipient any more. -/
  answered : ∀ tr₁ u m v tr₂ a f f', tr = tr₁ ++ (u, m) :: tr₂ → Run Move.Does w₀ tr₁ u →
    m.Does u v → Run Move.Does v tr₂ w → v.floodAt a = some f → w.floodAt a = some f' →
      ∀ k, Answers u m f.index k → k ∉ f'.waiting

/-- **The recipients of a datum are those who have not answered and are still
neighbours**, in the runs in which nobody is confused with another. -/
theorem faithful_of_run {w₀ w : World} {tr : List (World × Move)} (hinit : w₀.Initial)
    (halloc : w₀.Allocates) (hrun : Run Move.Does w₀ tr w)
    (hclear : ∀ x ∈ tr, Clear x.1 x.2) : Faithful w₀ tr w where
  held := (steady_of_run hrun (steady_of_initial hinit halloc) hclear).served.owned
  left := by
    intro tr₁ v tr₂ a f f' htr hrun₁ hrun₂ hf hf'
    subst htr
    have hv := steady_of_run hrun₁ (steady_of_initial hinit halloc) fun x hx =>
      hclear x (List.mem_append_left _ hx)
    exact (waiting_of_run hrun₂ hv (fun x hx => hclear x (List.mem_append_right _ hx)) hf hf').2.2
  answered := by
    intro tr₁ u m v tr₂ a f f' htr hrun₁ hmove hrun₂ hf hf' k hanswers hk
    subst htr
    have hu := steady_of_run hrun₁ (steady_of_initial hinit halloc) fun x hx =>
      hclear x (List.mem_append_left _ hx)
    have hlast := hclear (u, m) (List.mem_append_right _ List.mem_cons_self)
    have hafter : ∀ x ∈ tr₂, Clear x.1 x.2 := fun x hx =>
      hclear x (List.mem_append_right _ (List.mem_cons_of_mem _ hx))
    have hwaiting := (waiting_of_run hrun₂ (hmove.steady hu hlast) hafter hf hf').2.1 k hk
    obtain ⟨peer, heffect, hplace⟩ := hanswers
    rcases hmove.refines hu.sound hu.register hu.served hu.allocates hlast hf with
      ⟨f₀, hf₀, hindex, hperm⟩ | ⟨-, val, l, hgiven, hl, rfl⟩
    · obtain ⟨-, hdrops⟩ := List.mem_filter.mp (hperm.mem_iff.mp hwaiting)
      apply of_decide_eq_true hdrops
      rw [heffect]
      exact ⟨hindex, hplace⟩
    · -- the datum that comes from `peer` is new
      obtain ⟨x, hx, rfl⟩ := List.mem_map.mp hwaiting
      have hsource := source_of_answered heffect
      exact ((first_recipients hu.sound hlast hgiven hl).2 x hx).2 peer hsource hplace

/-! ### Two recipients -/

/-- Another peer, behind `remote` in `NEIGHBORS`. -/
def other : Sockaddr where
  addr := Vector.replicate 16 2
  port := 5

/-- Two neighbours become symmetrical, and there is a local message. -/
def twoRecipients : List Move :=
  [.tlv 2 (helloValue 7 1) 16 remote, .tlv 2 (helloValue 8 1) 16 other, .say (some [97])]

/-- The Ack for that message. -/
def ackFrom (client : Sockaddr) : Move :=
  .tlv 5 (ofBytes [1, 0, 0, 0, 0, 0, 0, 0, 0, 0, 0, 0]) 12 client

theorem clear_of_nothing {w : World} {m : Move} (hgiven : m.given w = none)
    (heffect : m.effect w = .nothing) : Clear w m where
  fresh := by
    rintro got rfl
    cases hgiven
  filed := by
    intro peer _ l _ hsome
    rw [hgiven] at hsome
    cases hsome
  answered := fun index peer h => by rw [heffect] at h; cases h
  gone := fun peer h => by rw [heffect] at h; cases h
  resent := fun t h => by rw [heffect] at h; cases h

theorem clear_say {w : World} {got : Option (List UInt8)} (h : Fresh w (.say got)) :
    Clear w (.say got) where
  fresh := h
  filed := fun _ hpeer => nomatch hpeer
  answered := fun _ _ h => nomatch h
  gone := fun _ h => nomatch h
  resent := fun _ h => nomatch h

theorem clear_ack {w : World} {buf : Mem} {length : UInt8} {client : Sockaddr}
    (h : ∀ f ∈ w.floods, Spares f.symNeighbors.contents
      (ngbProbe (sockaddr6ToNeighbor client).ptr)) : Clear w (.tlv 5 buf length client) where
  fresh := fun _ hsay => nomatch hsay
  filed := by
    intro _ _ _ _ hsome
    have hnone : (Move.tlv 5 buf length client).given w = none := by
      unfold Move.given
      exact if_neg fun hfour => absurd hfour.1 (by decide)
    rw [hnone] at hsome
    cases hsome
  answered := by
    intro index peer heffect f hf _
    obtain ⟨-, rfl⟩ := Effect.answered.inj heffect
    exact h f hf
  gone := fun _ h => nomatch h
  resent := fun _ h => nomatch h

/-- The second neighbour answers. -/
theorem faithful_twoRecipients :
    Faithful (bootAt 0) (actHistory (twoRecipients ++ [ackFrom other]) (bootAt 0))
      (actAll (twoRecipients ++ [ackFrom other]) (bootAt 0)) := by
  apply faithful_of_run (initial_boot _) (fun _ => rfl) (run_actAll _ _)
  intro x hx
  rcases List.mem_cons.mp hx with rfl | hx
  · exact clear_of_nothing rfl rfl
  rcases List.mem_cons.mp hx with rfl | hx
  · exact clear_of_nothing rfl rfl
  rcases List.mem_cons.mp hx with rfl | hx
  · exact clear_say fun got _ => by decide +kernel
  · obtain rfl := List.mem_singleton.mp hx
    exact clear_ack (by decide +kernel)

/-- The clock shows 65535 when the message is sent, so that the deadlines are a
multiple of 65536.  The Ack of the second neighbour takes the first one out. -/
theorem not_faithful_of_confused :
    ¬ Faithful (World.boot fun _ => 65535)
      (actHistory (twoRecipients ++ [ackFrom other]) (World.boot fun _ => 65535))
      (actAll (twoRecipients ++ [ackFrom other]) (World.boot fun _ => 65535)) := by
  intro h
  let v := actAll twoRecipients (World.boot fun _ => 65535)
  let first : NeighborPtr := { sockaddr6ToNeighbor remote with msg := some 1, addr := 4 }
  let second : NeighborPtr := { sockaddr6ToNeighbor other with msg := some 5, addr := 8 }
  obtain ⟨f, hf, hboth⟩ : ∃ f, v.floodAt 16 = some f ∧ f.waiting = [first, second] :=
    Option.map_eq_some_iff.mp (by decide +kernel)
  obtain ⟨f', hf', hone⟩ : ∃ f', (v |> (ackFrom other).act).floodAt 16 = some f' ∧
      f'.waiting = [second] :=
    Option.map_eq_some_iff.mp (by decide +kernel)
  have hwhy := h.left (actHistory twoRecipients (World.boot fun _ => 65535)) v
    [(v, ackFrom other)] 16 f f' rfl (run_actAll _ _) (Run.single (Move.does_act _ _)) hf hf'
    first (by rw [hboth]; exact List.mem_cons_self) (by rw [hone]; decide)
  obtain ⟨x, hx, hwhy⟩ := hwhy
  obtain rfl := List.mem_singleton.mp hx
  rcases hwhy with ⟨peer, heffect, hplace⟩ | ⟨-, hgone⟩
  · -- the Ack does not come from the first neighbour
    obtain ⟨-, rfl⟩ := Effect.answered.inj heffect
    exact absurd hplace (by decide)
  · exact hgone (by decide +kernel)

end FloodPeer
