/-
FloodPeer/Selection.lean

What `find_by` returns.

The list has one entry for each chosen node of the tree, in the order of the
tree.  Entries are missing only when there is no memory for them.  The lemmas
are about any predicate on nodes, with a condition on the world (a clock that
stands still, say) under which the predicate decides a property of the node.
-/
import FloodPeer.Sound
import FloodPeer.Linked

namespace FloodPeer

open StateLogic

/-- The keys of the nodes that have a property. -/
def Tree.chosen (sel : Tree → Bool) : Tree → List NeighborPtr
  | .null => []
  | .node k v left right =>
    left.chosen sel ++ ((if sel (.node k v left right) then [k] else []) ++ right.chosen sel)

/-- A property of a node that is one of its record. -/
def onRecord (sel : Ident → Bool) : Tree → Bool
  | .null => false
  | .node _ val _ _ => sel val

/-- The nodes of a tree whose record has a property. -/
def Tree.selected (t : Tree) (sel : Ident → Bool) : List NeighborPtr :=
  (t.inorder.filter fun e => sel e.2).map Prod.fst

theorem selected_node (sel : Ident → Bool) (k : NeighborPtr) (v : Ident) (left right : Tree) :
    (Tree.node k v left right).selected sel =
      left.selected sel ++ ((if sel v then [k] else []) ++ right.selected sel) := by
  unfold Tree.selected
  rw [inorder_node, List.filter_append, List.map_append, List.filter_cons]
  cases sel v <;> rfl

/-- The nodes of a tree, left to right, as `find_by` hands them to its predicate. -/
def Tree.nodes : Tree → List Tree
  | .null => []
  | .node k v left right => left.nodes ++ .node k v left right :: right.nodes

theorem mem_chosen_iff {sel : Tree → Bool} {t : Tree} {k : NeighborPtr} :
    k ∈ t.chosen sel ↔ ∃ val left right, .node k val left right ∈ t.nodes ∧
      sel (.node k val left right) = true := by
  induction t with
  | null => simp [Tree.chosen, Tree.nodes]
  | node k' v left right ihl ihr =>
    simp only [Tree.chosen, Tree.nodes, List.mem_append, List.mem_cons, ihl, ihr]
    constructor
    · rintro (⟨val, l, r, hmem, hsel⟩ | hhere | ⟨val, l, r, hmem, hsel⟩)
      · exact ⟨val, l, r, .inl hmem, hsel⟩
      · obtain ⟨hsel, hk⟩ := List.mem_ite_nil_right.mp hhere
        obtain rfl := List.mem_singleton.mp hk
        exact ⟨v, left, right, .inr (.inl rfl), hsel⟩
      · exact ⟨val, l, r, .inr (.inr hmem), hsel⟩
    · rintro ⟨val, l, r, hmem | heq | hmem, hsel⟩
      · exact .inl ⟨val, l, r, hmem, hsel⟩
      · obtain ⟨rfl, rfl, rfl, rfl⟩ := Tree.node.inj heq
        exact .inr (.inl (by rw [if_pos hsel]; exact List.mem_singleton_self _))
      · exact .inr (.inr ⟨val, l, r, hmem, hsel⟩)

theorem chosen_onRecord (sel : Ident → Bool) (t : Tree) :
    t.chosen (onRecord sel) = t.selected sel := by
  induction t with
  | null => rfl
  | node k v left right ihl ihr =>
    rw [selected_node, Tree.chosen, ihl, ihr]
    rfl

theorem chosen_sublist (sel : Tree → Bool) (t : Tree) :
    (t.chosen sel).Sublist (t.inorder.map Prod.fst) := by
  induction t with
  | null => exact List.Sublist.refl _
  | node k v left right ihl ihr =>
    rw [Tree.chosen, inorder_node, List.map_append, List.map_cons]
    refine ihl.append ?_
    cases sel (.node k v left right) with
    | true => exact ihr.cons_cons k
    | false => exact ihr.cons k

/-- `init_ngb_entry` fails, or it makes an entry for `peer`. -/
theorem initNgbEntry_cases (peer : NeighborPtr) (timesSent : Nat) (w : World) :
    (value (initNgbEntry peer timesSent) w = none ∧ ¬ w.Allocates) ∨
    ∃ ent, value (initNgbEntry peer timesSent) w = some ent ∧ ent.sym = peer := by
  unfold initNgbEntry
  cases h : w.mallocs.head with
  | false =>
    have hnot : ¬ w.Allocates := fun halloc => Bool.false_ne_true (h ▸ halloc 0)
    exact .inl ⟨by rw [value_bind, (malloc_of_false h).1]; rfl, hnot⟩
  | true =>
    refine .inr ⟨{ sym := peer, timesSent := 0, waitTime := value (do
      let wait ← waitTime timesSent
      return wait + (← getSeconds)) (after malloc w) }, ?_, rfl⟩
    rw [value_bind, (malloc_of_true h).1]
    rfl

/-- A new entry has never been sent, and it is due in a second. -/
theorem eq_of_initNgbEntry {peer : NeighborPtr} {w : World} {ent : NgbEntry}
    (h : value (initNgbEntry peer 0) w = some ent) :
    ent = { sym := peer, timesSent := 0, waitTime := 1 + (w.clock.head : Int) } := by
  unfold initNgbEntry at h
  cases hhead : w.mallocs.head with
  | false =>
    rw [value_bind, (malloc_of_false hhead).1] at h
    cases h
  | true =>
    rw [value_bind, (malloc_of_true hhead).1, (malloc_of_true hhead).2] at h
    exact (Option.some.inj h).symm

/-- The deadlines do not decrease, and are in `[lo, hi]`. -/
structure Rising (lo hi : Int) (l : List NgbEntry) : Prop where
  pairwise : l.Pairwise fun x y => x.waitTime ≤ y.waitTime
  within : ∀ x ∈ l, lo ≤ x.waitTime ∧ x.waitTime ≤ hi

theorem rising_nil (lo hi : Int) : Rising lo hi [] := ⟨.nil, nofun⟩

theorem Rising.append {lo mid hi : Int} {l l' : List NgbEntry} (h : Rising lo mid l)
    (h' : Rising mid hi l') (hlo : lo ≤ mid) (hhi : mid ≤ hi) : Rising lo hi (l ++ l') where
  pairwise := List.pairwise_append.mpr ⟨h.pairwise, h'.pairwise, fun x hx y hy =>
    le_trans (h.within x hx).2 (h'.within y hy).1⟩
  within := by
    intro x hx
    rcases List.mem_append.mp hx with hx | hx
    · exact ⟨(h.within x hx).1, le_trans (h.within x hx).2 hhi⟩
    · exact ⟨le_trans hlo (h'.within x hx).1, (h'.within x hx).2⟩

/-- From `w` to `w'` the list `l` has become `l'`: it has new entries for `keys`,
or for some of them, with deadlines one second after they were made. -/
structure Gathers (keys : List NeighborPtr) (whole : Prop) (w w' : World)
    (l l' : CList NgbEntry) : Prop where
  elapsed : Elapsed w w'
  linked : l'.Linked w'.next
  contents : ∃ ents, l'.contents = l.contents ++ ents ∧
    (ents.map (·.sym)).Sublist keys ∧ (whole → ents.map (·.sym) = keys) ∧
    (w.Monotonic → Rising (1 + w.clock.head) (1 + w'.clock.head) ents)

/-- Nothing has been found. -/
theorem Gathers.nothing {keys : List NeighborPtr} {whole : Prop} {w w' : World}
    {l : CList NgbEntry} (helapsed : Elapsed w w') (h : l.Linked w'.next)
    (hkeys : whole → keys = []) :
    Gathers keys whole w w' l l :=
  ⟨helapsed, h, [], (List.append_nil _).symm, List.nil_sublist _, fun hwhole => (hkeys hwhole).symm,
    fun _ => rising_nil _ _⟩

theorem Gathers.weaken {keys : List NeighborPtr} {whole whole' : Prop} {w w' : World}
    {l l' : CList NgbEntry} (h : Gathers keys whole w w' l l') (hle : whole' → whole) :
    Gathers keys whole' w w' l l' := by
  obtain ⟨ents, hents, hsub, hall, hrising⟩ := h.contents
  exact ⟨h.elapsed, h.linked, ents, hents, hsub, fun hw => hall (hle hw), hrising⟩

theorem Gathers.trans {keys keys' : List NeighborPtr} {whole : Prop} {u v w : World}
    {l l₁ l₂ : CList NgbEntry} (h₁ : Gathers keys whole u v l l₁)
    (h₂ : Gathers keys' whole v w l₁ l₂) : Gathers (keys ++ keys') whole u w l l₂ := by
  obtain ⟨ents, hents, hsub, hall, hrising⟩ := h₁.contents
  obtain ⟨ents', hents', hsub', hall', hrising'⟩ := h₂.contents
  refine ⟨h₁.elapsed.trans h₂.elapsed, h₂.linked, ents ++ ents', ?_, ?_, fun hw => ?_, fun hu => ?_⟩
  · rw [hents', hents, List.append_assoc]
  · rw [List.map_append]
    exact hsub.append hsub'
  · rw [List.map_append, hall hw, hall' hw]
  · have hv := h₁.elapsed.monotonic hu
    have hlo := h₁.elapsed.clock_le hu
    have hhi := h₂.elapsed.clock_le hv
    exact (hrising hu).append (hrising' hv) (by omega) (by omega)

/-- What `find_by_aux` does at a node, between the two subtrees. -/
def consider (test : Peer Bool) (k : NeighborPtr) (l : CList NgbEntry) :
    Peer (CList NgbEntry) := do
  if ← test then do
    match ← initNgbEntry k 0 with
    | none => pure l
    | some ent => pure (← addLast malloc l ent).1
  else pure l

theorem findByAux_node (func : Tree → Peer Bool) (k : NeighborPtr) (v : Ident)
    (left right : Tree) (l : CList NgbEntry) :
    findByAux func (.node k v left right) l = findByAux func left l >>= fun l =>
      consider (func (.node k v left right)) k l >>= findByAux func right := by
  rw [findByAux]
  refine congrArg (findByAux func left l >>= ·) (funext fun l => ?_)
  unfold consider
  rw [bind_assoc]
  refine congrArg (func (.node k v left right) >>= ·) (funext fun b => ?_)
  cases b with
  | false => rfl
  | true =>
    simp only [if_true, bind_assoc]
    refine congrArg (initNgbEntry k 0 >>= ·) (funext fun ent => ?_)
    cases ent <;> rfl

theorem quiet_consider {test : Peer Bool} (htest : Keeps Quiet test) (k : NeighborPtr)
    (l : CList NgbEntry) : Keeps Quiet (consider test k l) := by
  apply Quiet.bind htest
  intro b
  apply Keeps.ite _ fun _ => Quiet.pure _
  intro _
  apply Quiet.bind (primitive_quiet.keeps_initNgbEntry _ _)
  intro ent
  cases ent with
  | none => exact Quiet.pure _
  | some ent => exact Quiet.bind (primitive_quiet.keeps_addLast _ _) fun _ => Quiet.pure _

section FindBy

variable {func : Tree → Peer Bool} {sel : Tree → Bool} {good : World → Prop}

/-- On good worlds the predicate says exactly which nodes have the property. -/
def Decides (func : Tree → Peer Bool) (sel : Tree → Bool) (good : World → Prop) : Prop :=
  ∀ t w, good w → value (func t) w = sel t

/-- Appending one entry, which has just been made. -/
theorem gathers_addLast {l : CList NgbEntry} {u w : World} (h : l.Linked w.next) (huw : Elapsed u w)
    {ent : NgbEntry} (hent : ent.waitTime = 1 + u.clock.head) :
    Gathers [ent.sym] w.Allocates u (after (addLast malloc l ent) w) l
      (value (addLast malloc l ent) w).1 := by
  obtain ⟨hafter, hvalue⟩ := addLast_eq h malloc ent w
  have helapsed := huw.trans (quiet_malloc w).toLater.elapsed
  rw [hafter, hvalue]
  rcases malloc_cases w with ⟨hv, hn⟩ | ⟨hv, hn⟩
  · rw [hv]
    exact (Gathers.nothing helapsed (h.mono (by omega)) fun halloc =>
      absurd hv (allocates_malloc halloc))
  · rw [hv]
    refine ⟨helapsed, h.snoc (le_refl _) (by omega) ent _, [ent], ?_, List.Sublist.refl _,
      fun _ => rfl, fun hu => ⟨List.pairwise_singleton _ _, ?_⟩⟩
    · simp [CList.contents]
    · intro x hx
      have hle := helapsed.clock_le hu
      rw [List.mem_singleton.mp hx, hent]
      omega

theorem gathers_consider (hfunc : ∀ t, Keeps Quiet (func t))
    (hsel : ∀ t w, good w → value (func t) w = true → sel t = true) {w : World}
    (hw : good w) (t : Tree) (k : NeighborPtr) {l : CList NgbEntry} (h : l.Linked w.next) :
    Gathers (if sel t then [k] else []) (w.Allocates ∧ Decides func sel good) w
      (after (consider (func t) k l) w) l (value (consider (func t) k l) w) := by
  have hquiet := hfunc t w
  have hl := h.mono hquiet.next
  have hinit := primitive_quiet.keeps_initNgbEntry k 0 (after (func t) w)
  have helapsed := (hquiet.trans hinit).toLater.elapsed
  unfold consider
  rw [value_bind, after_bind]
  cases hv : value (func t) w with
  | false =>
    refine Gathers.nothing hquiet.toLater.elapsed hl fun hwhole => ?_
    rw [← hwhole.2 t w hw, hv]
    rfl
  | true =>
    simp only [hsel t w hw hv, if_true, value_bind, after_bind]
    rcases initNgbEntry_cases k 0 (after (func t) w) with ⟨hnone, hnot⟩ | ⟨ent, hsome, rfl⟩
    · rw [hnone]
      exact Gathers.nothing helapsed (hl.mono hinit.next) fun hwhole =>
        absurd (hquiet.toLater.elapsed.allocates hwhole.1) hnot
    · rw [hsome]
      have hent : ent.waitTime = 1 + (after (func t) w).clock.head := by
        rw [eq_of_initNgbEntry hsome]
      have hadd := gathers_addLast (hl.mono hinit.next) hinit.toLater.elapsed hent
      have hnothing : Gathers [] (w.Allocates ∧ Decides func sel good) w (after (func t) w) l l :=
        .nothing hquiet.toLater.elapsed hl fun _ => rfl
      exact hnothing.trans (hadd.weaken fun hwhole => helapsed.allocates hwhole.1)

theorem gathers_findByAux (hfunc : ∀ t, Keeps Quiet (func t))
    (hgood : ∀ v w, Elapsed v w → good v → good w)
    (hsel : ∀ t w, good w → value (func t) w = true → sel t = true) (t : Tree) {w : World}
    (hw : good w) {l : CList NgbEntry} (h : l.Linked w.next) :
    Gathers (t.chosen sel) (w.Allocates ∧ Decides func sel good) w
      (after (findByAux func t l) w) l (value (findByAux func t l) w) := by
  induction t generalizing w l with
  | null => exact .nothing (Elapsed.refl w) h fun _ => rfl
  | node k v left right ihl ihr =>
    rw [findByAux_node, Tree.chosen]
    simp only [value_bind, after_bind]
    have hleft := ihl hw h
    generalize value (findByAux func left l) w = l₁ at hleft ⊢
    generalize after (findByAux func left l) w = w₁ at hleft ⊢
    have hmid := gathers_consider hfunc hsel (hgood _ _ hleft.elapsed hw) (.node k v left right) k
      hleft.linked
    generalize value (consider (func (.node k v left right)) k l₁) w₁ = l₂ at hmid ⊢
    generalize after (consider (func (.node k v left right)) k l₁) w₁ = w₂ at hmid ⊢
    have h₂ := hleft.elapsed.trans hmid.elapsed
    have hright := ihr (hgood _ _ h₂ hw) hmid.linked
    exact hleft.trans ((hmid.weaken (And.imp_left hleft.elapsed.allocates)).trans
      (hright.weaken (And.imp_left h₂.allocates)))

/-- The keys of a search tree, and those that are chosen, are in the order of
`compare_n`. -/
theorem ascending_of_sublist {t : Tree} (h : t.Sorted) {keys : List NeighborPtr}
    (hsub : keys.Sublist (t.inorder.map Prod.fst)) :
    keys.Pairwise fun k k' => compareN k.toNeighbor k'.toNeighbor < 0 := by
  refine List.Pairwise.sublist hsub (List.pairwise_map.mpr ?_)
  exact h.imp compareN_neg_iff.mpr

/-- Everything that `find_by` can return. -/
theorem findBy_spec (hfunc : ∀ t, Keeps Quiet (func t))
    (hgood : ∀ v w, Elapsed v w → good v → good w)
    (hsel : ∀ t w, good w → value (func t) w = true → sel t = true) (t : Tree) {w : World}
    (hw : good w) :
    (value (findBy t func) w = none ∧ ¬ w.Allocates) ∨
    ∃ l, value (findBy t func) w = some l ∧ l.Linked (after (findBy t func) w).next ∧
      (l.contents.map (·.sym)).Sublist (t.chosen sel) ∧
      (w.Allocates → Decides func sel good → l.contents.map (·.sym) = t.chosen sel) ∧
      (w.Monotonic → l.contents.Pairwise fun x y => x.waitTime ≤ y.waitTime) := by
  have hmalloc := (quiet_malloc w).toLater.elapsed
  unfold findBy
  simp only [value_bind, after_bind]
  rcases malloc_cases w with ⟨hv, -⟩ | ⟨hv, -⟩
  · rw [hv]
    exact .inl ⟨rfl, fun halloc => allocates_malloc halloc hv⟩
  · rw [hv]
    obtain ⟨-, hlinked, ents, hents, hsub, hall, hrising⟩ := gathers_findByAux hfunc hgood hsel t
      (hgood _ _ hmalloc hw) (linked_initList _)
    have hcontents : (value (findByAux func t initList) (after malloc w)).contents = ents := hents
    refine .inr ⟨value (findByAux func t initList) (after malloc w), rfl, hlinked, ?_,
      fun halloc hdecides => ?_, fun hmono => ?_⟩
    · rw [hcontents]
      exact hsub
    · rw [hcontents]
      exact hall ⟨hmalloc.allocates halloc, hdecides⟩
    · rw [hcontents]
      exact (hrising (hmalloc.monotonic hmono)).pairwise

/-- **`find_by` is exact.**  With memory, and a predicate that decides the same
property all the time, it returns the nodes with this property, each once, in
the order of `compare_n`, and with deadlines that do not decrease. -/
theorem findBy_exact {t : Tree} (hsorted : t.Sorted) {w : World}
    (hfunc : ∀ t, Keeps Quiet (func t)) (hsel : ∀ t v, Elapsed w v → value (func t) v = sel t)
    (halloc : w.Allocates) :
    ∃ l, value (findBy t func) w = some l ∧ l.Linked (after (findBy t func) w).next ∧
      (∀ k, k ∈ l.contents.map (·.sym) ↔ ∃ val left right, .node k val left right ∈ t.nodes ∧
        sel (.node k val left right) = true) ∧
      (l.contents.Pairwise fun x y => compareN x.sym.toNeighbor y.sym.toNeighbor < 0) ∧
      (w.Monotonic → l.contents.Pairwise fun x y => x.waitTime ≤ y.waitTime) ∧
      (t = .null → l = initList) ∧
      (after (findBy t func) w).neighbors = w.neighbors ∧
      (after (findBy t func) w).potential = w.potential := by
  have hquiet := primitive_quiet.keeps_findBy hfunc t w
  have hspec := @findBy_spec func sel (Elapsed w) hfunc (fun _ _ h hw => hw.trans h)
    (fun t v hv htrue => (hsel t v hv) ▸ htrue) t w (Elapsed.refl w)
  rcases hspec with ⟨-, hnot⟩ | ⟨l, hl, hlinked, hsub, hall, hrising⟩
  · exact absurd halloc hnot
  · have hkeys := hall halloc hsel
    refine ⟨l, hl, hlinked, fun k => ?_, ?_, hrising, fun hnull => ?_, hquiet.neighbors,
      hquiet.potential⟩
    · rw [hkeys, mem_chosen_iff]
    · -- the walk is in order, and so is every part of it
      have hascending := ascending_of_sublist hsorted (chosen_sublist sel t)
      rw [← hkeys] at hascending
      exact List.pairwise_map.mp hascending
    · subst hnull
      unfold findBy at hl
      rw [value_bind] at hl
      cases hv : value malloc w with
      | none =>
        rw [hv] at hl
        cases hl
      | some a =>
        rw [hv] at hl
        exact (Option.some.inj hl).symm

end FindBy

/-- Two nodes; the left one was last heard 200 seconds before the clock began. -/
def twoNodes : Tree :=
  .node { ip := .replicate 16 2, port := 5, msg := none, addr := 1 } ⟨7, 0, 0⟩
    (.node { ip := .replicate 16 1, port := 5, msg := none, addr := 2 } ⟨8, -200, -200⟩ .null .null)
    .null

theorem sorted_twoNodes : twoNodes.Sorted := by
  unfold Tree.Sorted SortedAssoc.Ascending
  decide +kernel

/-- The other one is symmetrical at the time `10`. -/
theorem findBy_exact_twoNodes : ∃ l,
    value (findBy twoNodes issymmetrical) (World.boot fun _ => 10) = some l ∧
    { ip := .replicate 16 2, port := 5, msg := none, addr := 1 } ∈ l.contents.map (·.sym) := by
  have hsel : ∀ t v, Elapsed (World.boot fun _ => 10) v → value (issymmetrical t) v =
      onRecord (fun val => decide ((10 : Int) - val.lastHelloLong < 120)) t := by
    intro t v h
    obtain ⟨n, hn⟩ := h.clock
    cases t with
    | null => rfl
    | node k val left right =>
      show decide ((v.clock.head : Int) - val.lastHelloLong < 120) = _
      rw [hn]
      rfl
  obtain ⟨l, hl, -, hmem, -⟩ := findBy_exact sorted_twoNodes primitive_quiet.keeps_issymmetrical
    hsel fun _ => rfl
  refine ⟨l, hl, (hmem _).mpr ⟨⟨7, 0, 0⟩, _, _, List.mem_append_right _ List.mem_cons_self, ?_⟩⟩
  decide

/-! ### How the entries are made -/

/-- `init_ngb_entry` has made the entry since `w`. -/
def Made (w : World) (ent : NgbEntry) : Prop :=
  ∃ v, Elapsed w v ∧ value (initNgbEntry ent.sym 0) v = some ent

theorem mem_linkAfter {α : Type} {a : Nat} {res e : ListEntry α} {l : List (ListEntry α)}
    (h : e ∈ linkAfter a res l) : e ∈ l ∨ e = res := by
  induction l with
  | nil => cases h
  | cons x rest ih =>
    unfold linkAfter at h
    split at h
    · rcases List.mem_cons.mp h with rfl | h
      · exact .inl List.mem_cons_self
      · exact .inr (List.mem_singleton.mp h)
    · rcases List.mem_cons.mp h with rfl | h
      · exact .inl List.mem_cons_self
      · exact (ih h).imp_left (List.mem_cons_of_mem _)

theorem mem_addLast {l : CList NgbEntry} {elem ent : NgbEntry} {w : World}
    (h : ent ∈ (value (addLast malloc l elem) w).1.contents) : ent ∈ l.contents ∨ ent = elem := by
  unfold addLast initEntry at h
  cases hlast : l.last with
  | none =>
    rw [hlast] at h
    simp only [value_bind, value_pure] at h
    cases hv : value malloc w with
    | none =>
      rw [hv] at h
      cases h
    | some a =>
      rw [hv] at h
      exact .inr (List.mem_singleton.mp h)
  | some b =>
    rw [hlast] at h
    simp only [value_bind, value_pure] at h
    cases hv : value malloc w with
    | none =>
      rw [hv] at h
      exact .inl h
    | some a =>
      rw [hv] at h
      obtain ⟨e, he, rfl⟩ := List.mem_map.mp h
      rcases mem_linkAfter he with he | rfl
      · exact .inl (List.mem_map_of_mem he)
      · exact .inr rfl

theorem made_findByAux {func : Tree → Peer Bool} (hfunc : ∀ t, Keeps Quiet (func t))
    (t : Tree) {w₀ w : World} (hw : Elapsed w₀ w) {l : CList NgbEntry}
    (hl : ∀ ent ∈ l.contents, Made w₀ ent) :
    ∀ ent ∈ (value (findByAux func t l) w).contents, Made w₀ ent := by
  induction t generalizing w l with
  | null => exact hl
  | node k v left right ihl ihr =>
    rw [findByAux_node]
    simp only [value_bind]
    have hleft := ihl hw hl
    have h₁ := hw.trans (primitive_quiet.keeps_findByAux hfunc left l w).toLater.elapsed
    generalize value (findByAux func left l) w = l₁ at hleft ⊢
    generalize after (findByAux func left l) w = w₁ at h₁ ⊢
    refine ihr (h₁.trans (quiet_consider (hfunc (.node k v left right)) k l₁ w₁).toLater.elapsed) ?_
    -- the entry for this node is made now
    have h₂ := h₁.trans (hfunc (.node k v left right) w₁).toLater.elapsed
    unfold consider
    rw [value_bind, value_ite]
    split
    · rw [value_bind]
      cases hent : value (initNgbEntry k 0) (after (func (.node k v left right)) w₁) with
      | none => exact hleft
      | some ent =>
        intro ent' hent'
        rcases mem_addLast hent' with hold | rfl
        · exact hleft ent' hold
        · refine ⟨_, h₂, ?_⟩
          rw [show ent'.sym = k by rw [eq_of_initNgbEntry hent]]
          exact hent
    · exact hleft

theorem made_getSymmetrical {t : Tree} {w : World} {l : CList NgbEntry}
    (h : value (getSymmetrical t) w = some l) : ∀ ent ∈ l.contents, Made w ent := by
  unfold getSymmetrical findBy at h
  have hmalloc := (quiet_malloc w).toLater.elapsed
  rw [value_bind] at h
  cases hv : value malloc w with
  | none =>
    rw [hv] at h
    cases h
  | some a =>
    rw [hv] at h
    obtain rfl := Option.some.inj h
    exact made_findByAux primitive_quiet.keeps_issymmetrical t hmalloc
      fun _ hent => absurd hent List.not_mem_nil

/-! ### `get_symmetrical` at a time -/

/-- The same state, with a clock that stands at `u` seconds. -/
def World.at (w : World) (u : Nat) : World := { w with clock := Stream'.const u }

/-- The list that `get_symmetrical(NEIGHBORS)` returns at the time `u`. -/
def World.symmetricAt (w : World) (u : Nat) : List NgbEntry :=
  ((value (getSymmetrical w.neighbors) (w.at u)).map CList.contents).getD []

/-- `issymmetrical` at the time `u`. -/
def Ident.symmetricAt (val : Ident) (u : Nat) : Bool := decide ((u : Int) - val.lastHelloLong < 120)

/-- A clock that stands still goes on standing still. -/
theorem Elapsed.frozen {v w : World} {u : Nat} (h : Elapsed v w) (hv : v.clock = Stream'.const u) :
    w.clock = Stream'.const u := by
  obtain ⟨n, hn⟩ := h.clock
  rw [hn, hv]
  rfl

theorem value_issymmetrical {w : World} {u : Nat} (h : w.clock = Stream'.const u) (t : Tree) :
    value (issymmetrical t) w = onRecord (·.symmetricAt u) t := by
  cases t with
  | null => rfl
  | node k val left right =>
    show decide ((w.clock.head : Int) - val.lastHelloLong < 120) = _
    rw [h]
    rfl

/-- The members of the list are keys of symmetric records; none is missing when
there is memory. -/
theorem symmetricAt_spec (w : World) (u : Nat) :
    ((w.symmetricAt u).map (·.sym)).Sublist (w.neighbors.selected (·.symmetricAt u)) ∧
    (w.Allocates →
      (w.symmetricAt u).map (·.sym) = w.neighbors.selected (·.symmetricAt u)) := by
  have hdecides : Decides issymmetrical (onRecord (·.symmetricAt u))
      fun v => v.clock = Stream'.const u := fun t _ h => value_issymmetrical h t
  have hspec := findBy_spec primitive_quiet.keeps_issymmetrical (fun _ _ h => h.frozen)
    (fun t v h htrue => (hdecides t v h) ▸ htrue) w.neighbors (show (w.at u).clock = _ from rfl)
  rw [chosen_onRecord] at hspec
  unfold World.symmetricAt getSymmetrical
  rcases hspec with ⟨hv, hnot⟩ | ⟨l, hv, -, hsub, hall, -⟩
  · rw [hv]
    exact ⟨List.nil_sublist _, fun halloc => absurd halloc hnot⟩
  · rw [hv]
    exact ⟨hsub, fun halloc => hall halloc hdecides⟩

theorem mem_selected_iff {t : Tree} {sel : Ident → Bool} {k : NeighborPtr} :
    k ∈ t.selected sel ↔ ∃ val, (k, val) ∈ t.inorder ∧ sel val = true := by
  unfold Tree.selected
  constructor
  · intro h
    obtain ⟨⟨k', val⟩, he, rfl⟩ := List.mem_map.mp h
    exact ⟨val, List.mem_filter.mp he⟩
  · rintro ⟨val, he, hsel⟩
    exact List.mem_map.mpr ⟨(k, val), List.mem_filter.mpr ⟨he, hsel⟩, rfl⟩

/-! ### What a list depends on -/

/-- The clock and the allocator will give the same answers. -/
structure Alike (u w : World) : Prop where
  clock : u.clock = w.clock
  mallocs : u.mallocs = w.mallocs
  next : u.next = w.next

/-- The result depends on these answers only, and as many of them are used. -/
def Agrees {α : Type} (m : Peer α) : Prop :=
  ∀ u w, Alike u w → value m u = value m w ∧ Alike (after m u) (after m w)

section Agrees

variable {α β : Type}

theorem Agrees.pure (a : α) : Agrees (Pure.pure a : Peer α) := fun _ _ h => ⟨rfl, h⟩

theorem Agrees.bind {m : Peer α} {f : α → Peer β} (hm : Agrees m) (hf : ∀ a, Agrees (f a)) :
    Agrees (m >>= f) := by
  intro u w h
  obtain ⟨hvalue, hafter⟩ := hm u w h
  rw [value_bind, value_bind, after_bind, after_bind, hvalue]
  exact hf _ _ _ hafter

theorem Agrees.ite {c : Prop} [Decidable c] {m n : Peer α} (hm : Agrees m) (hn : Agrees n) :
    Agrees (if c then m else n) := by
  split
  · exact hm
  · exact hn

theorem agrees_malloc : Agrees malloc := by
  intro u w h
  cases hhead : w.mallocs.head with
  | true =>
    obtain ⟨hu, hu'⟩ := malloc_of_true (w := u) (by rw [h.mallocs]; exact hhead)
    obtain ⟨hw, hw'⟩ := malloc_of_true hhead
    rw [hu, hw, hu', hw', h.next]
    exact ⟨rfl, h.clock, congrArg Stream'.tail h.mallocs, rfl⟩
  | false =>
    obtain ⟨hu, hu'⟩ := malloc_of_false (w := u) (by rw [h.mallocs]; exact hhead)
    obtain ⟨hw, hw'⟩ := malloc_of_false hhead
    rw [hu, hw, hu', hw']
    exact ⟨rfl, h.clock, congrArg Stream'.tail h.mallocs, h.next⟩

theorem agrees_getSeconds : Agrees getSeconds := by
  intro u w h
  rw [value_getSeconds, value_getSeconds, h.clock]
  exact ⟨rfl, congrArg Stream'.tail h.clock, h.mallocs, h.next⟩

/-- The first deadline of an entry is not random. -/
theorem agrees_initNgbEntry (peer : NeighborPtr) : Agrees (initNgbEntry peer 0) := by
  apply Agrees.bind agrees_malloc
  intro res
  cases res with
  | none => exact Agrees.pure _
  | some _ =>
    exact Agrees.bind (Agrees.pure _) fun _ => Agrees.bind agrees_getSeconds fun _ =>
      Agrees.pure _

theorem agrees_addLast (this : CList α) (elem : α) : Agrees (addLast malloc this elem) := by
  unfold addLast
  split
  all_goals
    apply Agrees.bind (Agrees.bind agrees_malloc fun _ => Agrees.pure _)
    intro res
    cases res <;> exact Agrees.pure _

theorem agrees_getSymmetrical (t : Tree) : Agrees (getSymmetrical t) := by
  have haux : ∀ l, Agrees (findByAux issymmetrical t l) := by
    induction t with
    | null => exact fun _ => Agrees.pure _
    | node k v left right ihl ihr =>
      intro l
      rw [findByAux_node]
      apply Agrees.bind (ihl l)
      intro l
      refine Agrees.bind ?_ ihr
      apply Agrees.bind (Agrees.bind agrees_getSeconds fun _ => Agrees.pure _)
      intro b
      apply Agrees.ite _ (Agrees.pure _)
      apply Agrees.bind (agrees_initNgbEntry _)
      intro ent
      cases ent with
      | none => exact Agrees.pure _
      | some ent => exact Agrees.bind (agrees_addLast _ _) fun _ => Agrees.pure _
  apply Agrees.bind agrees_malloc
  intro res
  cases res with
  | none => exact Agrees.pure _
  | some _ => exact Agrees.bind (haux _) fun _ => Agrees.pure _

end Agrees

/-- The members of a list of symmetrical neighbours are keys of the tree. -/
theorem getSymmetrical_cases (t : Tree) (w : World) :
    (value (getSymmetrical t) w = none ∧ ¬ w.Allocates) ∨
    ∃ l, value (getSymmetrical t) w = some l ∧
      l.Linked (after (getSymmetrical t) w).next ∧
      (l.contents.map (·.sym)).Sublist (t.inorder.map Prod.fst) := by
  have hspec := @findBy_spec issymmetrical (fun _ => true) (fun _ => True)
    primitive_quiet.keeps_issymmetrical (fun _ _ _ _ => trivial) (fun _ _ _ _ => rfl) t w trivial
  rcases hspec with hnone | ⟨l, hl, hlinked, hsub, -⟩
  · exact .inl hnone
  · exact .inr ⟨l, hl, hlinked, hsub.trans (chosen_sublist _ _)⟩

end FloodPeer
