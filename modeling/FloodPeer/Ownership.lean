/-
FloodPeer/Ownership.lean

Who owns the messages that are being gathered.

`Sound` says that the message of a neighbour is there and is its own.  The other
half is that nothing else is there: whatever was allocated for a record that
could not be made is given back, and a record that goes takes its message with
it (`World.Tidy`).  It holds however the allocator behaves (`owned_of_run`).
-/
import FloodPeer.Actions
import FloodPeer.Hellos

namespace FloodPeer

open Octets StateLogic SortedAssoc Runs

/-- Every message is that of a neighbour. -/
def World.Tidy (w : World) : Prop :=
  ∀ a, w.msgs a ≠ none → ∃ e ∈ w.neighbors.inorder, e.1.msg = some a

/-! ### Functions that leave `NEIGHBORS` alone -/

/-- `NEIGHBORS` is what it was, and no message has been allocated. -/
structure Lives (w w' : World) : Prop where
  neighbors : w'.neighbors = w.neighbors
  msgs : ∀ a, w'.msgs a ≠ none → w.msgs a ≠ none

theorem lives_of_same {w w' : World} (hn : w'.neighbors = w.neighbors)
    (hm : w'.msgs = w.msgs) : Lives w w' :=
  ⟨hn, fun a ha => by rwa [← hm]⟩

theorem Lives.refl (w : World) : Lives w w := lives_of_same rfl rfl

theorem Lives.trans {u v w : World} (h₁ : Lives u v) (h₂ : Lives v w) : Lives u w :=
  ⟨h₂.neighbors.trans h₁.neighbors, fun a ha => h₁.msgs a (h₂.msgs a ha)⟩

theorem Sends.lives {w w' : World} (h : Sends w w') : Lives w w' where
  neighbors := h.neighbors
  msgs := by
    intro a ha
    rw [← Option.isSome_iff_ne_none] at ha ⊢
    rwa [← h.live]

theorem Quiet.lives {w w' : World} (h : Quiet w w') : Lives w w' :=
  lives_of_same h.neighbors h.msgs

/-- Between the start and the end `NEIGHBORS` stays a search tree, and no message is
lost. -/
def Tends (w w' : World) : Prop :=
  w.neighbors.Sorted → w.Tidy → w'.neighbors.Sorted ∧ w'.Tidy

theorem Lives.tends {w w' : World} (h : Lives w w') : Tends w w' := by
  intro hsorted htidy
  rw [h.neighbors]
  refine ⟨hsorted, fun a ha => ?_⟩
  rw [h.neighbors]
  exact htidy a (h.msgs a ha)

theorem Tends.refl (w : World) : Tends w w := fun hsorted htidy => ⟨hsorted, htidy⟩

theorem Tends.trans {u v w : World} (h₁ : Tends u v) (h₂ : Tends v w) : Tends u w := by
  intro hsorted htidy
  obtain ⟨hsorted', htidy'⟩ := h₁ hsorted htidy
  exact h₂ hsorted' htidy'

/-! ### Records that come and go -/

/-- What is freed is gone, and all else is as it was. -/
theorem msgs_freeIfSet_ne {msg : Option Nat} {w : World} {a : Nat}
    (h : (after (freeIfSet msg) w).msgs a ≠ none) : msg ≠ some a ∧ w.msgs a ≠ none := by
  have hne : msg ≠ some a := by
    rintro rfl
    exact h (if_pos rfl)
  rw [msgs_freeIfSet msg w a hne] at h
  exact ⟨hne, h⟩

/-- A record takes its message with it. -/
theorem tends_removeNeighbor (key : Neighbor) : Keeps Tends (removeNeighbor key) := by
  intro w hsorted htidy
  obtain ⟨t, ht, hinorder, hafter⟩ := after_removeNeighbor hsorted key
  rw [hafter]
  refine ⟨ht, fun a ha => ?_⟩
  obtain ⟨hkept, hthere⟩ := msgs_freeIfSet_ne ha
  obtain ⟨e, he, hmsg⟩ := htidy a hthere
  refine ⟨e, ?_, hmsg⟩
  show e ∈ t.inorder
  rw [hinorder, mem_erase_iff]
  refine ⟨he, fun hplace => hkept ?_⟩
  rw [(find?_eq_some_iff hsorted).mpr ⟨he, hplace⟩]
  exact hmsg

theorem lives_removeNeighborAux (key : Neighbor) (t : Tree) :
    Keeps Lives (removeNeighborAux key t) := by
  induction t with
  | null => exact Lives.refl
  | node k v left right ihl ihr =>
    intro w
    rw [removeNeighborAux]
    refine Keeps.ite (fun _ => ?_) (fun _ => Keeps.ite (fun _ => ?_) fun _ => ?_) w
    · intro u
      refine ⟨?_, fun a ha => (msgs_freeIfSet_ne ha).2⟩
      exact (freeIfSet_same k.msg u).2.1
    · exact ihl
    · exact ihr

theorem tends_removePotential (key : Neighbor) : Keeps Tends (removePotential key) := by
  intro w
  exact (lives_removeNeighborAux key w.potential w).tends.trans (lives_of_same rfl rfl).tends

/-- The new record is there. -/
theorem Added.mem_new {key : Neighbor} {val : Ident} {t t' : Tree} {lo hi : Nat}
    (hadd : Added key val t lo hi t' 1) (h : t.Sorted) :
    ∃ e ∈ t'.inorder, e.1.msg = key.msg := by
  cases hadd with
  | added a _ _ habsent hinorder =>
    refine ⟨({ key with addr := a }, val), ?_, rfl⟩
    rw [hinorder]
    exact (mem_upsert_iff entryPlace h).mpr (.inr (.inr ⟨habsent, rfl⟩))

/-- Whoever had a message still has it. -/
theorem Added.mem_old {key : Neighbor} {val : Ident} {t t' : Tree} {lo hi : Nat} {rc : Int}
    (hadd : Added key val t lo hi t' rc) (h : t.Sorted) {a : Nat}
    (ha : ∃ e ∈ t.inorder, e.1.msg = some a) : ∃ e ∈ t'.inorder, e.1.msg = some a := by
  obtain ⟨e, he, hmsg⟩ := ha
  rcases hadd.mem_of_mem h he with ⟨hmem, -⟩ | ⟨-, -, hmem⟩
  · exact ⟨e, hmem, hmsg⟩
  · exact ⟨touchEntry val e, hmem, hmsg⟩

/-- Only a record that is made gets a message. -/
theorem tends_addNeighbor (key : Neighbor) (val : Ident) : Keeps Tends (addNeighbor key val) := by
  intro w hsorted htidy
  have hmalloc := quiet_malloc w
  rw [(addNeighbor_eq hsorted key val).1]
  unfold recordNeighbor
  simp only [after_bind, value_get, after_get]
  generalize value malloc w = msg
  -- the state in which the tree is changed
  obtain ⟨u, hu⟩ : ∃ u, after (emptyMsg msg) (after malloc w) = u := ⟨_, rfl⟩
  have hneighbors : u.neighbors = w.neighbors := by
    rw [← hu, neighbors_emptyMsg]
    exact hmalloc.neighbors
  have hmsgs : ∀ b, msg ≠ some b → u.msgs b = w.msgs b := by
    intro b hb
    rw [← hu, msgs_emptyMsg _ _ _ hb, hmalloc.msgs]
  rw [hu]
  have hins := added_insertRecord (hneighbors ▸ hsorted) { key with msg := msg } val u
  have hquiet := quiet_insertRecord { key with msg := msg } val u.neighbors u
  generalize value (insertRecord { key with msg := msg } val u.neighbors) u = r at hins ⊢
  generalize after (insertRecord { key with msg := msg } val u.neighbors) u = v at hins hquiet ⊢
  obtain ⟨t, rc⟩ := r
  rw [hneighbors] at hins
  have ht := hins.sorted hsorted
  have hold : ∀ b, msg ≠ some b → v.msgs b ≠ none → ∃ e ∈ t.inorder, e.1.msg = some b := by
    intro b hb hthere
    rw [hquiet.msgs, hmsgs b hb] at hthere
    exact hins.mem_old hsorted (htidy b hthere)
  by_cases hrc : rc = 1
  · subst hrc
    rw [if_pos rfl]
    refine ⟨ht, fun a ha => ?_⟩
    by_cases hmsg : msg = some a
    · obtain ⟨e, he, heq⟩ := hins.mem_new hsorted
      exact ⟨e, he, heq.trans hmsg⟩
    · exact hold a hmsg ha
  · rw [if_neg hrc]
    simp only [after_bind, after_modify, after_pure]
    have hfree : (after (freeIfSet msg) { v with neighbors := t }).neighbors = t :=
      (freeIfSet_same msg { v with neighbors := t }).2.1
    refine ⟨?_, fun a ha => ?_⟩
    · rw [hfree]
      exact ht
    · rw [hfree]
      obtain ⟨hkept, hthere⟩ := msgs_freeIfSet_ne ha
      exact hold a hkept hthere

theorem lives_addPotential (key : Neighbor) (val : Ident) : Keeps Lives (addPotential key val) := by
  intro w
  have hafter := congrArg Prod.fst (addPotential_eq key val w)
  dsimp only at hafter
  rw [hafter]
  have hins := quiet_insertRecord { key with msg := none } val w.potential w
  exact hins.lives.trans (lives_of_same rfl rfl)

/-! ### Runs -/

theorem tends_note (o : Obs) : Keeps Tends (note o) := fun _ => (lives_of_same rfl rfl).tends

theorem acts_tends : Acts Tends where
  refl := Tends.refl
  trans := Tends.trans
  onMalloc := fun w => (quiet_malloc w).lives.tends
  onGetSeconds := fun w => (quiet_getSeconds w).lives.tends
  onRand := fun w => (quiet_rand w).lives.tends
  onUninit := fun w => (quiet_uninit w).lives.tends
  onFault := tends_note _
  onSetSyms := fun _ _ _ => (lives_of_same rfl rfl).tends
  onRemark := fun _ => tends_note _
  onSet := fun _ _ _ _ => (lives_of_same rfl rfl).tends
  onSend := fun taille _ _ => (sends_sendMessage _ taille _ _).lives.tends
  onFlush := fun _ => (sends_flushNeighbor _ _).lives.tends
  onRemoveNeighbor := tends_removeNeighbor
  onRemovePotential := tends_removePotential
  onAddPotential := fun val _ => (lives_addPotential _ val _).tends

theorem tends_acceptHello (val : Ident) (peer : Neighbor) : Keeps Tends (acceptHello val peer) := by
  refine acts_tends.bind (tends_addNeighbor peer val) fun rc => ?_
  refine Keeps.ite (fun _ => ?_) fun _ => acts_tends.pure _
  refine acts_tends.bind (tends_removePotential _) fun _ => ?_
  refine acts_tends.bind acts_tends.get fun _ => ?_
  exact acts_tends.bind (fun w => (sends_sendHelloEveryone _ w).lives.tends) fun _ =>
    acts_tends.pure _

theorem Move.Does.tends {m : Move} {w w' : World} (h : m.Does w w') (hw : w.Sound) :
    Tends w w' := by
  refine acts_tends.does h hw tends_acceptHello ?_
  rintro rfl
  exact (lives_of_same (Idle.neighbors h) (Idle.msgs h)).tends

theorem tidy_of_run {w₀ w : World} {tr : List (World × Move)} (hinit : w₀.Initial)
    (hrun : Run Move.Does w₀ tr w) : w.Tidy := by
  have htidy : w₀.Tidy := fun a ha => absurd (congrFun hinit.msgs a) ha
  have hkept := hrun.invariant (I := fun w => w.Sound ∧ w.Tidy) ⟨sound_of_initial hinit, htidy⟩
    fun _ _ _ hv hmove => ⟨hmove.sound hv.1, (hmove.tends hv.1 hv.1.neighbors hv.2).2⟩
  exact hkept.2

/-- **Every message has one owner.**  In every run, and however the allocator
behaves, the messages that are allocated are those to which the records point, and no
two records point to one. -/
theorem owned_of_run {w₀ w : World} {tr : List (World × Move)} (hinit : w₀.Initial)
    (hrun : Run Move.Does w₀ tr w) :
    (∀ a, w.msgs a ≠ none ↔ ∃ e ∈ w.neighbors.inorder, e.1.msg = some a) ∧
      ∀ e ∈ w.neighbors.inorder, ∀ e' ∈ w.neighbors.inorder, ∀ a,
        e.1.msg = some a → e'.1.msg = some a → e = e' := by
  have hw := sound_of_run hrun (sound_of_initial hinit)
  refine ⟨fun a => ⟨tidy_of_run hinit hrun a, ?_⟩, hw.own⟩
  rintro ⟨e, he, hmsg⟩ hnone
  obtain ⟨-, m, hm, -⟩ := hw.box e he a hmsg
  exact Option.some_ne_none m (hm.symm.trans hnone)

/-- The third of the allocations that a first Hello asks for fails. -/
def poor : World := { bootAt 0 with mallocs := fun k => decide (k ≠ 2) }

/-- The message of a record that could not be made is given back; the next Hello is
luckier. -/
theorem owned_poor :
    let w := actAll [shortHello 7, shortHello 7] poor
    ((w.msgs 1).isNone ∧ w.neighbors.inorder.map (·.1.msg) = [some 3]) ∧
      (∀ a, w.msgs a ≠ none ↔ ∃ e ∈ w.neighbors.inorder, e.1.msg = some a) := by
  have hinit : poor.Initial := ⟨rfl, rfl, rfl, rfl, by decide, rfl⟩
  have h := owned_of_run hinit (run_actAll [shortHello 7, shortHello 7] poor)
  exact ⟨by decide +kernel, h.1⟩

end FloodPeer
