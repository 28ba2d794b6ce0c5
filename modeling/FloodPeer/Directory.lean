/-
FloodPeer/Directory.lean

The trees of records as search trees, and as finite maps.

`Tree.Search` is the search tree property in the words of the source, with
`compare_n`; `disjoint_of_run` says what always holds of `NEIGHBORS` and
`POTENTIAL` together.  The second half compares a tree that is changed by
`add_neighbor_aux` and `remove_neighbor_aux` with a map from addresses to
records: `Directory.act` is what the two operations should do to such a map,
and `implements_of_run` says that they do it.
-/
import FloodPeer.Sound

namespace FloodPeer

open Octets StateLogic SortedAssoc Runs

/-! ### Search trees under `compare_n` -/

/-- The search tree property: smaller keys to the left, greater ones to the
right. -/
def Tree.Search : Tree → Prop
  | .null => True
  | .node k _ left right => left.Search ∧ right.Search ∧
      (∀ e ∈ left.inorder, compareN e.1.toNeighbor k.toNeighbor < 0) ∧
      ∀ e ∈ right.inorder, compareN k.toNeighbor e.1.toNeighbor < 0

/-- The keys strictly increase from left to right. -/
def Tree.Increasing (t : Tree) : Prop :=
  (t.inorder.map fun e => e.1.toNeighbor).Pairwise fun key1 key2 => compareN key1 key2 < 0

theorem search_iff_sorted (t : Tree) : t.Search ↔ t.Sorted := by
  induction t with
  | null => exact ⟨fun _ => sorted_null, fun _ => trivial⟩
  | node k v left right ihl ihr =>
    rw [sorted_node_iff]
    apply and_congr ihl
    apply and_congr ihr
    -- `compare_n` decides the order of the places
    apply and_congr
    · exact forall₂_congr fun e _ => compareN_neg_iff
    · exact forall₂_congr fun e _ => compareN_neg_iff

theorem increasing_iff_sorted (t : Tree) : t.Increasing ↔ t.Sorted := by
  unfold Tree.Increasing Tree.Sorted Ascending
  rw [List.pairwise_map]
  apply iff_of_eq
  apply congrArg (List.Pairwise · t.inorder)
  funext e e'
  exact propext compareN_neg_iff

/-! ### Known and potential neighbours -/

/-- What holds of the two trees together. -/
structure World.Disjoint (w : World) : Prop where
  neighbors : w.neighbors.Search
  potential : w.potential.Search
  /-- The keys of each tree are pairwise distinct. -/
  distinct : (w.neighbors.inorder.map fun e => (e.1.ip, e.1.port)).Nodup ∧
    (w.potential.inorder.map fun e => (e.1.ip, e.1.port)).Nodup
  apart : ∀ e ∈ w.neighbors.inorder, ∀ e' ∈ w.potential.inorder,
    ¬ (e.1.ip = e'.1.ip ∧ e.1.port = e'.1.port)
  /-- No potential neighbour has a pending buffer, -/
  direct : ∀ e ∈ w.potential.inorder, e.1.msg = none
  /-- so that what is sent to it leaves at once. -/
  atOnce : ∀ e ∈ w.potential.inorder, ∀ (buf : MessageH) (taille : Nat) (v : World),
    after (sendMessage buf taille e.1.toNeighbor) v =
      after (sendto (neighborToSockaddr6 e.1.toNeighbor) (buf.bytes taille)) v

/-- The keys of a search tree are distinct. -/
theorem Tree.Sorted.nodup {t : Tree} (h : t.Sorted) :
    (t.inorder.map fun e => (e.1.ip, e.1.port)).Nodup := by
  unfold List.Nodup
  rw [List.pairwise_map]
  apply List.Pairwise.imp ?_ h
  intro e e' hlt heq
  obtain ⟨hip, hport⟩ := Prod.mk.inj heq
  exact ne_of_lt hlt (place_eq_iff.mpr ⟨hip, hport⟩)

theorem World.Sound.disjoint {w : World} (h : w.Sound) : w.Disjoint where
  neighbors := (search_iff_sorted _).mpr h.neighbors
  potential := (search_iff_sorted _).mpr h.potential
  distinct := ⟨h.neighbors.nodup, h.potential.nodup⟩
  apart := fun e he e' he' hsame => h.apart e he e' he' (place_eq_iff.mpr hsame)
  direct := h.direct
  atOnce := fun e he _ _ _ => sendMessage_direct (h.direct e he)

/-- **Known and potential neighbours never overlap**, whatever the allocator
answers. -/
theorem disjoint_of_run {w₀ w : World} {tr : List (World × Move)} (hinit : w₀.Initial)
    (hrun : Run Move.Does w₀ tr w) : w.Disjoint :=
  (sound_of_run hrun (sound_of_initial hinit)).disjoint

/-- A peer that hears of another one, and then from a third. -/
def twoPeers : World :=
  actAll [.tlv 3 (fun _ => 1) 18 { addr := Vector.replicate 16 2, port := 5 },
    .tlv 2 (fun _ => 7) 8 { addr := Vector.replicate 16 2, port := 5 }] (World.boot id)

theorem disjoint_twoPeers : twoPeers.Disjoint ∧ twoPeers.neighbors.inorder.length = 1 ∧
    twoPeers.potential.inorder.length = 1 :=
  ⟨disjoint_of_run (initial_boot _) (run_actAll _ _), by decide +kernel, by decide +kernel⟩

/-! ### The operations on a tree -/

/-- The operations on a tree of records.  Like its callers, `add` tests for the
empty tree before it calls `add_neighbor_aux`. -/
inductive TreeOp where
  | add (key : Neighbor) (val : Ident)
  | remove (key : Neighbor)
  deriving DecidableEq

/-- The key an operation is about. -/
def TreeOp.key : TreeOp → Neighbor
  | .add key _ => key
  | .remove key => key

/-- What an operation does to a tree; `remove_neighbor_aux` has no return code. -/
def TreeOp.exec : TreeOp → Tree → Peer (Tree × Option Int)
  | .add key val, t => do
    let (t', rc) ← insertRecord key val t
    return (t', some rc)
  | .remove key, t => do
    let t' ← removeNeighborAux key t
    return (t', none)

/-- One operation, on a tree and the rest of the world. -/
def TreeOp.act (op : TreeOp) (s : Tree × World) : Tree × World :=
  ((value (op.exec s.1) s.2).1, after (op.exec s.1) s.2)

def TreeOp.Does (op : TreeOp) (s s' : Tree × World) : Prop := s' = op.act s

/-- The tree with new times in the record of `key`, and nothing else new. -/
def Tree.touch (key : Neighbor) (val : Ident) : Tree → Tree
  | .null => .null
  | .node k v left right =>
    .node k (if compareN k.toNeighbor key = 0 then (touchEntry val (k, v)).2 else v)
      (left.touch key val) (right.touch key val)

theorem touch_of_absent {key : Neighbor} (val : Ident) {t : Tree}
    (h : ∀ e ∈ t.inorder, entryPlace e ≠ key.place) : t.touch key val = t := by
  induction t with
  | null => rfl
  | node k v left right ihl ihr =>
    have hk : compareN k.toNeighbor key ≠ 0 := fun h0 =>
      h (k, v) (by simp) (compareN_eq_zero_iff.mp h0)
    rw [Tree.touch, if_neg hk, ihl fun e he => h e (by simp [he]),
      ihr fun e he => h e (by simp [he])]

/-- On a key that is present, `add_neighbor_aux` only changes its times. -/
theorem addNeighborAux_present {t : Tree} (h : t.Sorted) {key : Neighbor} (val : Ident)
    (w : World) (hmem : ∃ e ∈ t.inorder, entryPlace e = key.place) :
    value (addNeighborAux key val t) w = (t.touch key val, 2) := by
  induction t with
  | null =>
    obtain ⟨e, he, -⟩ := hmem
    exact absurd he List.not_mem_nil
  | node k v left right ihl ihr =>
    obtain ⟨hl, hr, hlk, hkr⟩ := sorted_node_iff.mp h
    obtain ⟨e, he, heq⟩ := hmem
    rw [inorder_node, List.mem_append, List.mem_cons] at he
    simp only [addNeighborAux, value_ite, value_bind, value_pure, Tree.touch]
    rcases compareN_spec k.toNeighbor key with ⟨hc, hlt⟩ | ⟨hc, hgt⟩ | ⟨hc, hplace⟩ <;>
      simp only [hc]
    · -- the key is greater: it is to the right
      have hright : e ∈ right.inorder := by
        rcases he with he | rfl | he
        · exact absurd heq (ne_of_lt (lt_trans (hlk e he) hlt))
        · exact absurd heq (ne_of_lt hlt)
        · exact he
      have hleft : left.touch key val = left := touch_of_absent val fun e' he' =>
        ne_of_lt (lt_trans (hlk e' he') hlt)
      have hnull : right ≠ .null := by
        rintro rfl
        exact List.not_mem_nil hright
      simp [hnull, ihr hr ⟨e, hright, heq⟩, hleft]
    · -- the key is smaller: it is to the left
      have hleft : e ∈ left.inorder := by
        rcases he with he | rfl | he
        · exact he
        · exact absurd heq (ne_of_gt hgt)
        · exact absurd heq (ne_of_gt (lt_trans hgt (hkr e he)))
      have hright : right.touch key val = right := touch_of_absent val fun e' he' =>
        ne_of_gt (lt_trans hgt (hkr e' he'))
      have hnull : left ≠ .null := by
        rintro rfl
        exact List.not_mem_nil hleft
      simp [hnull, ihl hl ⟨e, hleft, heq⟩, hright]
    · -- here it is: neither subtree is touched
      have hleft : left.touch key val = left := touch_of_absent val fun e' he' =>
        ne_of_lt (hplace ▸ hlk e' he')
      have hright : right.touch key val = right := touch_of_absent val fun e' he' =>
        ne_of_gt (hplace ▸ hkr e' he')
      simp [hleft, hright, touchEntry]

/-- With memory, `init` makes a node. -/
theorem init_ne_null {w : World} (h : w.Allocates) (key : Neighbor) (val : Ident)
    (left right : Tree) : value (init key val left right) w ≠ .null := by
  have h₁ := (quiet_malloc w).toLater.elapsed.allocates h
  have h₂ := (quiet_malloc _).toLater.elapsed.allocates h₁
  unfold init
  rw [value_bind, (malloc_of_true (h 0)).1]
  show value (malloc >>= _) (after malloc w) ≠ _
  rw [value_bind, (malloc_of_true (h₁ 0)).1]
  show value (malloc >>= _) (after malloc (after malloc w)) ≠ _
  rw [value_bind, (malloc_of_true (h₂ 0)).1]
  exact Tree.noConfusion

/-- With memory, a key that is absent is added. -/
theorem addNeighborAux_rc {t : Tree} (ht : t ≠ .null) (key : Neighbor) (val : Ident) {w : World}
    (h : w.Allocates) : (value (addNeighborAux key val t) w).2 ≠ 0 := by
  induction t with
  | null => exact absurd rfl ht
  | node k v left right ihl ihr =>
    simp only [addNeighborAux, value_ite, value_bind, value_pure]
    rcases compareN_spec k.toNeighbor key with ⟨hc, -⟩ | ⟨hc, -⟩ | ⟨hc, -⟩ <;> simp only [hc]
    · by_cases hnull : right = .null
      · simp [hnull, init_ne_null h]
      · simpa [hnull] using ihr hnull
    · by_cases hnull : left = .null
      · simp [hnull, init_ne_null h]
      · simpa [hnull] using ihl hnull
    · simp

theorem insertRecord_rc (key : Neighbor) (val : Ident) (t : Tree) {w : World} (h : w.Allocates) :
    (value (insertRecord key val t) w).2 ≠ 0 := by
  unfold insertRecord
  by_cases hnull : t = .null
  · simp [hnull, init_ne_null h]
  · simpa [hnull] using addNeighborAux_rc hnull key val h

/-- Removing an absent key changes nothing. -/
theorem removeNeighborAux_absent {t : Tree} (key : Neighbor) (w : World)
    (h : ∀ e ∈ t.inorder, entryPlace e ≠ key.place) : value (removeNeighborAux key t) w = t := by
  induction t generalizing w with
  | null => rfl
  | node k v left right ihl ihr =>
    have hk : compareN k.toNeighbor key ≠ 0 := fun h0 =>
      h (k, v) (by simp) (compareN_eq_zero_iff.mp h0)
    simp only [removeNeighborAux, value_ite, value_bind, value_pure, if_neg hk,
      ihl _ fun e he => h e (by simp [he]), ihr _ fun e he => h e (by simp [he]), ite_self]

/-! ### One operation -/

/-- What one operation does to a tree, with its return code. -/
structure TreeOp.Spec (op : TreeOp) (t t' : Tree) (rc : Option Int) : Prop where
  /-- A new key makes one new node. -/
  fresh : ∀ key val, op = .add key val → getIdent key t = none →
    rc = some 1 ∧ ∃ l₁ l₂ a, t.inorder = l₁ ++ l₂ ∧
      t'.inorder = l₁ ++ ({ key with addr := a }, val) :: l₂
  /-- An old key keeps the shape of the tree and gets new times. -/
  present : ∀ key val v, op = .add key val → getIdent key t = some v →
    rc = some 2 ∧ t' = t.touch key val
  removed : ∀ key, op = .remove key →
    t'.inorder = t.inorder.filter fun e => ¬ (e.1.ip = key.ip ∧ e.1.port = key.port)
  absent : ∀ key, op = .remove key → getIdent key t = none → t' = t
  others : ∀ e, entryPlace e ≠ op.key.place → (e ∈ t'.inorder ↔ e ∈ t.inorder)

theorem getIdent_eq_none_iff {t : Tree} (h : t.Sorted) (key : Neighbor) :
    getIdent key t = none ↔ ∀ e ∈ t.inorder, entryPlace e ≠ key.place := by
  rw [getIdent_eq h, Option.map_eq_none_iff]
  exact lookup_eq_none_iff entryPlace

theorem mem_of_getIdent {t : Tree} (h : t.Sorted) {key : Neighbor} {v : Ident}
    (hv : getIdent key t = some v) : ∃ e ∈ t.inorder, entryPlace e = key.place ∧ e.2 = v := by
  rw [getIdent_eq h, Option.map_eq_some_iff] at hv
  obtain ⟨e, hfind, rfl⟩ := hv
  obtain ⟨he, hplace⟩ := (find?_eq_some_iff h).mp hfind
  exact ⟨e, he, hplace, rfl⟩

theorem spec_add {t : Tree} (h : t.Sorted) {w : World} (halloc : w.Allocates) (key : Neighbor)
    (val : Ident) :
    (TreeOp.add key val).Spec t (value (insertRecord key val t) w).1
      (some (value (insertRecord key val t) w).2) := by
  have hadd := added_insertRecord h key val w
  have hrc := insertRecord_rc key val t halloc
  refine ⟨?_, ?_, nofun, nofun, fun e hne => ⟨fun he => ?_, fun he => ?_⟩⟩
  · rintro _ _ ⟨rfl, rfl⟩ hnone
    have habsent := (getIdent_eq_none_iff h key).mp hnone
    -- only the second of the three outcomes is left
    generalize (value (insertRecord key val t) w).1 = t' at hadd ⊢
    generalize (value (insertRecord key val t) w).2 = rc at hadd hrc ⊢
    cases hadd with
    | failed => exact absurd rfl hrc
    | added a hlo hhi _ hinorder =>
      obtain ⟨l₁, l₂, hl, hupsert⟩ := upsert_of_forall_ne entryPlace habsent
      exact ⟨rfl, l₁, l₂, a, hl, hinorder.trans hupsert⟩
    | updated e he hplace => exact absurd hplace (habsent e he)
  · rintro _ _ v ⟨rfl, rfl⟩ hsome
    obtain ⟨e, he, hplace, -⟩ := mem_of_getIdent h hsome
    have hnull : t ≠ .null := by
      rintro rfl
      exact List.not_mem_nil he
    unfold insertRecord
    rw [value_ite, if_neg hnull, addNeighborAux_present h val w ⟨e, he, hplace⟩]
    exact ⟨rfl, rfl⟩
  · rcases hadd.mem h he with ⟨he, -⟩ | ⟨-, -, a, -, -, rfl⟩ | ⟨-, e₀, -, hplace, rfl⟩
    · exact he
    · exact absurd rfl hne
    · exact absurd hplace hne
  · rcases hadd.mem_of_mem h he with ⟨he, -⟩ | ⟨-, hplace, -⟩
    · exact he
    · exact absurd hplace hne

theorem spec_remove {t : Tree} (h : t.Sorted) (w : World) (key : Neighbor) :
    (TreeOp.remove key).Spec t (value (removeNeighborAux key t) w) none := by
  have hinorder := inorder_removeNeighborAux h key w
  refine ⟨nofun, nofun, ?_, ?_, fun e hne => ?_⟩
  · rintro _ ⟨rfl⟩
    rw [hinorder]
    apply List.filter_congr
    intro e _
    exact decide_eq_decide.mpr (not_congr place_eq_iff)
  · rintro _ ⟨rfl⟩ hnone
    exact removeNeighborAux_absent key w ((getIdent_eq_none_iff h key).mp hnone)
  · rw [hinorder, mem_erase_iff]
    exact ⟨And.left, fun he => ⟨he, hne⟩⟩

theorem spec_exec {t : Tree} (h : t.Sorted) {w : World} (halloc : w.Allocates) (op : TreeOp) :
    op.Spec t (value (op.exec t) w).1 (value (op.exec t) w).2 := by
  cases op with
  | add key val => exact spec_add h halloc key val
  | remove key => exact spec_remove h w key

theorem sorted_exec {t : Tree} (h : t.Sorted) (op : TreeOp) (w : World) :
    (value (op.exec t) w).1.Sorted := by
  cases op with
  | add key val => exact (added_insertRecord h key val w).sorted h
  | remove key => exact sorted_removeNeighborAux h key w

theorem elapsed_exec (op : TreeOp) (t : Tree) : Keeps Elapsed (op.exec t) := by
  intro w
  cases op with
  | add key val => exact (quiet_insertRecord key val t w).toLater.elapsed
  | remove key => exact (registrar_later.keeps_removeNeighborAux key t w).elapsed

/-! ### The finite map -/

/-- A map from addresses to records. -/
abbrev Directory := List Nat ×ₗ Nat → Option Ident

/-- The record of `key` after `add`. -/
def recordAfter (val : Ident) : Option Ident → Ident
  | none => val
  | some v => { v with lastHello := val.lastHello, lastHelloLong := val.lastHelloLong }

/-- What an operation should do to such a map. -/
def Directory.act (d : Directory) : TreeOp → Directory
  | .add key val => Function.update d key.place (some (recordAfter val (d key.place)))
  | .remove key => Function.update d key.place none

/-- The map after a sequence of operations. -/
def directory (ops : List TreeOp) : Directory := ops.foldl Directory.act fun _ => none

theorem directory_snoc (ops : List TreeOp) (op : TreeOp) :
    directory (ops ++ [op]) = (directory ops).act op := List.foldl_concat _ _ _ _

/-- The key `k` was added after its last removal. -/
def AddedLast (k : Neighbor) (ops : List TreeOp) : Prop :=
  ∃ before key val later, ops = before ++ .add key val :: later ∧ key.place = k.place ∧
    ∀ key', .remove key' ∈ later → key'.place ≠ k.place

theorem addedLast_snoc {k : Neighbor} {ops : List TreeOp} {op : TreeOp} :
    AddedLast k (ops ++ [op]) ↔ (∃ key val, op = .add key val ∧ key.place = k.place) ∨
      AddedLast k ops ∧ ∀ key', op = .remove key' → key'.place ≠ k.place := by
  constructor
  · rintro ⟨before, key, val, later, heq, hplace, hlater⟩
    rcases List.eq_nil_or_concat later with rfl | ⟨later, op', rfl⟩
    · obtain ⟨-, hlast⟩ := List.append_inj' heq rfl
      exact .inl ⟨key, val, (List.cons.inj hlast).1, hplace⟩
    · rw [List.concat_eq_append, ← List.cons_append, ← List.append_assoc] at heq
      obtain ⟨hinit, hlast⟩ := List.append_inj' heq rfl
      obtain rfl := (List.cons.inj hlast).1
      refine .inr ⟨⟨before, key, val, later, hinit, hplace, fun key' h => ?_⟩, fun key' h => ?_⟩
      · exact hlater key' (by simp [h])
      · exact hlater key' (by simp [h])
  · rintro (⟨key, val, rfl, hplace⟩ | ⟨⟨before, key, val, later, rfl, hplace, hlater⟩, hop⟩)
    · exact ⟨ops, key, val, [], rfl, hplace, fun _ h => absurd h List.not_mem_nil⟩
    · refine ⟨before, key, val, later ++ [op], by simp, hplace, fun key' h => ?_⟩
      rcases List.mem_append.mp h with h | h
      · exact hlater key' h
      · exact hop key' (List.mem_singleton.mp h).symm

/-- The map has a record exactly for the keys that were added last. -/
theorem isSome_directory_iff (k : Neighbor) (ops : List TreeOp) :
    (directory ops k.place).isSome ↔ AddedLast k ops := by
  induction ops using List.reverseRecOn with
  | nil =>
    constructor
    · exact fun h => absurd h Bool.false_ne_true
    · rintro ⟨before, key, val, later, heq, -⟩
      exact absurd heq (by simp)
  | append_singleton ops op ih =>
    rw [directory_snoc, addedLast_snoc, ← ih]
    unfold Directory.act
    cases op with
    | add key val =>
      by_cases hplace : k.place = key.place
      · simp [Function.update, hplace]
      · simp [Function.update, hplace, Ne.symm hplace]
    | remove key =>
      by_cases hplace : k.place = key.place
      · simp [Function.update, hplace]
      · simp [Function.update, hplace, Ne.symm hplace]

/-- Where the nodes for a key are the same, so is its record. -/
theorem getIdent_congr {t t' : Tree} (h : t.Sorted) (h' : t'.Sorted) {k : Neighbor}
    (hmem : ∀ e, entryPlace e = k.place → (e ∈ t'.inorder ↔ e ∈ t.inorder)) :
    getIdent k t' = getIdent k t := by
  rw [getIdent_eq h, getIdent_eq h']
  apply congrArg (Option.map Prod.snd)
  ext e
  rw [find?_eq_some_iff h, find?_eq_some_iff h']
  constructor
  · rintro ⟨he, hplace⟩
    exact ⟨(hmem e hplace).mp he, hplace⟩
  · rintro ⟨he, hplace⟩
    exact ⟨(hmem e hplace).mpr he, hplace⟩

theorem getIdent_of_mem {t : Tree} (h : t.Sorted) {k : Neighbor} {e : NeighborPtr × Ident}
    (he : e ∈ t.inorder) (hplace : entryPlace e = k.place) : getIdent k t = some e.2 := by
  rw [getIdent_eq h, (find?_eq_some_iff h).mpr ⟨he, hplace⟩]
  rfl

/-- An operation does to the records what it should do to the map. -/
theorem getIdent_exec {t : Tree} (h : t.Sorted) {w : World} (halloc : w.Allocates) (op : TreeOp)
    {d : Directory} (hd : ∀ k, getIdent k t = d k.place) (k : Neighbor) :
    getIdent k (value (op.exec t) w).1 = d.act op k.place := by
  have hspec := spec_exec h halloc op
  have hsorted := sorted_exec h op w
  by_cases hplace : k.place = op.key.place
  · -- the key of the operation
    cases op with
    | add key val =>
      have hplace : k.place = key.place := hplace
      have hadd := added_insertRecord h key val w
      show getIdent k (value ((TreeOp.add key val).exec t) w).1 = Function.update d _ _ k.place
      rw [hplace, Function.update_self, ← hd key]
      cases hkey : getIdent key t with
      | none =>
        obtain ⟨-, l₁, l₂, a, -, hinorder⟩ := hspec.fresh key val rfl hkey
        refine getIdent_of_mem hsorted (e := ({ key with addr := a }, val)) ?_ hplace.symm
        rw [hinorder]
        simp
      | some v =>
        obtain ⟨e, he, heplace, rfl⟩ := mem_of_getIdent h hkey
        rcases hadd.mem_of_mem h he with ⟨-, hne⟩ | ⟨-, -, he'⟩
        · -- the return code is 2
          have hrc : (value (insertRecord key val t) w).2 = 2 :=
            Option.some.inj (hspec.present key val _ rfl hkey).1
          exact absurd heplace (hne hrc)
        · exact getIdent_of_mem hsorted he' (heplace.trans hplace.symm)
    | remove key =>
      have hplace : k.place = key.place := hplace
      show getIdent k (value ((TreeOp.remove key).exec t) w).1 = Function.update d _ _ k.place
      rw [hplace, Function.update_self, getIdent_eq_none_iff hsorted]
      intro e he
      have he : e ∈ erase entryPlace key.place t.inorder :=
        (inorder_removeNeighborAux h key w) ▸ he
      rw [hplace]
      exact ((mem_erase_iff entryPlace).mp he).2
  · -- the records of all other keys are untouched
    have hother : getIdent k (value (op.exec t) w).1 = getIdent k t :=
      getIdent_congr h hsorted fun e he => hspec.others e (he ▸ hplace)
    rw [hother, hd]
    cases op with
    | add key val => exact (Function.update_of_ne hplace _ _).symm
    | remove key => exact (Function.update_of_ne hplace _ _).symm

/-- The tree `t` implements the map that the operations in the history lead to. -/
structure Implements (tr : List ((Tree × World) × TreeOp)) (t : Tree) (w : World) : Prop where
  increasing : t.Increasing
  records : ∀ k, getIdent k t = directory (tr.map Prod.snd) k.place
  found : ∀ k, (getIdent k t).isSome ↔ AddedLast k (tr.map Prod.snd)
  /-- The next operation does what it should. -/
  next : ∀ op : TreeOp, op.Spec t (value (op.exec t) w).1 (value (op.exec t) w).2

/-- **The tree implements a finite map**, for every sequence of operations from
the empty tree. -/
theorem implements_of_run {w₀ w : World} {t : Tree} {tr : List ((Tree × World) × TreeOp)}
    (halloc : w₀.Allocates) (hrun : Run TreeOp.Does (.null, w₀) tr (t, w)) :
    Implements tr t w := by
  have hinv : ∀ {tr s}, Run TreeOp.Does (.null, w₀) tr s → s.1.Sorted ∧ s.2.Allocates ∧
      ∀ k, getIdent k s.1 = directory (tr.map Prod.snd) k.place := by
    intro tr s h
    induction h with
    | nil => exact ⟨sorted_null, halloc, fun _ => rfl⟩
    | @snoc tr v u op _ hdoes ih =>
      obtain ⟨hsorted, halloc, hrecords⟩ := ih
      rw [show u = _ from hdoes]
      refine ⟨sorted_exec hsorted _ _, (elapsed_exec _ _ _).allocates halloc, fun k => ?_⟩
      rw [List.map_append, List.map_singleton, directory_snoc]
      exact getIdent_exec hsorted halloc _ hrecords k
  obtain ⟨hsorted, halloc, hrecords⟩ := hinv hrun
  refine ⟨(increasing_iff_sorted t).mpr hsorted, hrecords, fun k => ?_,
    spec_exec hsorted halloc⟩
  rw [hrecords, isSome_directory_iff]

/-- Two keys are added, the first gets new times and the second is removed. -/
def someOps : List TreeOp :=
  [.add { ip := Vector.replicate 16 1, port := 5, msg := none }
      { id := 7, lastHello := 1, lastHelloLong := 0 },
    .add { ip := Vector.replicate 16 2, port := 5, msg := none }
      { id := 8, lastHello := 2, lastHelloLong := 0 },
    .add { ip := Vector.replicate 16 1, port := 5, msg := none }
      { id := 9, lastHello := 3, lastHelloLong := 3 },
    .remove { ip := Vector.replicate 16 2, port := 5, msg := none }]

theorem implements_someOps :
    Implements (playedHistory TreeOp.act someOps (.null, World.boot id))
      (played TreeOp.act someOps (.null, World.boot id)).1
      (played TreeOp.act someOps (.null, World.boot id)).2 ∧
    getIdent { ip := Vector.replicate 16 1, port := 5, msg := none }
      (played TreeOp.act someOps (.null, World.boot id)).1 =
        some { id := 7, lastHello := 3, lastHelloLong := 3 } :=
  ⟨implements_of_run (fun _ => rfl)
    (@run_played _ _ TreeOp.Does TreeOp.act (fun _ _ => rfl) someOps _), by decide +kernel⟩

end FloodPeer
