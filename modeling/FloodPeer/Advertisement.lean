/-
FloodPeer/Advertisement.lean

What `send_symetrical_everyone` tells the others.

The loop packs Neighbour TLVs into a body and gives it to everyone when the next
one does not fit; the invariant is that the body holds the TLVs of the keys in
`cur` (`symetricalLoop_spec`).  What everyone has been given is a `Broadcast` of
the chunks.  A neighbour is left out when its entry or the cell for it cannot be
allocated, and only then (`enrol`).
-/
import FloodPeer.Selection
import FloodPeer.Queueing

namespace FloodPeer

open Octets StateLogic

/-! ### Chunks -/

/-- The TLVs for these neighbours. -/
def neighbourTlvs (keys : List NeighborPtr) : List UInt8 :=
  keys.flatMap fun key => (Tlv.neighbour key.ip key.port).bytes

theorem length_neighbourTlvs (keys : List NeighborPtr) :
    (neighbourTlvs keys).length = 20 * keys.length := by
  induction keys with
  | nil => rfl
  | cons key rest ih =>
    have hcons : neighbourTlvs (key :: rest) =
        (Tlv.neighbour key.ip key.port).bytes ++ neighbourTlvs rest := rfl
    rw [hcons, List.length_append, length_neighbourTlv, ih, List.length_cons]
    omega

/-- Not empty, and not too large for a datagram. -/
structure Chunk (keys : List NeighborPtr) : Prop where
  nonempty : keys ≠ []
  fits : (neighbourTlvs keys).length ≤ pmtu - 4

/-- The body holds the TLVs of these neighbours. -/
structure Body (body : Mem) (cur : List NeighborPtr) : Prop where
  read : Octets.read body 0 (20 * cur.length) = neighbourTlvs cur
  fits : 20 * cur.length ≤ pmtu - 4

theorem body_nil (body : Mem) : Body body [] := ⟨rfl, Nat.zero_le _⟩

/-- One more TLV fits, or the body is a chunk. -/
theorem Body.tlvNeighbour {body : Mem} {cur : List NeighborPtr} (h : Body body cur)
    (key : NeighborPtr) :
    ((FloodPeer.tlvNeighbour body (20 * cur.length) (pmtu - 4 - 20 * cur.length)
        key.toNeighbor).2 < 0 ∧ Chunk cur) ∨
    (¬ (FloodPeer.tlvNeighbour body (20 * cur.length) (pmtu - 4 - 20 * cur.length)
        key.toNeighbor).2 < 0 ∧
      Body (FloodPeer.tlvNeighbour body (20 * cur.length) (pmtu - 4 - 20 * cur.length)
        key.toNeighbor).1 (cur ++ [key])) := by
  have hp := pmtu_eq
  have hfits := h.fits
  by_cases hroom : pmtu - 4 - 20 * cur.length > 21
  · have hresult : (FloodPeer.tlvNeighbour body (20 * cur.length) (pmtu - 4 - 20 * cur.length)
        key.toNeighbor).2 = 20 := by
      unfold FloodPeer.tlvNeighbour
      rw [if_pos hroom]
    refine .inr ⟨by rw [hresult]; decide, ?_, ?_⟩
    · rw [tlvNeighbour_spec (by rw [hresult]; decide), List.length_append, List.length_singleton,
        Nat.mul_add, Nat.mul_one, ← length_neighbourTlv key.ip key.port, read_write_append,
        length_neighbourTlv, h.read]
      simp [neighbourTlvs]
    · rw [List.length_append, List.length_singleton]
      omega
  · refine .inl ⟨?_, ?_, ?_⟩
    · unfold FloodPeer.tlvNeighbour
      rw [if_neg hroom]
      exact (by decide : (-1 : Int) < 0)
    · rintro rfl
      simp only [List.length_nil] at hroom
      omega
    · rw [length_neighbourTlvs]
      exact hfits

/-- **The packing loop.**  What it has been given, behind what was in the body
already, has been handed over in chunks or is still in the body. -/
theorem symetricalLoop_spec (people : Tree) (l : List NgbEntry) {body : Mem}
    {cur : List NeighborPtr} (h : Body body cur) (res count : Int) {w : World}
    (hw : w.Writable people.members) :
    ∃ (chunks : List (List NeighborPtr)) (last : List NeighborPtr) (body' : Mem) (res' : Int),
      value (symetricalLoop people l body (20 * cur.length) res count) w =
        (body', 20 * last.length, res', count + l.length) ∧
      cur ++ l.map (·.sym) = chunks.flatten ++ last ∧ (∀ c ∈ chunks, Chunk c) ∧ Body body' last ∧
      Broadcast people.members (chunks.map neighbourTlvs) w
        (after (symetricalLoop people l body (20 * cur.length) res count) w) := by
  -- `cur` is what the body holds already, `chunks` what is still to be handed over
  induction l generalizing body cur res count w with
  | nil =>
    refine ⟨[], cur, body, res, ?_, by simp, nofun, h, broadcast_of_same rfl rfl (.inr rfl)⟩
    rw [List.length_nil, Nat.cast_zero, add_zero]
    rfl
  | cons tmp rest ih =>
    have hp := pmtu_eq
    have hfits := h.fits
    have hroom :
        toSize ((pmtu : Int) - 4 - (20 * cur.length : Nat)) = pmtu - 4 - 20 * cur.length := by
      rw [toSize_of_nonneg (by omega) (by omega)]
      omega
    have hcount : count + (tmp :: rest).length = count + 1 + rest.length := by
      rw [List.length_cons, Nat.cast_add, Nat.cast_one, add_assoc, add_comm 1]
    rw [hcount]
    unfold symetricalLoop
    rw [hroom]
    rcases h.tlvNeighbour tmp.sym with ⟨hfull, hchunk⟩ | ⟨hnot, hbody⟩
    · -- the body is handed over, and the TLV starts a new one
      simp only [if_pos hfull, value_bind, after_bind]
      have hbuf : (messageOf body (20 * cur.length : Nat)).declared ≤ pmtu - 4 := by
        rw [declared_messageOf body (by omega)]
        exact hfits
      have hsend := broadcast_sendToEveryone body hfits people hw
      have hw' := hw.of_boxes (boxes_sendToEveryone hbuf (20 * cur.length + 4) people w)
      rw [h.read] at hsend
      have hnew := ((body_nil body).tlvNeighbour tmp.sym).resolve_left
        fun hno => hno.2.nonempty rfl
      obtain ⟨chunks, last, body', res', hvalue, hkeys, hall, hlast, hrest⟩ := ih hnew.2
        (value (sendToEveryone (messageOf body (20 * cur.length : Nat)) (20 * cur.length + 4)
          people) w)
        (count + 1) hw'
      refine ⟨cur :: chunks, last, body', res', hvalue, ?_, ?_, hlast, hsend.trans hrest⟩
      · rw [List.map_cons, List.flatten_cons, List.append_assoc, ← hkeys]
        rfl
      · intro c hc
        rcases List.mem_cons.mp hc with rfl | hc
        · exact hchunk
        · exact hall c hc
    · -- one more TLV in the body
      simp only [if_neg hnot]
      have hlen : 20 * cur.length + 20 = 20 * (cur ++ [tmp.sym]).length := by
        rw [List.length_append, List.length_singleton, Nat.mul_add]
      rw [hlen]
      obtain ⟨chunks, last, body', res', hvalue, hkeys, hall, hlast, hrest⟩ := ih hbody res
        (count + 1) hw
      refine ⟨chunks, last, body', res', hvalue, ?_, hall, hlast, hrest⟩
      rw [← hkeys, List.map_cons, List.append_assoc]
      rfl

/-! ### Who is in the list -/

/-- The neighbours for which both the entry and the cell of the list can be
allocated, and what the allocator answers after that. -/
def enrol : List NeighborPtr → Stream' Bool → List NeighborPtr × Stream' Bool
  | [], mallocs => ([], mallocs)
  | k :: rest, mallocs =>
    if mallocs.head then
      let (keys, later) := enrol rest mallocs.tail.tail
      (if mallocs.tail.head then k :: keys else keys, later)
    else enrol rest mallocs.tail

theorem enrol_cons (k : NeighborPtr) (rest : List NeighborPtr) (mallocs : Stream' Bool) :
    enrol (k :: rest) mallocs = if mallocs.head then
        (if mallocs.tail.head then k :: (enrol rest mallocs.tail.tail).1
          else (enrol rest mallocs.tail.tail).1, (enrol rest mallocs.tail.tail).2)
      else enrol rest mallocs.tail := rfl

theorem enrol_append (l l' : List NeighborPtr) (mallocs : Stream' Bool) :
    enrol (l ++ l') mallocs = ((enrol l mallocs).1 ++ (enrol l' (enrol l mallocs).2).1,
      (enrol l' (enrol l mallocs).2).2) := by
  induction l generalizing mallocs with
  | nil => rfl
  | cons k rest ih =>
    rw [List.cons_append, enrol_cons, enrol_cons]
    split
    · rw [ih]
      dsimp only
      split <;> rfl
    · exact ih _

theorem enrol_sublist (l : List NeighborPtr) (mallocs : Stream' Bool) :
    (enrol l mallocs).1.Sublist l := by
  induction l generalizing mallocs with
  | nil => exact List.Sublist.refl _
  | cons k rest ih =>
    unfold enrol
    split
    · dsimp only
      split
      · exact (ih _).cons_cons k
      · exact (ih _).cons k
    · exact (ih _).cons k

/-- With memory nobody is left out. -/
theorem enrol_of_get {mallocs : Stream' Bool} (h : ∀ n, mallocs.get n = true)
    (l : List NeighborPtr) : (enrol l mallocs).1 = l := by
  induction l generalizing mallocs with
  | nil => rfl
  | cons k rest ih =>
    have hentry : mallocs.head = true := h 0
    have hcell : mallocs.tail.head = true := h 1
    unfold enrol
    rw [if_pos hentry]
    dsimp only
    rw [if_pos hcell, @ih mallocs.tail.tail fun n => h (n + 2)]

/-- From `w` to `w'` the list `l` has become `l'`: it has new entries for those of
`keys` that could be enrolled. -/
structure Enrols (keys : List NeighborPtr) (w w' : World) (l l' : CList NgbEntry) : Prop where
  elapsed : Elapsed w w'
  linked : l'.Linked w'.next
  contents : l'.contents.map (·.sym) = l.contents.map (·.sym) ++ (enrol keys w.mallocs).1
  mallocs : w'.mallocs = (enrol keys w.mallocs).2

theorem Enrols.trans {keys keys' : List NeighborPtr} {u v w : World} {l l₁ l₂ : CList NgbEntry}
    (h₁ : Enrols keys u v l l₁) (h₂ : Enrols keys' v w l₁ l₂) :
    Enrols (keys ++ keys') u w l l₂ := by
  refine ⟨h₁.elapsed.trans h₂.elapsed, h₂.linked, ?_, ?_⟩
  · rw [enrol_append, h₂.contents, h₁.contents, h₁.mallocs, List.append_assoc]
  · rw [enrol_append, h₂.mallocs, h₁.mallocs]

/-- At one node. -/
theorem enrols_consider {w : World} {u : Nat} (hclock : w.clock = Stream'.const u)
    (k : NeighborPtr) (v : Ident) (left right : Tree) {l : CList NgbEntry} (h : l.Linked w.next) :
    Enrols (if v.symmetricAt u then [k] else []) w
      (after (consider (issymmetrical (.node k v left right)) k l) w) l
      (value (consider (issymmetrical (.node k v left right)) k l) w) := by
  have hvalue : value (issymmetrical (.node k v left right)) w = v.symmetricAt u :=
    value_issymmetrical hclock _
  have hquiet := quiet_consider (primitive_quiet.keeps_issymmetrical (.node k v left right)) k l w
  have helapsed := hquiet.toLater.elapsed
  unfold consider at helapsed ⊢
  rw [after_bind, hvalue] at helapsed
  rw [value_bind, after_bind, hvalue]
  have hlinked : l.Linked (after (issymmetrical (.node k v left right)) w).next := h
  have hmallocs : (after (issymmetrical (.node k v left right)) w).mallocs = w.mallocs := rfl
  generalize after (issymmetrical (.node k v left right)) w = w₁ at helapsed hlinked hmallocs ⊢
  generalize v.symmetricAt u = selected at helapsed ⊢
  cases selected with
  | false => exact ⟨helapsed, hlinked, (List.append_nil _).symm, hmallocs⟩
  | true =>
    simp only [if_true, after_bind] at helapsed
    simp only [if_true, value_bind, after_bind]
    -- the entry first, then the cell
    cases hentry : w₁.mallocs.head with
    | false =>
      have hnone : value (initNgbEntry k 0) w₁ = none := by
        unfold initNgbEntry
        rw [value_bind, (malloc_of_false hentry).1]
        rfl
      have hafter : after (initNgbEntry k 0) w₁ = { w₁ with mallocs := w₁.mallocs.tail } := by
        unfold initNgbEntry
        rw [after_bind, (malloc_of_false hentry).1, (malloc_of_false hentry).2]
        rfl
      rw [hnone, hafter] at helapsed ⊢
      refine ⟨helapsed, hlinked, ?_, ?_⟩
      · rw [← hmallocs, enrol_cons, if_neg (by rw [hentry]; exact Bool.false_ne_true)]
        exact (List.append_nil _).symm
      · rw [← hmallocs, enrol_cons, if_neg (by rw [hentry]; exact Bool.false_ne_true)]
        rfl
    | true =>
      obtain ⟨ent, hsome, hsym⟩ := (initNgbEntry_cases k 0 w₁).resolve_left fun hno => by
        unfold initNgbEntry at hno
        rw [value_bind, (malloc_of_true hentry).1] at hno
        cases hno.1
      have hafter : (after (initNgbEntry k 0) w₁).mallocs = w₁.mallocs.tail ∧
          (after (initNgbEntry k 0) w₁).next = w₁.next + 1 := by
        unfold initNgbEntry
        rw [after_bind, (malloc_of_true hentry).1, (malloc_of_true hentry).2]
        exact ⟨rfl, rfl⟩
      rw [hsome] at helapsed ⊢
      generalize after (initNgbEntry k 0) w₁ = w₂ at helapsed hafter ⊢
      obtain ⟨hmallocs₂, hnext₂⟩ := hafter
      have hlinked₂ : l.Linked w₂.next := hlinked.mono (by omega)
      obtain ⟨hadd, hlist⟩ := addLast_eq hlinked₂ malloc ent w₂
      simp only [after_bind, after_pure] at helapsed
      simp only [value_bind, after_bind, value_pure, after_pure]
      have hkeys : enrol [k] w.mallocs =
          (if w₂.mallocs.head then [k] else [], w₂.mallocs.tail) := by
        rw [← hmallocs, enrol_cons, if_pos hentry, hmallocs₂]
        rfl
      rw [hadd, hlist]
      rw [hadd] at helapsed
      cases hcell : w₂.mallocs.head with
      | false =>
        rw [(malloc_of_false hcell).1, (malloc_of_false hcell).2]
        rw [(malloc_of_false hcell).2] at helapsed
        refine ⟨helapsed, hlinked₂, ?_, by rw [hkeys]⟩
        rw [hkeys, hcell]
        exact (List.append_nil _).symm
      | true =>
        rw [(malloc_of_true hcell).1, (malloc_of_true hcell).2]
        rw [(malloc_of_true hcell).2] at helapsed
        refine ⟨helapsed, hlinked₂.snoc (le_refl _) (Nat.lt_succ_self _) ent _, ?_, by rw [hkeys]⟩
        rw [hkeys, hcell, ← hsym]
        simp [CList.contents]

/-- In a whole tree. -/
theorem enrols_findByAux (t : Tree) {w : World} {u : Nat} (hclock : w.clock = Stream'.const u)
    {l : CList NgbEntry} (h : l.Linked w.next) :
    Enrols (t.selected (·.symmetricAt u)) w (after (findByAux issymmetrical t l) w) l
      (value (findByAux issymmetrical t l) w) := by
  induction t generalizing w l with
  | null => exact ⟨Elapsed.refl w, h, (List.append_nil _).symm, rfl⟩
  | node k v left right ihl ihr =>
    rw [findByAux_node, selected_node]
    simp only [value_bind, after_bind]
    have hleft := ihl hclock h
    have hhere := enrols_consider (hleft.elapsed.frozen hclock) k v left right hleft.linked
    have hright := ihr (hhere.elapsed.frozen (hleft.elapsed.frozen hclock)) hhere.linked
    exact hleft.trans (hhere.trans hright)

/-- The list has an entry for each symmetrical neighbour that can be enrolled. -/
theorem getSymmetrical_enrols (t : Tree) {w : World} {u : Nat}
    (hclock : w.clock = Stream'.const u) (hlist : w.mallocs.head = true) :
    ∃ l, value (getSymmetrical t) w = some l ∧
      l.contents.map (·.sym) = (enrol (t.selected (·.symmetricAt u)) w.mallocs.tail).1 := by
  have henrols := @enrols_findByAux t { w with mallocs := w.mallocs.tail, next := w.next + 1 } u
    hclock initList (linked_initList _)
  refine ⟨_, ?_, henrols.contents⟩
  unfold getSymmetrical findBy
  rw [value_bind, (malloc_of_true hlist).1, (malloc_of_true hlist).2]
  rfl

/-! ### The whole function -/

/-- What allocating and reading the clock keeps, the making of the list keeps. -/
theorem keeps_getSymmetrical {R : World → World → Prop} (hrefl : ∀ v, R v v)
    (htrans : ∀ u v v', R u v → R v v' → R u v') (hmalloc : Keeps R malloc)
    (hseconds : Keeps R getSeconds) (t : Tree) : Keeps R (getSymmetrical t) := by
  -- `wait_time(0)` does not call `rand`: only the allocator and the clock are asked
  have hentry : ∀ k, Keeps R (initNgbEntry k 0) := by
    intro k
    apply Keeps.bind htrans hmalloc
    intro res
    cases res with
    | none => exact Keeps.pure hrefl _
    | some _ =>
      exact Keeps.bind htrans (Keeps.pure hrefl _) fun _ =>
        Keeps.bind htrans hseconds fun _ => Keeps.pure hrefl _
  have haux : ∀ l, Keeps R (findByAux issymmetrical t l) := by
    induction t with
    | null => exact fun _ => Keeps.pure hrefl _
    | node k v left right ihl ihr =>
      intro l
      rw [findByAux_node]
      apply Keeps.bind htrans (ihl l)
      intro l
      refine Keeps.bind htrans ?_ ihr
      apply Keeps.bind htrans (Keeps.bind htrans hseconds fun _ => Keeps.pure hrefl _)
      intro b
      apply Keeps.ite _ fun _ => Keeps.pure hrefl _
      intro _
      apply Keeps.bind htrans (hentry k)
      intro ent
      cases ent with
      | none => exact Keeps.pure hrefl _
      | some ent =>
        exact Keeps.bind htrans (keeps_addLast hrefl htrans hmalloc _ _) fun _ => Keeps.pure hrefl _
  apply Keeps.bind htrans hmalloc
  intro res
  cases res with
  | none => exact Keeps.pure hrefl _
  | some _ => exact Keeps.bind htrans (haux _) fun _ => Keeps.pure hrefl _

/-- The list is made silently, and `NB_SYMETRICAL` is not looked at. -/
theorem getSymmetrical_same (t : Tree) (w : World) :
    (after (getSymmetrical t) w).log = w.log ∧
      (after (getSymmetrical t) w).nbSymetrical = w.nbSymetrical := by
  let R : World → World → Prop := fun v v' => v'.log = v.log ∧ v'.nbSymetrical = v.nbSymetrical
  have hmalloc : Keeps R malloc := by
    intro v
    cases h : v.mallocs.head with
    | true =>
      rw [(malloc_of_true h).2]
      exact ⟨rfl, rfl⟩
    | false =>
      rw [(malloc_of_false h).2]
      exact ⟨rfl, rfl⟩
  exact @keeps_getSymmetrical R (fun _ => ⟨rfl, rfl⟩)
    (fun _ _ _ h₁ h₂ => ⟨h₂.1.trans h₁.1, h₂.2.trans h₁.2⟩) hmalloc (fun _ => ⟨rfl, rfl⟩) t w

theorem nbSymetrical_sendMessage (buf : MessageH) (taille : Nat) (rcpt : Neighbor) (w : World) :
    (after (sendMessage buf taille rcpt) w).nbSymetrical = w.nbSymetrical := by
  unfold sendMessage
  cases rcpt.msg with
  | none => rfl
  | some a =>
    rw [after_bind, value_get, after_get]
    cases w.msgs a with
    | none => rfl
    | some msg =>
      unfold makeRoom gather
      simp only [after_bind, after_ite, after_note, after_pure, value_ite]
      split <;> split <;> rfl

theorem nbSymetrical_sendToEveryone (buf : MessageH) (length : Nat) (people : Tree) (w : World) :
    (after (sendToEveryone buf length people) w).nbSymetrical = w.nbSymetrical := by
  induction people generalizing w with
  | null => rfl
  | node key val left right ihl ihr =>
    rw [sendToEveryone]
    simp only [after_bind, after_pure]
    rw [ihr, ihl, nbSymetrical_sendMessage]

/-- What remains in the body behind the loop is the last chunk. -/
theorem broadcast_last (people : Tree) {body : Mem} {last : List NeighborPtr} (h : Body body last)
    (res : Int) {w : World} (hw : w.Writable people.members) :
    ∃ chunks : List (List NeighborPtr), chunks.flatten = last ∧ (∀ c ∈ chunks, Chunk c) ∧
      Broadcast people.members (chunks.map neighbourTlvs) w
        (after (if 20 * last.length > 0 then
            sendToEveryone (messageOf body (20 * last.length : Nat)) (20 * last.length + 4) people
          else pure res) w) := by
  by_cases hempty : last = []
  · subst hempty
    exact ⟨[], rfl, nofun, broadcast_of_same rfl rfl (.inr rfl)⟩
  · have hpos : 20 * last.length > 0 := by
      have hlen := List.length_pos_iff.mpr hempty
      omega
    have hsend := broadcast_sendToEveryone body h.fits people hw
    rw [h.read] at hsend
    rw [if_pos hpos]
    refine ⟨[last], by simp, fun c hc => ?_, hsend⟩
    obtain rfl := List.mem_singleton.mp hc
    exact ⟨hempty, by rw [length_neighbourTlvs]; exact h.fits⟩

/-- These neighbours are advertised to the tree `people`: in chunks, each of which
is given to every member once and to nobody else, and `NB_SYMETRICAL` is their
number. -/
def Advertised (people : Tree) (keys : List NeighborPtr) (w w' : World) : Prop :=
  ∃ chunks : List (List NeighborPtr), chunks.flatten = keys ∧ (∀ c ∈ chunks, Chunk c) ∧
    Broadcast people.members (chunks.map neighbourTlvs) w w' ∧ w'.nbSymetrical = keys.length

/-- The list that has been made is advertised. -/
theorem advertised_list {people : Tree} {w : World} {l : CList NgbEntry}
    (hl : value (getSymmetrical w.neighbors) w = some l) (hw : w.Writable people.members) :
    Advertised people (l.contents.map (·.sym)) w (after (sendSymetricalEveryone people) w) := by
  have hquiet := primitive_quiet.keeps_getSymmetrical w.neighbors w
  have hlist : Broadcast people.members [] w (after (getSymmetrical w.neighbors) w) :=
    broadcast_of_same (getSymmetrical_same w.neighbors w).1 hquiet.msgs (.inr rfl)
  have hw₁ := hw.of_boxes hquiet.idle.boxes
  obtain ⟨chunks, last, body, res, hvalue, hkeys, hchunks, hlast, hloop⟩ :=
    symetricalLoop_spec people l.contents (body_nil fun _ => 0) 0 0 hw₁
  have hboxes := (@boxes_symetricalLoop people l.contents (fun _ => 0) 0 (Nat.zero_le _) 0 0).1
    (after (getSymmetrical w.neighbors) w)
  have hrun : after (sendSymetricalEveryone people) w =
      after (if 20 * last.length > 0 then
          sendToEveryone (messageOf body (20 * last.length : Nat)) (20 * last.length + 4) people
        else pure res)
      { after (symetricalLoop people l.contents (fun _ => 0) 0 0 0)
          (after (getSymmetrical w.neighbors) w) with
        nbSymetrical := 0 + (l.contents.length : Int) } := by
    unfold sendSymetricalEveryone
    simp only [after_bind, value_get, after_get, hl, after_modify]
    rw [show (0 : Nat) = 20 * ([] : List NeighborPtr).length from rfl, hvalue]
  rw [show 20 * ([] : List NeighborPtr).length = 0 from rfl] at hloop
  have hw₂ := hw₁.of_boxes hboxes
  have hfront := hlist.trans hloop
  rw [hrun]
  generalize after (symetricalLoop people l.contents (fun _ => 0) 0 0 0)
    (after (getSymmetrical w.neighbors) w) = v at hfront hw₂ ⊢
  have hcount : Broadcast people.members (chunks.map neighbourTlvs) w
      { v with nbSymetrical := 0 + (l.contents.length : Int) } := hfront.of_same rfl rfl
  have hw₃ : World.Writable { v with nbSymetrical := 0 + (l.contents.length : Int) }
      people.members := ⟨hw₂.distinct, hw₂.box⟩
  -- what is left in the body is sent last
  obtain ⟨rest, hrest, hfits, hback⟩ := broadcast_last people hlast res hw₃
  refine ⟨chunks ++ rest, ?_, ?_, ?_, ?_⟩
  · rw [List.flatten_append, hrest, ← hkeys, List.nil_append]
  · intro c hc
    exact (List.mem_append.mp hc).elim (hchunks c) (hfits c)
  · rw [List.map_append]
    exact hcount.trans hback
  · rw [List.length_map]
    split
    · rw [nbSymetrical_sendToEveryone]
      exact Int.zero_add _
    · exact Int.zero_add _

/-- **The advertisement is complete.**  With memory, all neighbours that are
symmetrical are advertised, in ascending order.  Otherwise exactly those are missing
for which there was no memory; without a list nothing is sent. -/
theorem advertises {people : Tree} {w : World} {u : Nat} (hsorted : w.neighbors.Sorted)
    (hclock : w.clock = Stream'.const u) (hw : w.Writable people.members) :
    let selected := w.neighbors.selected (·.symmetricAt u)
    let keys := (enrol selected w.mallocs.tail).1
    let w' := after (sendSymetricalEveryone people) w
    (selected.Pairwise fun k k' => compareN k.toNeighbor k'.toNeighbor < 0) ∧
    keys.Sublist selected ∧
    (w.Allocates → Advertised people selected w w') ∧
    (w.mallocs.head = true → Advertised people keys w w') ∧
    (w.mallocs.head = false → Broadcast people.members [] w w' ∧
      w'.nbSymetrical = w.nbSymetrical) := by
  intro selected keys w'
  have hadvertised : w.mallocs.head = true → Advertised people keys w w' := by
    intro hlist
    obtain ⟨l, hl, hkeys⟩ := getSymmetrical_enrols w.neighbors hclock hlist
    have hall := advertised_list hl hw
    rwa [hkeys] at hall
  refine ⟨ascending_of_sublist hsorted (List.filter_sublist.map _), enrol_sublist _ _,
    fun halloc => ?_, hadvertised, fun hnone => ?_⟩
  · have hkeys : keys = selected := enrol_of_get (fun n => halloc (n + 1)) selected
    rw [← hkeys]
    exact hadvertised (halloc 0)
  · have hvalue : value (getSymmetrical w.neighbors) w = none := by
      unfold getSymmetrical findBy
      rw [value_bind, (malloc_of_false hnone).1]
      rfl
    have hrun : w' = after (getSymmetrical w.neighbors) w := by
      show after (sendSymetricalEveryone people) w = _
      unfold sendSymetricalEveryone
      simp only [after_bind, value_get, after_get, hvalue, after_pure]
    obtain ⟨hlog, hnb⟩ := getSymmetrical_same w.neighbors w
    rw [hrun]
    exact ⟨broadcast_of_same hlog (primitive_quiet.keeps_getSymmetrical w.neighbors w).msgs
      (.inr rfl), hnb⟩

/-- The records of a peer can be written to. -/
theorem World.Sound.writable_members {w : World} (h : w.Sound) :
    w.Writable w.neighbors.members := by
  have hperm := members_perm w.neighbors
  refine h.writable (fun k hk => hperm.subset hk) (hperm.nodup_iff.mpr ?_)
  refine List.pairwise_map.mpr (h.neighbors.imp fun {e e'} hlt heq => ?_)
  exact ne_of_lt hlt (congrArg (fun k : NeighborPtr => k.toNeighbor.place) heq)

theorem World.Sound.at {w : World} (h : w.Sound) (u : Nat) : (w.at u).Sound :=
  ⟨h.neighbors, h.potential, h.box, h.own, h.direct, h.apart⟩

/-- The only neighbour is told of itself. -/
theorem advertises_oneNeighbour :
    oneNeighbour.neighbors.selected (·.symmetricAt 10) ≠ [] ∧
      Advertised oneNeighbour.neighbors (oneNeighbour.neighbors.selected (·.symmetricAt 10))
        (oneNeighbour.at 10)
        (after (sendSymetricalEveryone oneNeighbour.neighbors) (oneNeighbour.at 10)) := by
  have hsound : oneNeighbour.Sound :=
    sound_of_run (run_actAll [longHello 7] (bootAt 0)) (sound_of_initial (initial_boot _))
  have halloc : oneNeighbour.Allocates :=
    @allocates_actAll [longHello 7] (bootAt 0) fun _ => rfl
  have hsome : oneNeighbour.neighbors.selected (·.symmetricAt 10) ≠ [] := by decide +kernel
  generalize oneNeighbour = w at *
  refine ⟨hsome, ?_⟩
  exact (@advertises _ (w.at 10) 10 hsound.neighbors rfl
    (hsound.at 10).writable_members).2.2.1 halloc

/-- Without memory for the list nothing is advertised. -/
theorem not_advertised_without_memory :
    ¬ Advertised oneNeighbour.neighbors (oneNeighbour.neighbors.selected (·.symmetricAt 10))
      { oneNeighbour.at 10 with mallocs := Stream'.const false }
      (after (sendSymetricalEveryone oneNeighbour.neighbors)
        { oneNeighbour.at 10 with mallocs := Stream'.const false }) := by
  rintro ⟨-, -, -, -, hnb⟩
  exact absurd hnb (by decide +kernel)

end FloodPeer
