/-
FloodPeer/Filing.lean

What each function does to `DATAF`.

Most functions leave `DATAF` alone (`Beside`).  The others come in two kinds.
Some assign to the recipient lists of entries and leave everything else as it
is: `DATAF` is relisted (`CList.relist`).  Only `add_message_to_flood` changes
the chain itself; it appends a cell, and the first one goes when there are more
than `NBDATA` (`recent`).
-/
import FloodPeer.Sound
import FloodPeer.Selection

namespace FloodPeer

open Octets StateLogic

/-! ### What leaves `DATAF` alone -/

/-- `DATAF` has not changed. -/
def Beside (w w' : World) : Prop := w'.dataf = w.dataf

theorem registrar_beside : Registrar Beside where
  refl := fun _ => rfl
  trans := fun h₁ h₂ => Eq.trans h₂ h₁
  onMalloc := fun w => (quiet_malloc w).dataf
  onGetSeconds := fun _ => rfl
  onRand := fun _ => rfl
  onUninit := fun _ => rfl
  onFault := fun _ => rfl
  onNeighbors := fun _ _ => rfl
  onPotential := fun _ _ => rfl
  onPutMsg := fun _ _ _ => rfl
  onFreeMsg := fun _ _ => rfl

theorem beside_acceptHello (val : Ident) (peer : Neighbor) :
    Keeps Beside (acceptHello val peer) :=
  registrar_beside.keeps_acceptHello (fun t w => (sends_sendHelloEveryone t w).dataf) val peer

theorem beside_hello (tlv : Mem) (length : UInt8) (peer : Neighbor) :
    Keeps Beside (hello tlv length peer) := by
  intro w
  have hread := (prints_readHello length w).dataf
  rw [after_hello]
  cases helloIdent w.id tlv length w.clock.head with
  | none => exact hread
  | some val => exact (beside_acceptHello val peer _).trans hread

theorem beside_neighbour (tlv : Mem) (length : UInt8) (peer : Neighbor) :
    Keeps Beside (neighbour tlv length peer) := by
  intro w
  unfold neighbour
  simp only [after_bind, value_get, after_get]
  split
  · rfl
  · exact registrar_beside.keeps_addPotential _ _ _

/-! ### Assigning to the lists -/

/-- Every recipient list is replaced. -/
def CList.relist (this : CList (Option FloodEntry)) (g : Nat → FloodEntry → CList NgbEntry) :
    CList (Option FloodEntry) :=
  { this with entries := this.entries.map fun e =>
      { e with content := e.content.map fun f => { f with symNeighbors := g e.addr f } } }

/-- A cell of `DATAF` without the recipients: its address, the index and the
data of its entry. -/
def label (e : ListEntry (Option FloodEntry)) : Nat × Option (DataIndex × List UInt8) :=
  (e.addr, e.content.map fun f => (f.index, f.data))

section Relist

variable {this : CList (Option FloodEntry)} {g h : Nat → FloodEntry → CList NgbEntry}

theorem relist_congr (heq : ∀ e ∈ this.entries, ∀ f, e.content = some f → g e.addr f = h e.addr f) :
    this.relist g = this.relist h := by
  unfold CList.relist
  congr 1
  apply List.map_congr_left
  intro e he
  cases hf : e.content with
  | none => rfl
  | some f => simp [heq e he f hf]

@[simp] theorem relist_self : this.relist (fun _ f => f.symNeighbors) = this := by
  obtain ⟨length, entries, last⟩ := this
  unfold CList.relist
  congr 1
  conv_rhs => rw [← List.map_id entries]
  apply List.map_congr_left
  intro e _
  obtain ⟨a, content⟩ := e
  cases content <;> rfl

theorem relist_relist : (this.relist g).relist h =
    this.relist fun a f => h a { f with symNeighbors := g a f } := by
  unfold CList.relist
  simp only [List.map_map]
  congr 1
  apply List.map_congr_left
  intro e _
  obtain ⟨a, content⟩ := e
  cases content <;> rfl

/-- An assignment to one entry. -/
theorem modifyCell_eq_relist (this : CList (Option FloodEntry)) (cell : Nat) (l : CList NgbEntry) :
    this.modifyCell cell (fun f => f.map ({ · with symNeighbors := l })) =
      this.relist fun a f => if a = cell then l else f.symNeighbors := by
  unfold CList.modifyCell CList.relist
  congr 1
  apply List.map_congr_left
  intro e _
  obtain ⟨a, content⟩ := e
  by_cases ha : a = cell
  · simp only [if_pos ha]
  · simp only [if_neg ha]
    cases content <;> rfl

@[simp] theorem addr_relist : (this.relist g).entries.map (·.addr) = this.entries.map (·.addr) := by
  simp [CList.relist, List.map_map, Function.comp_def]

@[simp] theorem label_relist : (this.relist g).entries.map label = this.entries.map label := by
  simp only [CList.relist, List.map_map]
  apply List.map_congr_left
  intro e _
  obtain ⟨a, content⟩ := e
  cases content <;> rfl

theorem linked_relist {bound : Nat} (hl : this.Linked bound) : (this.relist g).Linked bound := by
  refine ⟨by rw [addr_relist]; exact hl.nodup, ?_, fun e he => ?_⟩
  · show this.last = _
    rw [hl.last, CList.relist, List.getLast?_map, Option.map_map]
    rfl
  · obtain ⟨e₀, he₀, rfl⟩ := List.mem_map.mp he
    exact hl.below e₀ he₀

theorem cell?_relist (a : Nat) : (this.relist g).cell? a = (this.cell? a).map fun e =>
    { e with content := e.content.map fun f => { f with symNeighbors := g e.addr f } } := by
  unfold CList.cell? CList.relist
  rw [List.find?_map]
  rfl

end Relist

theorem addr_of_cell? {α : Type} {this : CList α} {a : Nat} {e : ListEntry α}
    (h : this.cell? a = some e) : e.addr = a ∧ e ∈ this.entries :=
  ⟨by simpa using List.find?_some h, List.mem_of_find?_eq_some h⟩

/-- On a linked list a cell is found at its address. -/
theorem CList.Linked.cell?_eq {α : Type} {this : CList α} {bound : Nat} (h : this.Linked bound)
    {e : ListEntry α} (he : e ∈ this.entries) : this.cell? e.addr = some e := by
  obtain ⟨e', he'⟩ : ∃ e', this.cell? e.addr = some e' := by
    rw [← Option.isSome_iff_exists]
    exact List.find?_isSome.mpr ⟨e, he, by simp⟩
  obtain ⟨haddr, hmem⟩ := addr_of_cell? he'
  rw [he', List.inj_on_of_nodup_map h.nodup hmem he haddr]

theorem floodAt_eq_some_iff {w : World} {bound cell : Nat} {f : FloodEntry}
    (h : w.dataf.Linked bound) : w.floodAt cell = some f ↔
      ({ addr := cell, content := some f } : ListEntry _) ∈ w.dataf.entries := by
  unfold World.floodAt
  rw [Option.bind_eq_some_iff]
  constructor
  · rintro ⟨⟨a, content⟩, hcell, hcontent⟩
    obtain ⟨rfl, hmem⟩ := addr_of_cell? hcell
    obtain rfl : content = some f := hcontent
    exact hmem
  · intro hmem
    exact ⟨_, h.cell?_eq hmem, rfl⟩

theorem floodAt_of_dataf {w w' : World} (h : w'.dataf = w.dataf) (a : Nat) :
    w'.floodAt a = w.floodAt a := by
  unfold World.floodAt
  rw [h]

/-- The entries of a relisted `DATAF`. -/
theorem floodAt_of_relist {w w' : World} {g : Nat → FloodEntry → CList NgbEntry}
    (h : w'.dataf = w.dataf.relist g) (cell : Nat) :
    w'.floodAt cell = (w.floodAt cell).map fun f => { f with symNeighbors := g cell f } := by
  unfold World.floodAt
  rw [h, cell?_relist]
  cases hcell : w.dataf.cell? cell with
  | none => rfl
  | some e =>
    obtain ⟨rfl, -⟩ := addr_of_cell? hcell
    rfl

/-! ### Removing a neighbour -/

/-- The address of the cell that `get` finds for an index. -/
def CList.foundAt (this : CList (Option FloodEntry)) (index : DataIndex) : Option Nat :=
  (this.get compareFlood (floodProbe index)).map (·.addr)

/-- A recipient list after `remove_elem` with a probe for `peer`. -/
def withoutPeer (peer : NeighborPtr) (l : CList NgbEntry) : CList NgbEntry :=
  (removeElem compareNS l (ngbProbe peer)).1

/-- `DATAF` after `remove_neighbor_from_flood`. -/
def takeOut (index : DataIndex) (peer : NeighborPtr) (this : CList (Option FloodEntry)) :
    CList (Option FloodEntry) :=
  this.relist fun a f =>
    if this.foundAt index = some a then withoutPeer peer f.symNeighbors else f.symNeighbors

theorem get_eq_some {this : CList (Option FloodEntry)} {index : DataIndex}
    {e : ListEntry (Option FloodEntry)}
    (h : this.get compareFlood (floodProbe index) = some e) :
    e ∈ this.entries ∧ ∃ f, e.content = some f ∧ f.index = index := by
  refine ⟨List.mem_of_find?_eq_some h, ?_⟩
  exact compareFlood_probe_iff.mp (by simpa using List.find?_some h)

@[simp] theorem foundAt_relist (this : CList (Option FloodEntry))
    (g : Nat → FloodEntry → CList NgbEntry) (index : DataIndex) :
    (this.relist g).foundAt index = this.foundAt index := by
  unfold CList.foundAt CList.get CList.relist
  rw [List.find?_map, Option.map_map]
  -- the comparator only looks at the index
  have hindex : ∀ e : ListEntry (Option FloodEntry),
      compareFlood (e.content.map fun f => { f with symNeighbors := g e.addr f })
        (floodProbe index) = compareFlood e.content (floodProbe index) := by
    intro e
    cases e.content <;> rfl
  simp only [Function.comp_def, hindex]

theorem dataf_removeNeighborFromFlood {w : World} {bound : Nat} (hl : w.dataf.Linked bound)
    (index : DataIndex) (peer : NeighborPtr) :
    (after (removeNeighborFromFlood index peer) w).dataf = takeOut index peer w.dataf := by
  have hget : (after (getFlood index) w).dataf = w.dataf := registrar_beside.keeps_getFlood index w
  -- both look for the first entry with the index
  unfold removeNeighborFromFlood takeOut CList.foundAt
  rw [after_bind, value_getFlood]
  cases hfound : w.dataf.get compareFlood (floodProbe index) with
  | none =>
    show (after (getFlood index) w).dataf = _
    rw [hget, Option.map_none]
    exact (relist_self).symm
  | some e =>
    obtain ⟨hmem, f, hcontent, -⟩ := get_eq_some hfound
    obtain ⟨a, content⟩ := e
    obtain rfl : content = some f := hcontent
    have htouch : ∀ l, (after (touchSyms l) (after (getFlood index) w)).dataf = w.dataf :=
      fun l => (registrar_beside.keeps_touchSyms l _).trans hget
    simp only [after_bind, after_pure, setSyms, after_modify, htouch]
    rw [modifyCell_eq_relist]
    apply relist_congr
    intro e he f' hf'
    by_cases ha : e.addr = a
    · -- two cells at one address are the same cell
      have heq : e = ⟨a, some f⟩ := List.inj_on_of_nodup_map hl.nodup he hmem ha
      obtain rfl : f' = f := by
        rw [heq] at hf'
        exact (Option.some.inj hf').symm
      rw [if_pos ha, if_pos (by rw [ha]; rfl)]
      rfl
    · have hne : ¬ (some a : Option Nat) = some e.addr := fun h => ha (Option.some.inj h).symm
      rw [if_neg ha]
      exact (if_neg hne).symm

/-- How often `remove_neighbor_everywhere` comes to the cell `a`: once for each
entry of the chain `l` for whose index the cell is found. -/
def CList.visits (this : CList (Option FloodEntry)) (l : List (Option FloodEntry)) (a : Nat) :
    Nat :=
  l.countP fun c => c.any fun f => this.foundAt f.index = some a

theorem visits_cons_none (this : CList (Option FloodEntry)) (l : List (Option FloodEntry))
    (a : Nat) : this.visits (none :: l) a = this.visits l a := rfl

theorem visits_cons_some (this : CList (Option FloodEntry)) (f : FloodEntry)
    (l : List (Option FloodEntry)) (a : Nat) : this.visits (some f :: l) a =
      this.visits l a + if this.foundAt f.index = some a then 1 else 0 := by
  unfold CList.visits
  rw [List.countP_cons]
  simp

/-- `DATAF` after `remove_neighbor_everywhere`. -/
def forgetPeer (peer : NeighborPtr) (this : CList (Option FloodEntry)) :
    CList (Option FloodEntry) :=
  this.relist fun a f => (withoutPeer peer)^[this.visits this.contents a] f.symNeighbors

theorem dataf_removeFromFloods {w : World} {bound : Nat} (hl : w.dataf.Linked bound)
    (peer : NeighborPtr) (l : List (Option FloodEntry)) :
    (after (removeFromFloods peer l) w).dataf = w.dataf.relist fun a f =>
      (withoutPeer peer)^[w.dataf.visits l a] f.symNeighbors := by
  induction l generalizing w with
  | nil => exact relist_self.symm
  | cons c rest ih =>
    cases c with
    | none =>
      have hrest := @ih (after (note .fault) w) hl
      simp only [visits_cons_none]
      exact hrest
    | some f₀ =>
      have hone := dataf_removeNeighborFromFlood hl f₀.index peer
      show (after (removeFromFloods peer rest)
        (after (removeNeighborFromFlood f₀.index peer) w)).dataf = _
      rw [ih (by rw [hone]; exact linked_relist hl), hone, takeOut, relist_relist]
      apply relist_congr
      intro e _ f _
      have hvisits : (w.dataf.relist fun a f => if w.dataf.foundAt f₀.index = some a then
          withoutPeer peer f.symNeighbors else f.symNeighbors).visits rest e.addr =
            w.dataf.visits rest e.addr := by
        unfold CList.visits
        simp only [foundAt_relist]
      rw [hvisits]
      rw [visits_cons_some]
      by_cases hfound : w.dataf.foundAt f₀.index = some e.addr
      · rw [if_pos hfound, if_pos hfound, Function.iterate_succ_apply]
      · rw [if_neg hfound, if_neg hfound, Nat.add_zero]

theorem dataf_removeNeighborEverywhere {w : World} {bound : Nat} (hl : w.dataf.Linked bound)
    (peer : NeighborPtr) :
    (after (removeNeighborEverywhere peer) w).dataf = forgetPeer peer w.dataf := by
  have hremove : ∀ v, (after (removeNeighbor peer.toNeighbor) v).dataf = v.dataf :=
    registrar_beside.keeps_removeNeighbor peer.toNeighbor
  show (after (removeNeighbor peer.toNeighbor)
    (after (removeFromFloods peer w.dataf.contents) w)).dataf = _
  rw [hremove, dataf_removeFromFloods hl]
  rfl

/-! ### Giving up a neighbour -/

theorem deref_cases (sym : NeighborPtr) (w : World) :
    (w.neighbors.owns sym ∧ value (deref sym) w = some sym.toNeighbor ∧
      after (deref sym) w = w) ∨
    (¬ w.neighbors.owns sym ∧ value (deref sym) w = none ∧
      after (deref sym) w = after (note .fault) w) := by
  by_cases hown : w.neighbors.owns sym
  · exact .inl ⟨hown, congrArg (fun m => value m w) (if_pos hown),
      congrArg (fun m => after m w) (if_pos hown)⟩
  · exact .inr ⟨hown, congrArg (fun m => value m w) (if_neg hown),
      congrArg (fun m => after m w) (if_neg hown)⟩

theorem after_expire (msg : MessageH) (taille : Nat) (sym : NeighborPtr) (w : World) :
    after (expire msg taille sym) w =
      if w.neighbors.owns sym then
        after (removeNeighborEverywhere sym) (after (sendMessage msg taille sym.toNeighbor)
          (after (note (.dropping sym (w.pending sym.toNeighbor))) w))
      else after (note .fault) w := by
  unfold expire
  rw [after_bind]
  rcases deref_cases sym w with ⟨hown, hvalue, hafter⟩ | ⟨hown, hvalue, hafter⟩
  · rw [hvalue, hafter, if_pos hown]
    rfl
  · rw [hvalue, hafter, if_neg hown]
    rfl

/-- The GoAway of `handle_inactive`. -/
def inactiveMessage (mem : Mem) : MessageH :=
  messageOf (tlvGoaway mem 0 (pmtu - 4) 2 (ofBytes inactiveText) 24).1 27

/-- `handle_inactive` is a turn of `send_goaway_asymetrical` with another text. -/
theorem after_handleInactive (sym : NeighborPtr) (w : World) : after (handleInactive sym) w =
    after (expire (inactiveMessage w.memory.head) 31 sym) (after uninit w) := by
  rw [after_expire]
  unfold handleInactive
  rw [after_bind, value_uninit]
  show after (deref sym >>= _) (after uninit w) = _
  rw [after_bind]
  rcases deref_cases sym (after uninit w) with ⟨hown, hvalue, hafter⟩ | ⟨hown, hvalue, hafter⟩
  · rw [hvalue, hafter, if_pos hown]
    rfl
  · rw [hvalue, hafter, if_neg hown]
    rfl

/-- A neighbour is only given up when its record is still there. -/
theorem dataf_expire {w : World} {bound : Nat} (hl : w.dataf.Linked bound) (msg : MessageH)
    (taille : Nat) (sym : NeighborPtr) : (after (expire msg taille sym) w).dataf =
      if w.neighbors.owns sym then forgetPeer sym w.dataf else w.dataf := by
  rw [after_expire]
  split
  · have hsend : (after (sendMessage msg taille sym.toNeighbor)
        (after (note (.dropping sym (w.pending sym.toNeighbor))) w)).dataf = w.dataf :=
      (sends_sendMessage msg taille sym.toNeighbor _).dataf
    rw [dataf_removeNeighborEverywhere (by rw [hsend]; exact hl), hsend]
  · rfl

/-! ### A turn of the flooding loop -/

/-- The entry of `DATAF` in the cell `flood`, with the recipient in the cell
`tmp` of its list. -/
def World.under (w : World) (flood tmp : Nat) : Option (FloodEntry × NgbEntry) :=
  (w.floodAt flood).bind fun f => (f.symNeighbors.cell? tmp).map fun e => (f, e.content)

/-- What a turn of the loop of `flood_message_to_neighbours` does. -/
inductive TurnDoes (flood : Nat) (currentTime : Int) (tmp : Nat) (w w' : World) : Prop
  | absent (hunder : w.under flood tmp = none) (hw : w' = after (note .fault) w)
  /-- The recipient has been sent the datum five times. -/
  | inactive (f : FloodEntry) (nw : NgbEntry) (hunder : w.under flood tmp = some (f, nw))
      (hfive : nw.timesSent = 5) (hw : w' = after (handleInactive nw.sym) w)
  /-- The record of the recipient is gone. -/
  | dangling (f : FloodEntry) (nw : NgbEntry) (hunder : w.under flood tmp = some (f, nw))
      (hfive : nw.timesSent ≠ 5) (hdue : nw.waitTime ≤ currentTime)
      (hown : ¬ w.neighbors.owns nw.sym) (hw : w' = after (note .fault) w)
  /-- `send_data` fails. -/
  | refused (f : FloodEntry) (nw : NgbEntry) (hunder : w.under flood tmp = some (f, nw))
      (hfive : nw.timesSent ≠ 5) (hdue : nw.waitTime ≤ currentTime)
      (hown : w.neighbors.owns nw.sym) (hzero : value (sendData f.data nw.sym.toNeighbor) w = 0)
      (hw : w' = after (sendData f.data nw.sym.toNeighbor) w)
  | sent (f : FloodEntry) (nw : NgbEntry) (hunder : w.under flood tmp = some (f, nw))
      (hfive : nw.timesSent ≠ 5) (hdue : nw.waitTime ≤ currentTime)
      (hown : w.neighbors.owns nw.sym) (hone : value (sendData f.data nw.sym.toNeighbor) w ≠ 0)
      (hw : w' = after (requeue flood currentTime f.symNeighbors tmp nw)
        (after (sendData f.data nw.sym.toNeighbor) w))
  /-- The deadline has not come. -/
  | early (f : FloodEntry) (nw : NgbEntry) (hunder : w.under flood tmp = some (f, nw))
      (hfive : nw.timesSent ≠ 5) (hearly : currentTime < nw.waitTime)
      (hw : w' = { w with nexttime := min w.nexttime nw.waitTime })

/-- The cases of a turn. -/
theorem floodTurn_cases (flood : Nat) (currentTime : Int) (tmp : Nat) (w : World) :
    TurnDoes flood currentTime tmp w (after (floodTurn flood currentTime tmp) w) := by
  unfold floodTurn
  rw [after_bind, value_get, after_get]
  cases hf : w.floodAt flood with
  | none => exact .absent (by rw [World.under, hf]; rfl) rfl
  | some f =>
    cases hcell : f.symNeighbors.cell? tmp with
    | none => exact .absent (by simp [World.under, hf, hcell]) (by simp only [hcell]; rfl)
    | some e =>
      obtain ⟨a, nw⟩ := e
      have hunder : w.under flood tmp = some (f, nw) := by simp [World.under, hf, hcell]
      simp only [hcell]
      by_cases hfive : nw.timesSent = 5
      · exact .inactive f nw hunder hfive (by simp only [if_pos hfive]; rfl)
      simp only [if_neg hfive]
      by_cases hdue : nw.waitTime ≤ currentTime
      · have hge : currentTime ≥ nw.waitTime := hdue
        simp only [if_pos hge, after_bind]
        rcases deref_cases nw.sym w with ⟨hown, hvalue, hafter⟩ | ⟨hown, hvalue, hafter⟩
        · simp only [hvalue, hafter, after_bind, after_ite, after_pure]
          by_cases hzero : value (sendData f.data nw.sym.toNeighbor) w = 0
          · exact .refused f nw hunder hfive hdue hown hzero (if_pos hzero)
          · exact .sent f nw hunder hfive hdue hown hzero (if_neg hzero)
        · simp only [hvalue, hafter, after_pure]
          exact .dangling f nw hunder hfive hdue hown rfl
      · have hlt : ¬ currentTime ≥ nw.waitTime := hdue
        simp only [if_neg hlt]
        exact .early f nw hunder hfive (Int.not_le.mp hdue) rfl

/-- What a turn does, when there is a recipient under the cursor. -/
theorem after_floodTurn {w : World} {flood tmp : Nat} {f : FloodEntry} {nw : NgbEntry}
    (hunder : w.under flood tmp = some (f, nw)) (currentTime : Int) :
    after (floodTurn flood currentTime tmp) w =
      if nw.timesSent = 5 then after (handleInactive nw.sym) w
      else if nw.waitTime ≤ currentTime then
        if w.neighbors.owns nw.sym then
          if value (sendData f.data nw.sym.toNeighbor) w = 0 then
            after (sendData f.data nw.sym.toNeighbor) w
          else after (requeue flood currentTime f.symNeighbors tmp nw)
            (after (sendData f.data nw.sym.toNeighbor) w)
        else after (note .fault) w
      else { w with nexttime := min w.nexttime nw.waitTime } := by
  have hsame : ∀ f' nw', w.under flood tmp = some (f', nw') → f' = f ∧ nw' = nw :=
    fun f' nw' hsome => Prod.mk.injEq .. ▸ Option.some.inj (hsome.symm.trans hunder)
  -- the five ways a turn can go, for the entry under the cursor
  have hcases := floodTurn_cases flood currentTime tmp w
  cases hcases with
  | absent hnone => cases hunder.symm.trans hnone
  | inactive f' nw' hsome hfive hw =>
    obtain ⟨rfl, rfl⟩ := hsame f' nw' hsome
    rw [hw, if_pos hfive]
  | dangling f' nw' hsome hfive hdue hown hw =>
    obtain ⟨rfl, rfl⟩ := hsame f' nw' hsome
    rw [hw, if_neg hfive, if_pos hdue, if_neg hown]
  | refused f' nw' hsome hfive hdue hown hzero hw =>
    obtain ⟨rfl, rfl⟩ := hsame f' nw' hsome
    rw [hw, if_neg hfive, if_pos hdue, if_pos hown, if_pos hzero]
  | sent f' nw' hsome hfive hdue hown hone hw =>
    obtain ⟨rfl, rfl⟩ := hsame f' nw' hsome
    rw [hw, if_neg hfive, if_pos hdue, if_pos hown, if_neg hone]
  | early f' nw' hsome hfive hearly hw =>
    obtain ⟨rfl, rfl⟩ := hsame f' nw' hsome
    rw [hw, if_neg hfive, if_neg (not_le.mpr hearly)]

/-! ### Sending a datum once more -/

/-- `wait_time(times_sent)`, when `rand` returns `r`. -/
def waitOf (timesSent r : Nat) : Int :=
  if timesSent = 0 then 1
  else ((r % (2 ^ timesSent - 2 ^ (timesSent - 1)) + 2 ^ (timesSent - 1) : Nat) : Int)

theorem value_waitTime (timesSent : Nat) (w : World) :
    value (waitTime timesSent) w = waitOf timesSent w.rands.head := by
  unfold waitTime waitOf
  split <;> rfl

/-- A recipient that has been sent the datum once more, at `currentTime`. -/
def NgbEntry.resent (n : NgbEntry) (r : Nat) (currentTime : Int) : NgbEntry :=
  { n with timesSent := n.timesSent + 1, waitTime := waitOf (n.timesSent + 1) r + currentTime }

/-- What becomes of the list `l` when the datum has been sent to `nw`. -/
inductive Requeued (w : World) (currentTime : Int) (nw : NgbEntry) (l l' : CList NgbEntry) : Prop
  | absent (hl : ∀ x ∈ l.entries, compareNS x.content nw ≠ 0) (hsame : l'.entries = l.entries)
  /-- The recipient `n` is taken out and put back. -/
  | back (n : NgbEntry) (rest : List (ListEntry NgbEntry)) (found : Option Nat) (rc : Int)
      (hremoves : Removes compareNS nw l.entries rest (some n))
      (hinserts : Inserts compareNS (n.resent w.rands.head currentTime) found rest l'.entries rc)
      (hfound : w.Allocates → found ≠ none)

/-- The same, for the answers `found` of the allocator and `r` of `rand`. -/
inductive PutBack (found : Option Nat) (r : Nat) (currentTime : Int) (nw : NgbEntry)
    (l l' : CList NgbEntry) : Prop
  | absent (hl : ∀ x ∈ l.entries, compareNS x.content nw ≠ 0) (hsame : l'.entries = l.entries)
  | back (n : NgbEntry) (rest : List (ListEntry NgbEntry)) (rc : Int)
      (hremoves : Removes compareNS nw l.entries rest (some n))
      (hinserts : Inserts compareNS (n.resent r currentTime) found rest l'.entries rc)

theorem PutBack.requeued {found : Option Nat} {w : World} {currentTime : Int} {nw : NgbEntry}
    {l l' : CList NgbEntry} (h : PutBack found w.rands.head currentTime nw l l')
    (hfound : w.Allocates → found ≠ none) : Requeued w currentTime nw l l' := by
  cases h with
  | absent hl hsame => exact .absent hl hsame
  | back n rest rc hremoves hinserts => exact .back n rest found rc hremoves hinserts hfound

theorem after_touchSyms_cases (l : List NgbEntry) (w : World) :
    after (touchSyms l) w = w ∨ after (touchSyms l) w = after (note .fault) w := by
  unfold touchSyms
  rw [after_bind, value_get, after_get, after_ite]
  split
  · exact .inr rfl
  · exact .inl rfl

theorem rands_touchSyms (l : List NgbEntry) (w : World) :
    (after (touchSyms l) w).rands = w.rands := by
  rcases after_touchSyms_cases l w with h | h <;> rw [h]
  rfl

theorem mallocs_touchSyms (l : List NgbEntry) (w : World) :
    (after (touchSyms l) w).mallocs = w.mallocs := by
  rcases after_touchSyms_cases l w with h | h <;> rw [h]
  rfl

theorem mallocs_waitTime (timesSent : Nat) (w : World) :
    (after (waitTime timesSent) w).mallocs = w.mallocs := by
  unfold waitTime
  rw [after_ite]
  split <;> rfl

/-- Everything that the end of a turn does to `DATAF`. -/
theorem dataf_requeue {w : World} {l : CList NgbEntry} (hl : l.Linked w.next) (flood : Nat)
    (currentTime : Int) (tmp : Nat) (nw : NgbEntry) :
    ∃ l' found, (after (requeue flood currentTime l tmp nw) w).dataf =
        w.dataf.relist (fun a f => if a = flood then l' else f.symNeighbors) ∧
      PutBack found w.rands.head currentTime nw l l' ∧
      (found = none ↔ w.mallocs.head = false) ∧
      l'.Linked (after (requeue flood currentTime l tmp nw) w).next := by
  obtain ⟨hremoves, hlinked⟩ := @removeElem_spec _ compareNS _ _ hl nw
  have hrequeue := (filer_later.keeps_requeue flood currentTime l tmp nw w).next
  -- assigning to the list of the entry, after quiet steps
  have hset : ∀ (u : World) (l₁ : CList NgbEntry), u.dataf = w.dataf →
      (after (setSyms flood l₁) u).dataf =
        w.dataf.relist fun a f => if a = flood then l₁ else f.symNeighbors := by
    intro u l₁ hu
    rw [← hu, ← modifyCell_eq_relist]
    rfl
  unfold requeue at hrequeue ⊢
  generalize removeElem compareNS l nw = taken at hremoves hlinked hrequeue ⊢
  obtain ⟨l₁, temp⟩ := taken
  simp only [after_bind] at hrequeue ⊢
  have hquiet₀ := primitive_quiet.keeps_touchSyms
    (walked (fun ent => compareNS ent nw = 0) l.contents) w
  have hrands₀ := rands_touchSyms (walked (fun ent => compareNS ent nw = 0) l.contents) w
  have hmallocs₀ := mallocs_touchSyms (walked (fun ent => compareNS ent nw = 0) l.contents) w
  generalize after (touchSyms (walked (fun ent => compareNS ent nw = 0) l.contents)) w = u₀
    at hquiet₀ hrands₀ hmallocs₀ hrequeue ⊢
  cases temp with
  | none =>
    refine ⟨l₁, value malloc w, hset _ _ hquiet₀.dataf, ?_, malloc_eq_none_iff w,
      hlinked.mono hrequeue⟩
    generalize hents : l₁.entries = ents at hremoves
    cases hremoves with
    | absent hall => exact .absent hall hents
  | some n =>
    have hwait : value (waitTime (n.timesSent + 1)) (after (setSyms flood l₁) u₀) =
        waitOf (n.timesSent + 1) w.rands.head := by
      rw [value_waitTime, ← hrands₀]
      rfl
    have hresent : ({ n with
        timesSent := n.timesSent + 1
        waitTime := waitOf (n.timesSent + 1) w.rands.head + currentTime } : NgbEntry) =
          n.resent w.rands.head currentTime := rfl
    simp only [after_bind, hwait, hresent, after_ite, after_pure, ite_self] at hrequeue ⊢
    have hu₁ := hquiet₀.toLater.elapsed.trans (filer_later.onSetSyms flood l₁ u₀).elapsed
    have hdataf₁ := hset u₀ l₁ hquiet₀.dataf
    have hmallocs₁ : (after (setSyms flood l₁) u₀).mallocs = w.mallocs := hmallocs₀
    generalize after (setSyms flood l₁) u₀ = u₁ at hu₁ hdataf₁ hmallocs₁ hrequeue ⊢
    have hquiet := (primitive_quiet.keeps_waitTime (n.timesSent + 1) u₁).trans
      (primitive_quiet.keeps_touchSyms (walked (fun ent =>
        decide (compareNS ent (n.resent w.rands.head currentTime) ≥ 0)) l₁.contents) _)
    have hmallocs := (mallocs_touchSyms (walked (fun ent =>
      decide (compareNS ent (n.resent w.rands.head currentTime) ≥ 0)) l₁.contents) _).trans
        (mallocs_waitTime (n.timesSent + 1) u₁)
    generalize after (touchSyms _) (after (waitTime _) u₁) = v at hquiet hmallocs hrequeue ⊢
    have hv := hu₁.trans hquiet.toLater.elapsed
    obtain ⟨hinserts, hlast, hafter⟩ := @addElem_spec _ _ compareNS _ _ hlinked malloc
      (n.resent w.rands.head currentTime) v
    have hadd := primitive_quiet.keeps_addElem compareNS l₁ (n.resent w.rands.head currentTime) v
    generalize value (addElem compareNS malloc l₁ (n.resent w.rands.head currentTime)) v = r
      at hinserts hlast hafter hrequeue ⊢
    obtain ⟨l₂, rc⟩ := r
    generalize after (addElem compareNS malloc l₁ (n.resent w.rands.head currentTime)) v = v'
      at hadd hafter hrequeue ⊢
    refine ⟨l₂, value malloc v, ?_, .back n _ rc hremoves hinserts, ?_, ?_, hlast, fun e he => ?_⟩
    · show v'.dataf.modifyCell flood _ = _
      rw [modifyCell_eq_relist, hadd.dataf, hquiet.dataf, hdataf₁, relist_relist]
      apply relist_congr
      intro e _ f _
      dsimp only
      split <;> rfl
    · rw [malloc_eq_none_iff, hmallocs, hmallocs₁]
    · apply hinserts.nodup hlinked.nodup hlinked.below
      intro a ha
      rcases malloc_cases v with ⟨hnone, -⟩ | ⟨hsome, -⟩
      · rw [hnone] at ha
        exact absurd ha nofun
      · rw [hsome] at ha
        obtain rfl := Option.some.inj ha
        exact hv.next
    · rcases hinserts.mem.mp he with hold | ⟨hrc, a, ha, rfl⟩
      · exact lt_of_lt_of_le (hlinked.below e hold) hrequeue
      · -- the new cell
        have hv' : v' = after malloc v := hafter hrc
        rcases malloc_cases v with ⟨hnone, -⟩ | ⟨hsome, hnext⟩
        · rw [hnone] at ha
          exact absurd ha nofun
        · rw [hsome] at ha
          obtain rfl := Option.some.inj ha
          show v.next < v'.next
          rw [hv', hnext]
          exact Nat.lt_succ_self _

/-! ### The most recent entries -/

/-- The last `NBDATA` elements of a list. -/
def recent {α : Type} (l : List α) : List α := l.drop (l.length - nbdata)

section Recent

variable {α β : Type}

theorem recent_of_le {l : List α} (h : l.length ≤ nbdata) : recent l = l := by
  unfold recent
  rw [Nat.sub_eq_zero_of_le h, List.drop_zero]

theorem length_recent (l : List α) : (recent l).length = min l.length nbdata := by
  unfold recent
  rw [List.length_drop]
  omega

theorem map_recent (f : α → β) (l : List α) : (recent l).map f = recent (l.map f) := by
  unfold recent
  rw [List.map_drop, List.length_map]

/-- What is recent after one more addition. -/
theorem recent_recent_append (l : List α) (x : α) :
    recent (recent l ++ [x]) = recent (l ++ [x]) := by
  unfold recent
  generalize nbdata = n
  rw [List.length_append, List.length_append, List.length_drop, List.length_singleton,
    List.drop_append, List.drop_append, List.drop_drop, List.length_drop]
  congr 2 <;> omega

theorem recent_sublist (l : List α) : (recent l).Sublist l := List.drop_sublist _ _

/-- The latest addition is recent. -/
theorem recent_append_singleton (l : List α) (x : α) :
    recent (l ++ [x]) = l.drop (l.length + 1 - nbdata) ++ [x] := by
  have hn : nbdata = 100 := rfl
  unfold recent
  rw [List.length_append, List.length_singleton, List.drop_append_of_le_length (by omega)]

end Recent

/-! ### Filing a new entry -/

/-- What is always true of `DATAF`. -/
structure World.Register (w : World) : Prop where
  linked : w.dataf.Linked w.next
  counted : w.dataf.length = w.dataf.entries.length
  bounded : w.dataf.entries.length ≤ nbdata
  lists : ∀ cell f, w.floodAt cell = some f → f.symNeighbors.Linked w.next

/-- `add_limited` on `DATAF`: with memory for a cell, the entry is the latest of
the most recent ones. -/
theorem addLimited_cases {w : World} (h : w.Register) (flood : Option FloodEntry) :
    (w.mallocs.head = false ∧ (value (addLimited malloc w.dataf flood nbdata) w).1 = w.dataf) ∨
    (w.mallocs.head = true ∧ (after (addLimited malloc w.dataf flood nbdata) w).next = w.next + 1 ∧
      (value (addLimited malloc w.dataf flood nbdata) w).1.Linked (w.next + 1) ∧
      (value (addLimited malloc w.dataf flood nbdata) w).1.length =
        (value (addLimited malloc w.dataf flood nbdata) w).1.entries.length ∧
      (value (addLimited malloc w.dataf flood nbdata) w).1.entries =
        recent (w.dataf.entries ++ [{ addr := w.next, content := flood }])) := by
  have hcounted := h.counted
  have hbounded := h.bounded
  obtain ⟨hafter, hvalue⟩ := addLast_eq h.linked malloc flood w
  have hend : ∀ l : CList (Option FloodEntry), (after (if l.length > nbdata then
      (pure (removeFirst l) : Peer _) else pure (l, none)) (after malloc w)) = after malloc w := by
    intro l
    rw [after_ite]
    split <;> rfl
  unfold addLimited
  simp only [value_bind, after_bind, hvalue, hafter, value_ite, value_pure, hend]
  cases hhead : w.mallocs.head with
  | false =>
    -- without a new cell the list is not longer than it was
    rw [(malloc_of_false hhead).1]
    have hshort : ¬ w.dataf.length > nbdata := by omega
    simp only [if_neg hshort]
    exact .inl ⟨trivial, trivial⟩
  | true =>
    rw [(malloc_of_true hhead).1]
    refine .inr ⟨rfl, by rw [(malloc_of_true hhead).2], ?_⟩
    have hlinked := h.linked.snoc (le_refl _) (Nat.lt_succ_self _) flood (w.dataf.length + 1)
    have hlength : (w.dataf.entries ++ [({ addr := w.next, content := flood } :
        ListEntry (Option FloodEntry))]).length = w.dataf.length + 1 := by
      rw [List.length_append, hcounted]
      rfl
    by_cases hlong : w.dataf.length + 1 > nbdata
    · -- the first cell goes
      obtain ⟨hl, hentries, -⟩ := linked_removeFirst hlinked
      simp only [if_pos hlong]
      refine ⟨hl, ?_, ?_⟩
      · rw [hentries, List.length_tail]
        unfold removeFirst
        cases hcons : w.dataf.entries ++ [({ addr := w.next, content := flood } :
            ListEntry (Option FloodEntry))] with
        | nil => simp at hcons
        | cons e rest =>
          rw [hcons] at hlength
          show w.dataf.length + 1 - 1 = _
          rw [List.length_cons] at hlength
          rw [List.length_cons]
          omega
      · rw [hentries, recent, hlength, ← List.drop_one]
        congr 1
        omega
    · -- there is room for one more
      simp only [if_neg hlong]
      exact ⟨hlinked, hlength.symm, (recent_of_le (by omega)).symm⟩

/-- The entry that `add_message_to_flood` makes of a value. -/
def newEntry (msgSend : Mem) (size : UInt8) (l : CList NgbEntry) : FloodEntry where
  index := indexAt msgSend
  data := 4 :: size :: Octets.read msgSend 0 size.toNat
  symNeighbors := l

/-- Its first recipients, out of the symmetrical neighbours. -/
def firstRecipients (toDelete : Option NeighborPtr) (symmetric : CList NgbEntry) :
    CList NgbEntry :=
  match toDelete with
  | none => symmetric
  | some peer => withoutPeer peer symmetric

theorem linked_firstRecipients {symmetric : CList NgbEntry} {bound : Nat}
    (h : symmetric.Linked bound) (toDelete : Option NeighborPtr) :
    (firstRecipients toDelete symmetric).Linked bound := by
  cases toDelete with
  | none => exact h
  | some peer => exact (removeElem_spec h (ngbProbe peer)).2

/-- `init_flood` needs memory twice: for the entry and for its index. -/
theorem initFlood_cases (msgSend : Mem) (size : UInt8) (l : CList NgbEntry) (w : World) :
    let init := initFlood (indexAt msgSend) (4 :: size :: Octets.read msgSend 0 size.toNat) l
    (w.mallocs.head = false ∧ value init w = none ∧ (after init w).mallocs = w.mallocs.tail) ∨
    (w.mallocs.head = true ∧ w.mallocs.tail.head = false ∧ value init w = none ∧
      (after init w).mallocs = w.mallocs.tail.tail) ∨
    (w.mallocs.head = true ∧ w.mallocs.tail.head = true ∧
      value init w = some (newEntry msgSend size l)) := by
  intro init
  unfold init initFlood
  simp only [value_bind, after_bind]
  cases h₁ : w.mallocs.head with
  | false =>
    rw [(malloc_of_false h₁).1, (malloc_of_false h₁).2]
    exact .inl ⟨rfl, rfl, rfl⟩
  | true =>
    rw [(malloc_of_true h₁).1, (malloc_of_true h₁).2]
    simp only [value_bind, after_bind]
    cases h₂ : w.mallocs.tail.head with
    | false =>
      rw [(malloc_of_false h₂).1, (malloc_of_false h₂).2]
      exact .inr (.inl ⟨trivial, rfl, rfl, rfl⟩)
    | true =>
      rw [(malloc_of_true h₂).1, (malloc_of_true h₂).2]
      refine .inr (.inr ⟨trivial, rfl, ?_⟩)
      -- a value of at most 255 bytes always fits
      have hsize := size.toNat_lt
      have hfits : ¬ size.toNat + 2 > pmtu - 4 := by
        have hp := pmtu_eq
        omega
      have hdata : (4 :: size :: Octets.read msgSend 0 size.toNat).take (size.toNat + 2) =
          4 :: size :: Octets.read msgSend 0 size.toNat :=
        List.take_of_length_le (by simp)
      simp only [List.getD_cons_succ, List.getD_cons_zero, if_neg hfits, hdata, value_pure]
      rfl

/-- What `add_message_to_flood` does to `DATAF`. -/
inductive Files (msgSend : Mem) (size : UInt8) (toDelete : Option NeighborPtr) (w w' : World) :
    Prop
  | nothing (hsame : w'.dataf = w.dataf) (hmem : ¬ w.Allocates)
  /-- An entry is added in the cell `a`; it is null when there is no memory for it. -/
  | entry (a : Nat) (content : Option FloodEntry) (hlo : w.next ≤ a) (hhi : a < w'.next)
      (hentries : w'.dataf.entries =
        recent (w.dataf.entries ++ [{ addr := a, content := content }]))
      (hcontent : content = none ∧ ¬ w.Allocates ∨
        ∃ l, value (getSymmetrical w.neighbors) w = some l ∧
          content = some (newEntry msgSend size (firstRecipients toDelete l)))

theorem Register.of_same {w w' : World} (h : w.Register) (hdataf : w'.dataf = w.dataf)
    (hnext : w.next ≤ w'.next) : w'.Register where
  linked := hdataf ▸ h.linked.mono hnext
  counted := by rw [hdataf]; exact h.counted
  bounded := by rw [hdataf]; exact h.bounded
  lists := fun cell f hf => by
    unfold World.floodAt at hf
    rw [hdataf] at hf
    exact (h.lists cell f hf).mono hnext

/-- Adding an entry to a register. -/
theorem register_addLimited {w : World} (h : w.Register) {flood : Option FloodEntry}
    (hflood : ∀ f, flood = some f → f.symNeighbors.Linked w.next) :
    World.Register { after (addLimited malloc w.dataf flood nbdata) w with
      dataf := (value (addLimited malloc w.dataf flood nbdata) w).1 } := by
  have hadd := primitive_quiet.keeps_addLimited w.dataf flood nbdata w
  rcases addLimited_cases h flood with ⟨-, hsame⟩ | ⟨-, hnext, hlinked, hcounted, hentries⟩
  · exact Register.of_same h hsame hadd.next
  · refine ⟨by rw [show _ = w.next + 1 from hnext]; exact hlinked, hcounted, ?_,
      fun cell f hf => ?_⟩
    · show (value (addLimited malloc w.dataf flood nbdata) w).1.entries.length ≤ nbdata
      rw [hentries, length_recent]
      exact Nat.min_le_right _ _
    · have hmem := (floodAt_eq_some_iff hlinked).mp hf
      have hmem' : ({ addr := cell, content := some f } : ListEntry _) ∈
          w.dataf.entries ++ [{ addr := w.next, content := flood }] :=
        (recent_sublist _).subset (hentries ▸ hmem)
      have hle : w.next ≤ (after (addLimited malloc w.dataf flood nbdata) w).next := hadd.next
      rcases List.mem_append.mp hmem' with hold | hnew
      · exact (h.lists cell f ((floodAt_eq_some_iff h.linked).mpr hold)).mono hle
      · have heq := List.mem_singleton.mp hnew
        exact (hflood f (congrArg ListEntry.content heq).symm).mono hle

/-- The second half of `add_message_to_flood`. -/
def fileEntry (msgSend : Mem) (size : UInt8) (l : CList NgbEntry) : Peer Unit := do
  note (.valueRead 0 size.toNat)
  let flood ←
    initFlood (indexAt msgSend) (4 :: size :: Octets.read msgSend 0 size.toNat) l
  let (dataf, _) ← addLimited malloc (← get).dataf flood nbdata
  modify fun w => { w with dataf := dataf }

/-- `add_message_to_flood` in two halves. -/
theorem after_addMessageToFlood (msgSend : Mem) (size : UInt8) (toDelete : Option NeighborPtr)
    (w : World) : ∃ u, Quiet (after (do note (.valueRead 0 8); note (.valueRead 8 4)) w) u ∧
      u.mallocs = (after (getSymmetrical w.neighbors) w).mallocs ∧
      (∀ l, value (getSymmetrical w.neighbors) w = some l → l.Linked u.next) ∧
      after (addMessageToFlood msgSend size toDelete) w =
        match value (getSymmetrical w.neighbors) w with
        | none => u
        | some l => after (fileEntry msgSend size (firstRecipients toDelete l)) u := by
  have halike : Alike (after (do note (.valueRead 0 8); note (.valueRead 8 4)) w) w :=
    ⟨rfl, rfl, rfl⟩
  -- what has been noted makes no difference to `get_symmetrical`
  obtain ⟨hsymmetric, hlike⟩ := agrees_getSymmetrical w.neighbors _ _ halike
  refine ⟨after (getSymmetrical w.neighbors) _, primitive_quiet.keeps_getSymmetrical _ _,
    hlike.mallocs, ?_, ?_⟩
  · intro l hl
    rcases getSymmetrical_cases w.neighbors
      (after (do note (.valueRead 0 8); note (.valueRead 8 4)) w) with ⟨hnone, -⟩ | ⟨l', hl', h, -⟩
    · rw [hsymmetric, hl] at hnone
      exact absurd hnone nofun
    · rw [hsymmetric, hl] at hl'
      exact Option.some.inj hl' ▸ h
  · rw [← hsymmetric]
    unfold addMessageToFlood
    simp only [after_bind, value_get, after_get]
    cases hvalue : value (getSymmetrical w.neighbors)
        (after (note (.valueRead 8 4)) (after (note (.valueRead 0 8)) w)) with
    | none =>
      have hvalue' : value (getSymmetrical (after (note (.valueRead 8 4))
          (after (note (.valueRead 0 8)) w)).neighbors)
        (after (note (.valueRead 8 4)) (after (note (.valueRead 0 8)) w)) = none := hvalue
      rw [hvalue']
      rfl
    | some l =>
      have hvalue' : value (getSymmetrical (after (note (.valueRead 8 4))
          (after (note (.valueRead 0 8)) w)).neighbors)
        (after (note (.valueRead 8 4)) (after (note (.valueRead 0 8)) w)) = some l := hvalue
      rw [hvalue']
      cases toDelete <;> rfl

theorem files_addMessageToFlood {w : World} (h : w.Register) (msgSend : Mem) (size : UInt8)
    (toDelete : Option NeighborPtr) :
    Files msgSend size toDelete w (after (addMessageToFlood msgSend size toDelete) w) ∧
      (after (addMessageToFlood msgSend size toDelete) w).Register := by
  obtain ⟨u, hquiet, -, hlinked, hafter⟩ := after_addMessageToFlood msgSend size toDelete w
  have hdataf : u.dataf = w.dataf := hquiet.dataf
  have hnext : w.next ≤ u.next := hquiet.next
  have halloc : w.Allocates → u.Allocates := fun halloc =>
    hquiet.toLater.elapsed.allocates halloc
  have hu : u.Register := Register.of_same h hdataf hnext
  rw [hafter]
  cases hl : value (getSymmetrical w.neighbors) w with
  | none =>
    refine ⟨.nothing hdataf fun hmem => ?_, hu⟩
    rcases getSymmetrical_cases w.neighbors w with ⟨-, hnot⟩ | ⟨l, hl', -⟩
    · exact hnot hmem
    · rw [hl] at hl'
      exact absurd hl' nofun
  | some l =>
    have hfirst := linked_firstRecipients (hlinked l hl) toDelete
    -- the new entry, and the state in which its cell is allocated
    unfold fileEntry
    simp only [after_bind, value_get, after_get]
    have hinit := primitive_quiet.keeps_initFlood (indexAt msgSend)
      (4 :: size :: Octets.read msgSend 0 size.toNat) (firstRecipients toDelete l)
      (after (note (.valueRead 0 size.toNat)) u)
    have hcases := initFlood_cases msgSend size (firstRecipients toDelete l)
      (after (note (.valueRead 0 size.toNat)) u)
    dsimp only at hcases
    generalize value (initFlood (indexAt msgSend) (4 :: size :: Octets.read msgSend 0 size.toNat)
      (firstRecipients toDelete l)) (after (note (.valueRead 0 size.toNat)) u) = flood
      at hcases ⊢
    generalize after (initFlood (indexAt msgSend) (4 :: size :: Octets.read msgSend 0 size.toNat)
      (firstRecipients toDelete l)) (after (note (.valueRead 0 size.toNat)) u) = v at hinit hcases ⊢
    have hv : v.Register := Register.of_same hu hinit.dataf hinit.next
    have hcontent : flood = none ∧ ¬ w.Allocates ∨
        flood = some (newEntry msgSend size (firstRecipients toDelete l)) := by
      rcases hcases with ⟨hhead, hnone, -⟩ | ⟨-, htail, hnone, -⟩ | ⟨-, -, hsome⟩
      · exact .inl ⟨hnone, fun hmem => Bool.false_ne_true (hhead.symm.trans (halloc hmem 0))⟩
      · exact .inl ⟨hnone, fun hmem => Bool.false_ne_true (htail.symm.trans (halloc hmem 1))⟩
      · exact .inr hsome
    have hflood : ∀ f, flood = some f → f.symNeighbors.Linked v.next := by
      intro f hf
      rcases hcontent with ⟨hnone, -⟩ | hsome
      · exact absurd (hf.symm.trans hnone) nofun
      · obtain rfl := Option.some.inj (hsome.symm.trans hf)
        exact hfirst.mono hinit.next
    refine ⟨?_, register_addLimited hv hflood⟩
    have hvu : v.dataf = w.dataf := hinit.dataf.trans hdataf
    have hle : w.next ≤ v.next := le_trans hnext hinit.next
    rcases addLimited_cases hv flood with ⟨hhead, hsame⟩ | ⟨-, hone, -, -, hentries⟩
    · refine .nothing (hsame.trans hvu) fun hmem => ?_
      have hall := hinit.toLater.elapsed.allocates (halloc hmem)
      exact Bool.false_ne_true (hhead.symm.trans (hall 0))
    · refine .entry v.next flood hle ?_ ?_ (hcontent.imp_right fun hf => ⟨l, hl, hf⟩)
      · show v.next < (after (addLimited malloc v.dataf flood nbdata) v).next
        rw [hone]
        exact Nat.lt_succ_self _
      · rw [← hvu]
        exact hentries

end FloodPeer
