/-
FloodPeer/Frames.lean

What the functions of the peer leave alone.

Relations between the two ends of a program, each finer than the one before:

* `Elapsed`: time has passed.  The log has grown, addresses and readings of the
  clock have been consumed, the own identifier is the same.
* `Handled`: in addition the parser has not run.
* `Later`: in addition the value of no TLV has been looked at.
* `Sends`: in addition the trees and the flood list are the same and the same
  messages are allocated; their contents may differ.
* `Quiet`: in addition the messages have the same contents.

Besides, `Prints` is `Handled` with the trees, the flood list and the messages
unchanged.

Every function that is not mentioned in a frame lemma of this file changes one
of the trees or the flood list.
-/
import FloodPeer.Main
import FloodPeer.Linked

namespace FloodPeer

open Octets StateLogic

/-! ### The relations -/

/-- Time has passed from `w` to `w'`. -/
structure Elapsed (w w' : World) : Prop where
  id : w'.id = w.id
  next : w.next ≤ w'.next
  clock : ∃ n, w'.clock = w.clock.drop n
  mallocs : ∃ n, w'.mallocs = w.mallocs.drop n
  log : w.log <+: w'.log

/-- Time has passed, without a turn of the parser. -/
structure Handled (w w' : World) : Prop where
  id : w'.id = w.id
  next : w.next ≤ w'.next
  clock : ∃ n, w'.clock = w.clock.drop n
  mallocs : ∃ n, w'.mallocs = w.mallocs.drop n
  log : ∃ ext, w'.log = w.log ++ ext ∧ ∀ o ∈ ext, o.ofParser = false

/-- Time has passed, without a look at a received message. -/
structure Later (w w' : World) : Prop where
  id : w'.id = w.id
  next : w.next ≤ w'.next
  clock : ∃ n, w'.clock = w.clock.drop n
  mallocs : ∃ n, w'.mallocs = w.mallocs.drop n
  log : ∃ ext, w'.log = w.log ++ ext ∧ ∀ o ∈ ext, o.ofInput = false

/-- Nothing has changed but the log, the counters and the streams. -/
structure Prints (w w' : World) : Prop extends Handled w w' where
  potential : w'.potential = w.potential
  neighbors : w'.neighbors = w.neighbors
  dataf : w'.dataf = w.dataf
  msgs : w'.msgs = w.msgs

/-- Only the contents of pending messages have changed. -/
structure Sends (w w' : World) : Prop extends Later w w' where
  potential : w'.potential = w.potential
  neighbors : w'.neighbors = w.neighbors
  dataf : w'.dataf = w.dataf
  live : ∀ a, (w'.msgs a).isSome = (w.msgs a).isSome

/-- Nothing has changed but the log, the counters and the streams, and no
received message has been looked at. -/
structure Quiet (w w' : World) : Prop extends Later w w' where
  potential : w'.potential = w.potential
  neighbors : w'.neighbors = w.neighbors
  dataf : w'.dataf = w.dataf
  msgs : w'.msgs = w.msgs

theorem Elapsed.refl (w : World) : Elapsed w w :=
  ⟨rfl, le_refl _, ⟨0, rfl⟩, ⟨0, rfl⟩, List.prefix_refl _⟩

theorem Elapsed.trans {u v w : World} (h₁ : Elapsed u v) (h₂ : Elapsed v w) : Elapsed u w := by
  obtain ⟨m, hm⟩ := h₁.clock
  obtain ⟨n, hn⟩ := h₂.clock
  obtain ⟨m', hm'⟩ := h₁.mallocs
  obtain ⟨n', hn'⟩ := h₂.mallocs
  refine ⟨h₂.id.trans h₁.id, le_trans h₁.next h₂.next, ⟨m + n, ?_⟩, ⟨m' + n', ?_⟩,
    h₁.log.trans h₂.log⟩
  · rw [hn, hm, Stream'.drop_drop, Nat.add_comm]
  · rw [hn', hm', Stream'.drop_drop, Nat.add_comm]

theorem Handled.elapsed {w w' : World} (h : Handled w w') : Elapsed w w' := by
  obtain ⟨ext, hext, -⟩ := h.log
  exact { h with log := ⟨ext, hext.symm⟩ }

theorem Handled.refl (w : World) : Handled w w :=
  ⟨rfl, le_refl _, ⟨0, rfl⟩, ⟨0, rfl⟩, [], by simp⟩

theorem Handled.trans {u v w : World} (h₁ : Handled u v) (h₂ : Handled v w) : Handled u w := by
  obtain ⟨e₁, hl₁, ho₁⟩ := h₁.log
  obtain ⟨e₂, hl₂, ho₂⟩ := h₂.log
  refine { Elapsed.trans h₁.elapsed h₂.elapsed with log := ⟨e₁ ++ e₂, ?_, fun o ho => ?_⟩ }
  · rw [hl₂, hl₁, List.append_assoc]
  · exact (List.mem_append.mp ho).elim (ho₁ o) (ho₂ o)

theorem ofParser_of_ofInput {o : Obs} (h : o.ofInput = false) : o.ofParser = false := by
  unfold Obs.ofInput at h
  simp_all

theorem Later.handled {w w' : World} (h : Later w w') : Handled w w' := by
  obtain ⟨ext, hext, hnone⟩ := h.log
  exact { h with log := ⟨ext, hext, fun o ho => ofParser_of_ofInput (hnone o ho)⟩ }

theorem Later.elapsed {w w' : World} (h : Later w w') : Elapsed w w' := h.handled.elapsed

theorem Later.refl (w : World) : Later w w :=
  ⟨rfl, le_refl _, ⟨0, rfl⟩, ⟨0, rfl⟩, [], by simp⟩

theorem Later.trans {u v w : World} (h₁ : Later u v) (h₂ : Later v w) : Later u w := by
  obtain ⟨e₁, hl₁, ho₁⟩ := h₁.log
  obtain ⟨e₂, hl₂, ho₂⟩ := h₂.log
  refine { Elapsed.trans h₁.elapsed h₂.elapsed with log := ⟨e₁ ++ e₂, ?_, fun o ho => ?_⟩ }
  · rw [hl₂, hl₁, List.append_assoc]
  · exact (List.mem_append.mp ho).elim (ho₁ o) (ho₂ o)

theorem Sends.refl (w : World) : Sends w w :=
  { Later.refl w with potential := rfl, neighbors := rfl, dataf := rfl, live := fun _ => rfl }

theorem Sends.trans {u v w : World} (h₁ : Sends u v) (h₂ : Sends v w) : Sends u w :=
  { Later.trans h₁.toLater h₂.toLater with
    potential := h₂.potential.trans h₁.potential
    neighbors := h₂.neighbors.trans h₁.neighbors
    dataf := h₂.dataf.trans h₁.dataf
    live := fun a => (h₂.live a).trans (h₁.live a) }

theorem Quiet.refl (w : World) : Quiet w w :=
  { Later.refl w with potential := rfl, neighbors := rfl, dataf := rfl, msgs := rfl }

theorem Quiet.trans {u v w : World} (h₁ : Quiet u v) (h₂ : Quiet v w) : Quiet u w :=
  { Later.trans h₁.toLater h₂.toLater with
    potential := h₂.potential.trans h₁.potential
    neighbors := h₂.neighbors.trans h₁.neighbors
    dataf := h₂.dataf.trans h₁.dataf
    msgs := h₂.msgs.trans h₁.msgs }

theorem Quiet.sends {w w' : World} (h : Quiet w w') : Sends w w' :=
  { h with live := fun a => by rw [h.msgs] }

theorem Prints.refl (w : World) : Prints w w :=
  { Handled.refl w with potential := rfl, neighbors := rfl, dataf := rfl, msgs := rfl }

theorem Prints.trans {u v w : World} (h₁ : Prints u v) (h₂ : Prints v w) : Prints u w :=
  { Handled.trans h₁.toHandled h₂.toHandled with
    potential := h₂.potential.trans h₁.potential
    neighbors := h₂.neighbors.trans h₁.neighbors
    dataf := h₂.dataf.trans h₁.dataf
    msgs := h₂.msgs.trans h₁.msgs }

theorem Quiet.prints {w w' : World} (h : Quiet w w') : Prints w w' :=
  { h.toLater.handled with
    potential := h.potential
    neighbors := h.neighbors
    dataf := h.dataf
    msgs := h.msgs }

theorem Elapsed.allocates {w w' : World} (h : Elapsed w w') (hw : w.Allocates) :
    w'.Allocates := by
  obtain ⟨n, hn⟩ := h.mallocs
  intro k
  rw [hn, Stream'.get_drop]
  exact hw _

theorem Elapsed.monotonic {w w' : World} (h : Elapsed w w') (hw : w.Monotonic) :
    w'.Monotonic := by
  obtain ⟨n, hn⟩ := h.clock
  intro j k hjk
  rw [hn, Stream'.get_drop, Stream'.get_drop]
  exact hw _ _ (by omega)

/-- On a monotonic clock, what is read later is not less. -/
theorem Elapsed.clock_le {w w' : World} (h : Elapsed w w') (hw : w.Monotonic) :
    w.clock.head ≤ w'.clock.head := by
  obtain ⟨n, hn⟩ := h.clock
  have hget := hw 0 (n + 0) (by omega)
  rwa [← Stream'.get_drop, ← hn] at hget

section Rules

variable {α β : Type}

theorem Quiet.bind {m : Peer α} {f : α → Peer β} (hm : Keeps Quiet m)
    (hf : ∀ a, Keeps Quiet (f a)) : Keeps Quiet (m >>= f) :=
  @Keeps.bind _ _ _ Quiet (fun _ _ _ => Quiet.trans) _ _ hm hf

theorem Quiet.pure (a : α) : Keeps Quiet (Pure.pure a : Peer α) := Quiet.refl

theorem Sends.bind {m : Peer α} {f : α → Peer β} (hm : Keeps Sends m)
    (hf : ∀ a, Keeps Sends (f a)) : Keeps Sends (m >>= f) :=
  @Keeps.bind _ _ _ Sends (fun _ _ _ => Sends.trans) _ _ hm hf

theorem Sends.pure (a : α) : Keeps Sends (Pure.pure a : Peer α) := Sends.refl

theorem Quiet.toSends {m : Peer α} (hm : Keeps Quiet m) : Keeps Sends m :=
  hm.mono fun _ _ => Quiet.sends

theorem Quiet.get : Keeps Quiet (MonadState.get : Peer World) := Quiet.refl

theorem Prints.bind {m : Peer α} {f : α → Peer β} (hm : Keeps Prints m)
    (hf : ∀ a, Keeps Prints (f a)) : Keeps Prints (m >>= f) :=
  @Keeps.bind _ _ _ Prints (fun _ _ _ => Prints.trans) _ _ hm hf

theorem Later.bind {m : Peer α} {f : α → Peer β} (hm : Keeps Later m)
    (hf : ∀ a, Keeps Later (f a)) : Keeps Later (m >>= f) :=
  @Keeps.bind _ _ _ Later (fun _ _ _ => Later.trans) _ _ hm hf

theorem Later.pure (a : α) : Keeps Later (Pure.pure a : Peer α) := Later.refl

theorem Sends.later {m : Peer α} (hm : Keeps Sends m) : Keeps Later m :=
  hm.mono fun _ _ h => h.toLater

theorem Quiet.later {m : Peer α} (hm : Keeps Quiet m) : Keeps Later m :=
  hm.mono fun _ _ h => h.toLater

theorem Handled.bind {m : Peer α} {f : α → Peer β} (hm : Keeps Handled m)
    (hf : ∀ a, Keeps Handled (f a)) : Keeps Handled (m >>= f) :=
  @Keeps.bind _ _ _ Handled (fun _ _ _ => Handled.trans) _ _ hm hf

theorem Handled.pure (a : α) : Keeps Handled (Pure.pure a : Peer α) := Handled.refl

theorem Later.toHandled {m : Peer α} (hm : Keeps Later m) : Keeps Handled m :=
  hm.mono fun _ _ h => h.handled

theorem Quiet.handled {m : Peer α} (hm : Keeps Quiet m) : Keeps Handled m :=
  hm.mono fun _ _ h => h.toLater.handled

end Rules

/-! ### The outside -/

theorem prints_note {o : Obs} (ho : o.ofParser = false) : Keeps Prints (note o) := fun w =>
  { Handled.refl w with
    log := ⟨[o], rfl, by simpa using ho⟩
    potential := rfl
    neighbors := rfl
    dataf := rfl
    msgs := rfl }

theorem quiet_note {o : Obs} (ho : o.ofInput = false) : Keeps Quiet (note o) := fun w =>
  { Later.refl w with
    log := ⟨[o], rfl, by simpa using ho⟩
    potential := rfl
    neighbors := rfl
    dataf := rfl
    msgs := rfl }

theorem quiet_getSeconds : Keeps Quiet getSeconds := fun w =>
  { Later.refl w with
    clock := ⟨1, rfl⟩
    potential := rfl
    neighbors := rfl
    dataf := rfl
    msgs := rfl }

theorem quiet_rand : Keeps Quiet rand := fun w =>
  { Later.refl w with potential := rfl, neighbors := rfl, dataf := rfl, msgs := rfl }

theorem quiet_uninit : Keeps Quiet uninit := fun w =>
  { Later.refl w with potential := rfl, neighbors := rfl, dataf := rfl, msgs := rfl }

theorem quiet_sendto (server : Sockaddr) (bytes : List UInt8) :
    Keeps Quiet (sendto server bytes) := fun w =>
  { Later.refl w with
    log := ⟨[.sendto server bytes], rfl, by simp [Obs.ofInput, Obs.ofParser, Obs.ofValue]⟩
    potential := rfl
    neighbors := rfl
    dataf := rfl
    msgs := rfl }

theorem quiet_malloc : Keeps Quiet malloc := by
  intro w
  cases h : w.mallocs.head with
  | true =>
    rw [(malloc_of_true h).2]
    exact { Later.refl w with
      next := Nat.le_succ _
      mallocs := ⟨1, rfl⟩
      potential := rfl
      neighbors := rfl
      dataf := rfl
      msgs := rfl }
  | false =>
    rw [(malloc_of_false h).2]
    exact { Later.refl w with
      mallocs := ⟨1, rfl⟩
      potential := rfl
      neighbors := rfl
      dataf := rfl
      msgs := rfl }

/-! ### Primitive relations

Most functions of the peer, those that neither send nor change a component of
the state, keep every relation that the outside keeps. -/

/-- A relation that holds across every call to the outside but `sendto`. -/
structure Outside (R : World → World → Prop) : Prop where
  refl : ∀ w, R w w
  trans : ∀ {u v w}, R u v → R v w → R u w
  onMalloc : Keeps R malloc
  onGetSeconds : Keeps R getSeconds
  onRand : Keeps R rand
  onUninit : Keeps R uninit

/-- A relation that undefined behaviour keeps as well. -/
structure Primitive (R : World → World → Prop) : Prop extends Outside R where
  onFault : Keeps R (note .fault)

theorem primitive_quiet : Primitive Quiet where
  refl := Quiet.refl
  trans := Quiet.trans
  onMalloc := quiet_malloc
  onGetSeconds := quiet_getSeconds
  onRand := quiet_rand
  onUninit := quiet_uninit
  onFault := quiet_note rfl

section Outside

variable {R : World → World → Prop} {α β : Type} (h : Outside R)

include h

theorem Outside.pure (a : α) : Keeps R (Pure.pure a : Peer α) := h.refl

theorem Outside.get : Keeps R (MonadState.get : Peer World) := h.refl

theorem Outside.bind {m : Peer α} {f : α → Peer β} (hm : Keeps R m)
    (hf : ∀ a, Keeps R (f a)) : Keeps R (m >>= f) :=
  @Keeps.bind _ _ _ R (fun _ _ _ => h.trans) _ _ hm hf

theorem Outside.keeps_randAB (a b : Nat) : Keeps R (randAB a b) :=
  h.bind h.onRand fun _ => h.pure _

theorem Outside.keeps_waitTime (timesSent : Nat) : Keeps R (waitTime timesSent) :=
  Keeps.ite (fun _ => h.pure _) fun _ => h.bind (h.keeps_randAB _ _) fun _ => h.pure _

theorem Outside.keeps_randomOnOctets (n : Nat) : Keeps R (randomOnOctets n) := by
  induction n with
  | zero => exact h.pure _
  | succ n ih => exact h.bind h.onRand fun _ => h.bind ih fun _ => h.pure _

theorem Outside.keeps_addLast (this : CList α) (elem : α) :
    Keeps R (addLast malloc this elem) :=
  FloodPeer.keeps_addLast h.refl (fun _ _ _ => h.trans) h.onMalloc this elem

theorem Outside.keeps_addElem (compare : α → α → Int) (this : CList α) (elem : α) :
    Keeps R (addElem compare malloc this elem) :=
  FloodPeer.keeps_addElem h.refl (fun _ _ _ => h.trans) h.onMalloc compare this elem

theorem Outside.keeps_addLimited (this : CList α) (elem : α) (max_t : Nat) :
    Keeps R (addLimited malloc this elem max_t) :=
  FloodPeer.keeps_addLimited h.refl (fun _ _ _ => h.trans) h.onMalloc this elem max_t

theorem Outside.keeps_init (key : Neighbor) (val : Ident) (left right : Tree) :
    Keeps R (init key val left right) := by
  unfold init
  refine h.bind h.onMalloc fun cur => ?_
  cases cur with
  | none => exact h.pure _
  | some _ =>
    refine h.bind h.onMalloc fun vbl => ?_
    cases vbl with
    | none => exact h.pure _
    | some _ =>
      refine h.bind h.onMalloc fun kbl => ?_
      cases kbl <;> exact h.pure _

theorem Outside.keeps_addNeighborAux (key : Neighbor) (val : Ident) {t : Tree} (ht : t ≠ .null) :
    Keeps R (addNeighborAux key val t) := by
  induction t with
  | null => exact absurd rfl ht
  | node k v left right ihl ihr =>
    refine Keeps.ite (fun _ => ?_) fun _ => Keeps.ite (fun _ => ?_) fun _ => h.pure _
    · exact Keeps.ite (fun _ => h.bind (h.keeps_init _ _ _ _) fun _ => h.pure _)
        fun hleft => h.bind (ihl hleft) fun _ => h.pure _
    · exact Keeps.ite (fun _ => h.bind (h.keeps_init _ _ _ _) fun _ => h.pure _)
        fun hright => h.bind (ihr hright) fun _ => h.pure _

theorem Outside.keeps_initNgbEntry (peer : NeighborPtr) (timesSent : Nat) :
    Keeps R (initNgbEntry peer timesSent) := by
  refine h.bind h.onMalloc fun res => ?_
  cases res with
  | none => exact h.pure _
  | some _ =>
    exact h.bind (h.keeps_waitTime _) fun _ => h.bind h.onGetSeconds fun _ => h.pure _

theorem Outside.keeps_findByAux {func : Tree → Peer Bool}
    (hfunc : ∀ k v left right, Keeps R (func (.node k v left right))) (t : Tree)
    (l : CList NgbEntry) : Keeps R (findByAux func t l) := by
  induction t generalizing l with
  | null => exact h.pure _
  | node k v left right ihl ihr =>
    refine h.bind (ihl _) fun l => h.bind (hfunc _ _ _ _) fun b => ?_
    refine Keeps.ite (fun _ => h.bind (h.keeps_initNgbEntry _ _) fun ent => ?_) fun _ => ihr _
    cases ent with
    | none => exact ihr _
    | some ent => exact h.bind (h.keeps_addLast _ _) fun _ => ihr _

theorem Outside.keeps_findBy {func : Tree → Peer Bool}
    (hfunc : ∀ k v left right, Keeps R (func (.node k v left right))) (t : Tree) :
    Keeps R (findBy t func) := by
  refine h.bind h.onMalloc fun res => ?_
  cases res with
  | none => exact h.pure _
  | some _ => exact h.bind (h.keeps_findByAux hfunc _ _) fun _ => h.pure _

theorem Outside.keeps_getSymmetrical (t : Tree) : Keeps R (getSymmetrical t) :=
  h.keeps_findBy (fun _ _ _ _ => h.bind h.onGetSeconds fun _ => h.pure _) t

theorem Outside.keeps_initFlood (index : DataIndex) (data : List UInt8) (l : CList NgbEntry) :
    Keeps R (initFlood index data l) := by
  refine h.bind h.onMalloc fun cur => ?_
  cases cur with
  | none => exact h.pure _
  | some _ =>
    refine h.bind h.onMalloc fun ind => ?_
    cases ind with
    | none => exact h.pure _
    | some _ => exact Keeps.ite (fun _ => h.pure _) fun _ => h.pure _

theorem Outside.keeps_tlvData (body : Mem) (off bufsize : Nat) (id : UInt64) (type : UInt8)
    (data : Mem) (msgSize : UInt8) :
    Keeps R (tlvData body off bufsize id type data msgSize) :=
  Keeps.ite (fun _ => h.bind (h.keeps_randomOnOctets _) fun _ => h.pure _)
    fun _ => h.pure _

theorem Outside.keeps_addMessageToFlood (hread : ∀ off n, Keeps R (note (.valueRead off n)))
    (hdataf : ∀ l, Keeps R (modify fun w => { w with dataf := l } : Peer PUnit)) (msgSend : Mem)
    (size : UInt8) (toDelete : Option NeighborPtr) :
    Keeps R (addMessageToFlood msgSend size toDelete) := by
  apply h.bind (hread _ _)
  intro _
  apply h.bind (hread _ _)
  intro _
  apply h.bind h.get
  intro _
  apply h.bind (h.keeps_getSymmetrical _)
  intro sym
  cases sym with
  | none => exact h.pure _
  | some sym =>
    apply h.bind (hread _ _)
    intro _
    apply h.bind (h.keeps_initFlood _ _ _)
    intro _
    exact h.bind h.get fun _ => h.bind (h.keeps_addLimited _ _ _) fun _ => hdataf _

end Outside

section Primitive

variable {R : World → World → Prop} (h : Primitive R)

include h

theorem Primitive.keeps_deref (sym : NeighborPtr) : Keeps R (deref sym) :=
  h.bind h.get fun _ => Keeps.ite (fun _ => h.pure _) fun _ =>
    h.bind h.onFault fun _ => h.pure _

theorem Primitive.keeps_touchSyms (l : List NgbEntry) : Keeps R (touchSyms l) :=
  h.bind h.get fun _ => Keeps.ite (fun _ => h.onFault) fun _ => h.pure _

theorem Primitive.keeps_addNeighborAux (key : Neighbor) (val : Ident) (t : Tree) :
    Keeps R (addNeighborAux key val t) := by
  by_cases ht : t = .null
  · rw [ht]
    exact h.bind h.onFault fun _ => h.pure _
  · exact h.toOutside.keeps_addNeighborAux key val ht

theorem Primitive.keeps_issymmetrical (t : Tree) : Keeps R (issymmetrical t) := by
  cases t with
  | null => exact h.bind h.onFault fun _ => h.pure _
  | node => exact h.bind h.onGetSeconds fun _ => h.pure _

theorem Primitive.keeps_isOld (t : Tree) : Keeps R (isOld t) := by
  cases t with
  | null => exact h.bind h.onFault fun _ => h.pure _
  | node => exact h.bind h.onGetSeconds fun _ => h.pure _

theorem Primitive.keeps_findByAux {func : Tree → Peer Bool}
    (hfunc : ∀ t, Keeps R (func t)) (t : Tree) (l : CList NgbEntry) :
    Keeps R (findByAux func t l) :=
  h.toOutside.keeps_findByAux (fun _ _ _ _ => hfunc _) t l

theorem Primitive.keeps_findBy {func : Tree → Peer Bool} (hfunc : ∀ t, Keeps R (func t))
    (t : Tree) : Keeps R (findBy t func) :=
  h.toOutside.keeps_findBy (fun _ _ _ _ => hfunc _) t

theorem Primitive.keeps_getFlood (index : DataIndex) : Keeps R (getFlood index) :=
  h.bind h.get fun _ => Keeps.ite (fun _ => h.bind h.onFault fun _ => h.pure _)
    fun _ => h.pure _

theorem Primitive.keeps_trim (c : UInt8) (buf : Mem) (tmp : UInt8) : Keeps R (trim c buf tmp) :=
  Keeps.ite (fun _ => h.bind h.onFault fun _ => h.bind h.onUninit fun _ =>
    h.pure _) fun _ => h.pure _

end Primitive

/-- A relation that also holds across assignments to the trees and to the messages. -/
structure Clerk (R : World → World → Prop) : Prop extends Outside R where
  onNeighbors : ∀ t, Keeps R (modify fun w => { w with neighbors := t } : Peer PUnit)
  onPotential : ∀ t, Keeps R (modify fun w => { w with potential := t } : Peer PUnit)
  onPutMsg : ∀ a msg, Keeps R (putMsg a msg)
  onFreeMsg : ∀ a, Keeps R (freeMsg a)

/-- A primitive relation of that kind. -/
structure Registrar (R : World → World → Prop) : Prop extends Primitive R, Clerk R

/-- A test of the state after which the state is read again. -/
theorem keeps_get_ite {R : World → World → Prop} {β : Type} (c : World → Prop) [DecidablePred c]
    {m : Peer β} {f : World → Peer β} (hm : Keeps R m) (hf : ∀ w, ¬ c w → Keeps R (f w)) :
    Keeps R (do if c (← MonadState.get) then m else f (← MonadState.get)) := by
  intro w
  change R w (after (if c w then m else do f (← MonadState.get)) w)
  by_cases hc : c w
  · rw [if_pos hc]
    exact hm w
  · rw [if_neg hc]
    exact hf w hc w

section Clerk

variable {R : World → World → Prop} (h : Clerk R)

include h

theorem Clerk.keeps_freeIfSet (msg : Option Nat) : Keeps R (freeIfSet msg) := by
  cases msg with
  | none => exact h.pure _
  | some a => exact h.onFreeMsg a

theorem Clerk.keeps_emptyMsg (msg : Option Nat) : Keeps R (emptyMsg msg) := by
  cases msg with
  | none => exact h.pure _
  | some a => exact h.bind h.onUninit fun _ => h.onPutMsg _ _

theorem Clerk.keeps_addNeighbor (key : Neighbor) (val : Ident) :
    Keeps R (addNeighbor key val) := by
  apply h.bind h.onMalloc
  intro msg
  apply h.bind (h.keeps_emptyMsg _)
  intro _
  refine keeps_get_ite (fun w => w.neighbors = .null) ?_ ?_
  · apply h.bind (h.keeps_init _ _ _ _)
    intro t
    exact h.bind (h.onNeighbors _) fun _ => Keeps.ite
      (fun _ => h.bind (h.keeps_freeIfSet _) fun _ => h.pure _) fun _ => h.pure _
  · intro w hne
    apply h.bind (h.keeps_addNeighborAux _ _ hne)
    intro t
    exact h.bind (h.onNeighbors _) fun _ => Keeps.ite
      (fun _ => h.bind (h.keeps_freeIfSet _) fun _ => h.pure _) fun _ => h.pure _

theorem Clerk.keeps_addPotential (key : Neighbor) (val : Ident) :
    Keeps R (addPotential key val) := by
  refine keeps_get_ite (fun w => w.potential = .null) ?_ ?_
  · exact h.bind (h.keeps_init _ _ _ _) fun t => h.bind (h.onPotential _) fun _ => h.pure _
  · intro w hne
    exact h.bind (h.keeps_addNeighborAux _ _ hne) fun t =>
      h.bind (h.onPotential _) fun _ => h.pure _

theorem Clerk.keeps_removeNeighborAux (key : Neighbor) (t : Tree) :
    Keeps R (removeNeighborAux key t) := by
  induction t with
  | null => exact h.pure _
  | node k v left right ihl ihr =>
    refine Keeps.ite (fun _ => ?_) fun _ => Keeps.ite (fun _ => ?_) fun _ => ?_
    · exact h.bind (h.keeps_freeIfSet _) fun _ => h.pure _
    · exact h.bind ihl fun _ => h.pure _
    · exact h.bind ihr fun _ => h.pure _

theorem Clerk.keeps_removeNeighbor (key : Neighbor) : Keeps R (removeNeighbor key) :=
  h.bind h.get fun _ => h.bind (h.keeps_removeNeighborAux _ _) fun _ => h.onNeighbors _

theorem Clerk.keeps_removePotential (key : Neighbor) : Keeps R (removePotential key) :=
  h.bind h.get fun _ => h.bind (h.keeps_removeNeighborAux _ _) fun _ => h.onPotential _

theorem Clerk.keeps_acceptHello (hsend : ∀ t, Keeps R (sendHelloEveryone t)) (val : Ident)
    (peer : Neighbor) : Keeps R (acceptHello val peer) := by
  apply h.bind (h.keeps_addNeighbor _ _)
  intro rc
  apply Keeps.ite
  · intro _
    exact h.bind (h.keeps_removePotential _) fun _ => h.bind h.get fun _ =>
      h.bind (hsend _) fun _ => h.pure _
  · intro _
    exact h.pure _

end Clerk

/-- A primitive relation that also holds across assignments to the lists of the
flood entries. -/
structure Filer (R : World → World → Prop) : Prop extends Primitive R where
  onSetSyms : ∀ cell l, Keeps R (setSyms cell l)

section Filer

variable {R : World → World → Prop} (h : Filer R)

include h

theorem Filer.keeps_removeNeighborFromFlood (data : DataIndex) (peer : NeighborPtr) :
    Keeps R (removeNeighborFromFlood data peer) := by
  apply h.bind (h.keeps_getFlood _)
  intro ent
  split
  · exact h.bind (h.keeps_touchSyms _) fun _ => h.bind (h.onSetSyms _ _) fun _ => h.pure _
  · exact h.pure _

theorem Filer.keeps_removeFromFloods (peer : NeighborPtr) (l : List (Option FloodEntry)) :
    Keeps R (removeFromFloods peer l) := by
  induction l with
  | nil => exact h.pure _
  | cons f rest ih =>
    cases f with
    | none => exact h.bind h.onFault fun _ => ih
    | some f => exact h.bind (h.keeps_removeNeighborFromFlood _ _) fun _ => ih

theorem Filer.keeps_removeNeighborEverywhere (hr : Registrar R) (peer : NeighborPtr) :
    Keeps R (removeNeighborEverywhere peer) :=
  h.bind h.get fun _ => h.bind (h.keeps_removeFromFloods _ _) fun _ =>
    h.bind (hr.keeps_removeNeighbor _) fun _ => h.pure _

theorem Filer.keeps_requeue (flood : Nat) (currentTime : Int) (l : CList NgbEntry) (tmp : Nat)
    (nw : NgbEntry) : Keeps R (requeue flood currentTime l tmp nw) := by
  unfold requeue
  generalize removeElem compareNS l nw = taken
  obtain ⟨l', temp⟩ := taken
  apply h.bind (h.keeps_touchSyms _)
  intro _
  apply h.bind (h.onSetSyms _ _)
  intro _
  cases temp with
  | none => exact h.pure _
  | some n =>
    apply h.bind (h.keeps_waitTime _)
    intro wait
    apply h.bind (h.keeps_touchSyms _)
    intro _
    apply h.bind (h.keeps_addElem _ _ _)
    intro r
    exact h.bind (h.onSetSyms _ _) fun _ => Keeps.ite (fun _ => h.pure _) fun _ => h.pure _

end Filer

/-! ### The screen -/

theorem prints_printOnScreen (data : Mem) (off size : Nat) :
    Keeps Prints (printOnScreen data off size) := by
  refine Prints.bind (prints_note rfl) fun _ => Prints.bind (prints_note rfl) fun _ => ?_
  refine Keeps.ite (fun _ => Prints.bind (prints_note rfl) fun _ => prints_note rfl) fun _ => ?_
  refine Prints.bind (prints_note rfl) fun _ => Prints.bind (prints_note rfl) fun _ =>
    Prints.bind (prints_note rfl) fun _ => Prints.bind (prints_note rfl) fun _ => ?_
  refine Keeps.ite (fun _ => Prints.bind (prints_note rfl) fun _ => prints_note rfl) fun _ => ?_
  refine Prints.bind (prints_note rfl) fun _ => ?_
  exact Keeps.ite (fun _ => Prints.bind (prints_note rfl) fun _ => prints_note rfl)
    fun _ => prints_note rfl

/-! ### Sending -/

theorem quiet_sendMessageNow (buf : MessageH) (taille : Nat) (rcpt : Neighbor) :
    Keeps Quiet (sendMessageNow buf taille rcpt) := quiet_sendto _ _

/-- Storing a message where one is allocated. -/
theorem sends_putMsg {w : World} {a : Nat} (msg : MessageH) (h : (w.msgs a).isSome) :
    Sends w (after (putMsg a msg) w) :=
  { Later.refl w with
    potential := rfl
    neighbors := rfl
    dataf := rfl
    live := fun b => by
      by_cases hb : b = a
      · simp [hb, h]
      · simp [hb] }

theorem quiet_makeRoom (msg : MessageH) (actSize sizeToAdd : Nat) (rcpt : Neighbor) :
    Keeps Quiet (makeRoom msg actSize sizeToAdd rcpt) :=
  Keeps.ite (fun _ => Quiet.bind (quiet_sendMessageNow _ _ _) fun _ => Quiet.pure _)
    fun _ => Quiet.pure _

theorem sends_gather {w : World} {a : Nat} (msg : MessageH) (actSize : Nat)
    (bytes : List UInt8) (h : (w.msgs a).isSome) :
    Sends w (after (gather a msg actSize bytes) w) := by
  unfold gather
  by_cases hbig : actSize + bytes.length > maxSize
  · simp only [if_pos hbig]
    exact (quiet_note rfl w).sends.trans (sends_putMsg _ h)
  · simp only [if_neg hbig]
    exact sends_putMsg _ h

theorem sends_sendMessage (buf : MessageH) (taille : Nat) (rcpt : Neighbor) :
    Keeps Sends (sendMessage buf taille rcpt) := by
  intro w
  unfold sendMessage
  cases rcpt.msg with
  | none => exact Quiet.sends (quiet_sendMessageNow _ _ _ _)
  | some a =>
    simp only [after_bind, value_get, after_get]
    cases hmsg : w.msgs a with
    | none => exact Quiet.sends (quiet_note rfl _)
    | some msg =>
      -- everything up to the final store leaves the messages alone
      have hquiet : Quiet w (after (do
          note (.queued a (Octets.read buf.body 0 (swap16 buf.bodyLength).toNat))
          makeRoom msg (swap16 msg.bodyLength).toNat (swap16 buf.bodyLength).toNat rcpt) w) :=
        Quiet.bind (quiet_note rfl) (fun _ => quiet_makeRoom _ _ _ _) w
      refine hquiet.sends.trans (sends_gather _ _ _ ?_)
      rw [hquiet.msgs, hmsg]
      rfl

theorem sends_sendToEveryone (buf : MessageH) (length : Nat) (people : Tree) :
    Keeps Sends (sendToEveryone buf length people) := by
  induction people with
  | null => exact Sends.pure _
  | node key val left right ihl ihr =>
    exact Sends.bind (sends_sendMessage _ _ _) fun _ => Sends.bind ihl fun _ =>
      Sends.bind ihr fun _ => Sends.pure _

theorem sends_flushNeighbor (key : Neighbor) : Keeps Sends (flushNeighbor key) := by
  intro w
  unfold flushNeighbor
  cases key.msg with
  | none => exact Sends.refl _
  | some a =>
    simp only [after_bind, value_get, after_get]
    cases hmsg : w.msgs a with
    | none => exact Quiet.sends (quiet_note rfl _)
    | some msg =>
      by_cases hlen : msg.bodyLength ≠ 0
      · simp only [if_pos hlen]
        have hquiet := quiet_sendMessageNow msg ((swap16 msg.bodyLength).toNat + 4) key w
        refine hquiet.sends.trans (sends_putMsg _ ?_)
        rw [hquiet.msgs, hmsg]
        rfl
      · simp only [if_neg hlen]
        exact Sends.refl _

theorem sends_sendToEveryoneNow (people : Tree) : Keeps Sends (sendToEveryoneNow people) := by
  induction people with
  | null => exact Sends.pure _
  | node key val left right ihl ihr =>
    exact Sends.bind (sends_flushNeighbor _) fun _ => Sends.bind ihl fun _ =>
      Sends.bind ihr fun _ => Sends.pure _

theorem sends_sendHelloEveryone (people : Tree) : Keeps Sends (sendHelloEveryone people) := by
  induction people with
  | null => exact Sends.pure _
  | node key val left right ihl ihr =>
    exact Sends.bind (Quiet.toSends quiet_uninit) fun _ =>
      Sends.bind (Quiet.toSends Quiet.get) fun _ =>
      Sends.bind (sends_sendMessage _ _ _) fun _ => Sends.bind ihl fun _ =>
      Sends.bind ihr fun _ => Sends.pure _

theorem sends_symetricalLoop (people : Tree) (l : List NgbEntry) (body : Mem) (size : Nat)
    (res count : Int) : Keeps Sends (symetricalLoop people l body size res count) := by
  induction l generalizing body size res count with
  | nil => exact Sends.pure _
  | cons tmp rest ih =>
    exact Keeps.ite (fun _ => Sends.bind (sends_sendToEveryone _ _ _) fun _ => ih _ _ _ _)
      fun _ => ih _ _ _ _

theorem sends_sendSymetricalEveryone (people : Tree) :
    Keeps Sends (sendSymetricalEveryone people) := by
  refine Sends.bind (Quiet.toSends Quiet.get) fun w => ?_
  refine Sends.bind (Quiet.toSends (primitive_quiet.keeps_getSymmetrical _)) fun sym => ?_
  cases sym with
  | none => exact Sends.pure _
  | some sym =>
    refine Sends.bind (sends_symetricalLoop _ _ _ _ _ _) fun r => ?_
    refine Sends.bind (fun w => ?_) fun _ => ?_
    · exact { Sends.refl w with id := rfl }
    · exact Keeps.ite (fun _ => sends_sendToEveryone _ _ _) fun _ => Sends.pure _

theorem sends_sendShorthelloEveryone (people : Tree) :
    Keeps Sends (sendShorthelloEveryone people) :=
  Sends.bind (Quiet.toSends quiet_uninit) fun _ => Sends.bind (Quiet.toSends Quiet.get) fun _ =>
    Sends.bind (Quiet.toSends Quiet.get) fun _ => sends_sendToEveryone _ _ _

theorem sends_sendData (tlv : List UInt8) (key : Neighbor) : Keeps Sends (sendData tlv key) := by
  unfold sendData
  extract_lets bodyLength
  split
  · exact Sends.bind (Quiet.toSends (quiet_note rfl)) fun _ => Sends.pure _
  · exact Sends.bind (Quiet.toSends quiet_uninit) fun _ => sends_sendMessage _ _ _

/-! ### Handlers -/

/-- An assignment to the trees, the flood list or a message takes no time. -/
theorem later_of_same {w w' : World} (hid : w'.id = w.id) (hnext : w'.next = w.next)
    (hclock : w'.clock = w.clock) (hmallocs : w'.mallocs = w.mallocs) (hlog : w'.log = w.log) :
    Later w w' :=
  ⟨hid, le_of_eq hnext.symm, ⟨0, hclock⟩, ⟨0, hmallocs⟩, [], by simp [hlog]⟩

theorem registrar_later : Registrar Later where
  refl := Later.refl
  trans := Later.trans
  onMalloc := Quiet.later quiet_malloc
  onGetSeconds := Quiet.later quiet_getSeconds
  onRand := Quiet.later quiet_rand
  onUninit := Quiet.later quiet_uninit
  onFault := Quiet.later (quiet_note rfl)
  onNeighbors := fun _ _ => later_of_same rfl rfl rfl rfl rfl
  onPotential := fun _ _ => later_of_same rfl rfl rfl rfl rfl
  onPutMsg := fun _ _ _ => later_of_same rfl rfl rfl rfl rfl
  onFreeMsg := fun _ _ => later_of_same rfl rfl rfl rfl rfl

theorem filer_later : Filer Later :=
  { registrar_later.toPrimitive with
    onSetSyms := fun _ _ _ => later_of_same rfl rfl rfl rfl rfl }

theorem later_removeNeighborEverywhere (peer : NeighborPtr) :
    Keeps Later (removeNeighborEverywhere peer) :=
  filer_later.keeps_removeNeighborEverywhere registrar_later peer

theorem later_acceptHello (val : Ident) (peer : Neighbor) : Keeps Later (acceptHello val peer) :=
  registrar_later.keeps_acceptHello (fun t => Sends.later (sends_sendHelloEveryone t)) val peer

theorem handled_note {o : Obs} (ho : o.ofParser = false) : Keeps Handled (note o) :=
  (prints_note ho).mono fun _ _ h => h.toHandled

theorem handled_printOnScreen (data : Mem) (off size : Nat) :
    Keeps Handled (printOnScreen data off size) :=
  (prints_printOnScreen data off size).mono fun _ _ h => h.toHandled

theorem handled_addMessageToFlood (msgSend : Mem) (size : UInt8)
    (toDelete : Option NeighborPtr) :
    Keeps Handled (addMessageToFlood msgSend size toDelete) := by
  have h : Primitive Handled :=
    { refl := Handled.refl
      trans := Handled.trans
      onMalloc := Quiet.handled quiet_malloc
      onGetSeconds := Quiet.handled quiet_getSeconds
      onRand := Quiet.handled quiet_rand
      onUninit := Quiet.handled quiet_uninit
      onFault := Quiet.handled (quiet_note rfl) }
  apply h.keeps_addMessageToFlood
  · exact fun _ _ => handled_note rfl
  · exact fun _ => Later.toHandled fun _ => later_of_same rfl rfl rfl rfl rfl

theorem handled_hello (tlv : Mem) (length : UInt8) (peer : Neighbor) :
    Keeps Handled (hello tlv length peer) := by
  refine Handled.bind (Quiet.handled quiet_getSeconds) fun current => ?_
  refine Handled.bind (handled_note rfl) fun _ => ?_
  refine Keeps.ite (fun _ => ?_) fun _ => Later.toHandled (later_acceptHello _ _)
  refine Handled.bind (handled_note rfl) fun _ => ?_
  exact Handled.bind (Quiet.handled Quiet.get) fun _ =>
    Keeps.ite (fun _ => Later.toHandled (later_acceptHello _ _)) fun _ => Handled.pure _

theorem handled_neighbour (tlv : Mem) (length : UInt8) (peer : Neighbor) :
    Keeps Handled (neighbour tlv length peer) := by
  refine Handled.bind (handled_note rfl) fun _ => ?_
  refine Handled.bind (handled_note rfl) fun _ => ?_
  refine Handled.bind (Quiet.handled Quiet.get) fun w => ?_
  split
  · exact Handled.pure _
  · exact Handled.bind (Quiet.handled quiet_getSeconds) fun _ =>
      Handled.bind (Later.toHandled (registrar_later.keeps_addPotential _ _)) fun _ =>
        Handled.pure _

theorem sends_sendAck (index : DataIndex) (peer : Neighbor) : Keeps Sends (sendAck index peer) :=
  Sends.bind (Quiet.toSends quiet_uninit) fun _ =>
    Keeps.ite (fun _ => Sends.bind (sends_sendMessage _ _ _) fun _ => Sends.pure _)
      fun _ => Sends.pure _

theorem handled_newData (tlv : Mem) (length : UInt8) (peer : Neighbor) :
    Keeps Handled (newData tlv length peer) := by
  refine Handled.bind (handled_note rfl) fun _ => ?_
  refine Handled.bind (handled_addMessageToFlood _ _ _) fun _ => ?_
  refine Handled.bind (handled_note rfl) fun _ => ?_
  exact Keeps.ite (fun _ => Handled.bind (handled_note rfl) fun _ =>
    handled_printOnScreen _ _ _) fun _ => Handled.pure _

theorem handled_data (tlv : Mem) (length : UInt8) (peer : Neighbor) :
    Keeps Handled (data tlv length peer) := by
  refine Handled.bind (handled_note rfl) fun _ => ?_
  refine Handled.bind (handled_note rfl) fun _ => ?_
  refine Handled.bind (Later.toHandled (Sends.later (sends_sendAck _ _))) fun _ => ?_
  refine Handled.bind (Quiet.handled (primitive_quiet.keeps_getFlood _)) fun ent => ?_
  cases ent with
  | some ent =>
    exact Handled.bind (Later.toHandled (filer_later.keeps_removeNeighborFromFlood _ _)) fun _ =>
      Handled.pure _
  | none => exact handled_newData _ _ _

theorem handled_ack (tlv : Mem) (length : UInt8) (peer : Neighbor) :
    Keeps Handled (ack tlv length peer) := by
  refine Handled.bind (handled_note rfl) fun _ => ?_
  refine Handled.bind (handled_note rfl) fun _ => ?_
  exact Handled.bind (Later.toHandled (filer_later.keeps_removeNeighborFromFlood _ _)) fun _ =>
    Handled.pure _

theorem prints_writeText (tlv : Mem) (length : UInt8) : Keeps Prints (writeText tlv length) :=
  Prints.bind (prints_note rfl) fun _ => Keeps.ite (fun _ => prints_note rfl)
    fun _ => Prints.bind (prints_note rfl) fun _ => prints_note rfl

theorem handled_goaway (tlv : Mem) (length : UInt8) (peer : Neighbor) :
    Keeps Handled (goaway tlv length peer) := by
  refine Handled.bind (handled_note rfl) fun _ => ?_
  refine Handled.bind (handled_note rfl) fun _ => ?_
  refine Handled.bind ((prints_writeText _ _).mono fun _ _ h => h.toHandled) fun _ => ?_
  exact Handled.bind (Later.toHandled (later_removeNeighborEverywhere _)) fun _ => Handled.pure _

theorem handled_warning (tlv : Mem) (length : UInt8) (peer : Neighbor) :
    Keeps Handled (warning tlv length peer) :=
  Handled.bind (handled_note rfl) fun _ =>
    Handled.bind (handled_note rfl) fun _ => handled_note rfl

theorem handled_handleTlv (type : UInt8) (tlv : Mem) (length : UInt8) (peer : Neighbor) :
    Keeps Handled (handleTlv type tlv length peer) := by
  unfold handleTlv
  split
  · exact Handled.pure _
  · exact Handled.pure _
  · exact handled_hello _ _ _
  · exact handled_neighbour _ _ _
  · exact handled_data _ _ _
  · exact handled_ack _ _ _
  · exact handled_goaway _ _ _
  · exact handled_warning _ _ _

/-! ### The other moves of the main loop -/

theorem later_handleInactive (sym : NeighborPtr) : Keeps Later (handleInactive sym) := by
  refine Later.bind (Quiet.later quiet_uninit) fun mem => ?_
  refine Later.bind (Quiet.later (primitive_quiet.keeps_deref _)) fun key => ?_
  cases key with
  | none => exact Later.pure _
  | some key =>
    refine Later.bind (Quiet.later Quiet.get) fun _ => ?_
    refine Later.bind (Quiet.later (quiet_note rfl)) fun _ => ?_
    refine Later.bind (Sends.later (sends_sendMessage _ _ _)) fun _ => ?_
    exact Later.bind (later_removeNeighborEverywhere _) fun _ => Later.pure _

theorem later_floodTurn (flood : Nat) (currentTime : Int) (tmp : Nat) :
    Keeps Later (floodTurn flood currentTime tmp) := by
  refine Later.bind (Quiet.later Quiet.get) fun w => ?_
  split
  · exact Later.bind (Quiet.later (quiet_note rfl)) fun _ => Later.pure _
  split
  · exact Later.bind (Quiet.later (quiet_note rfl)) fun _ => Later.pure _
  refine Keeps.ite (fun _ => ?_) fun _ => Keeps.ite (fun _ => ?_) fun _ => ?_
  · exact Later.bind (later_handleInactive _) fun _ => Later.pure _
  · refine Later.bind (Quiet.later (primitive_quiet.keeps_deref _)) fun key => ?_
    cases key with
    | none => exact Later.pure _
    | some key =>
      exact Later.bind (Sends.later (sends_sendData _ _)) fun i =>
        Keeps.ite (fun _ => Later.pure _) fun _ => filer_later.keeps_requeue _ _ _ _ _
  · exact Later.bind (fun _ => later_of_same rfl rfl rfl rfl rfl) fun _ => Later.pure _

theorem later_expire (msg : MessageH) (taille : Nat) (sym : NeighborPtr) :
    Keeps Later (expire msg taille sym) := by
  refine Later.bind (Quiet.later (primitive_quiet.keeps_deref _)) fun key => ?_
  cases key with
  | none => exact Later.pure _
  | some key =>
    refine Later.bind (Quiet.later Quiet.get) fun _ => ?_
    refine Later.bind (Quiet.later (quiet_note rfl)) fun _ => ?_
    refine Later.bind (Sends.later (sends_sendMessage _ _ _)) fun _ => ?_
    exact Later.bind (later_removeNeighborEverywhere _) fun _ => Later.pure _

/-- The size of the text in `buf`, without a null byte and a newline at its end. -/
def trimText (got : Option (List UInt8)) : Peer UInt8 := do
  let buf := ofBytes ((got.getD []).take 242)
  let tmp : UInt8 := match got with
    | none => 255
    | some bytes => UInt8.ofNat (bytes.take 242).length
  let tmp ← trim 0 buf tmp
  trim 10 buf tmp

/-- The TLV for the first `tmp` bytes of the text, in `msg_to_send`. -/
def encodeText (got : Option (List UInt8)) (tmp : UInt8) : Peer Mem := do
  if tmp.toNat + 15 > 260 then note .fault
  let (msgToSend, _) ←
    tlvData (← uninit) 0 260 (← get).id 0 (ofBytes ((got.getD []).take 242)) tmp
  return msgToSend

/-- The first half of `localMessage`: `msg_to_send` and the size of the text. -/
def composeText (got : Option (List UInt8)) : Peer (Mem × UInt8) := do
  let tmp ← trimText got
  let msgToSend ← encodeText got tmp
  return (msgToSend, tmp)

theorem localMessage_eq (got : Option (List UInt8)) :
    localMessage got = composeText got >>= fun r =>
      addMessageToFlood (fun i => r.1 (2 + i)) (r.1 1) none >>= fun _ =>
        printOnScreen (ofBytes ((got.getD []).take 242)) 0 r.2.toNat := by
  unfold localMessage composeText trimText encodeText
  simp only [bind_assoc, pure_bind]
  apply congrArg (trim 0 _ _ >>= ·)
  funext tmp
  apply congrArg (trim 10 _ _ >>= ·)
  funext tmp
  -- the check of the bounds is the one place where the code branches
  by_cases hbig : tmp.toNat + 15 > 260
  · simp only [if_pos hbig, bind_assoc, pure_bind]
  · simp only [if_neg hbig, bind_assoc, pure_bind]

section Compose

variable {R : World → World → Prop} (h : Primitive R)

include h

theorem Primitive.keeps_trimText (got : Option (List UInt8)) : Keeps R (trimText got) :=
  h.bind (h.keeps_trim _ _ _) fun _ => h.keeps_trim _ _ _

theorem Primitive.keeps_encodeText (got : Option (List UInt8)) (tmp : UInt8) :
    Keeps R (encodeText got tmp) := by
  have hrest : Keeps R (do
      let (msgToSend, _) ←
        tlvData (← uninit) 0 260 (← MonadState.get).id 0 (ofBytes ((got.getD []).take 242)) tmp
      return msgToSend : Peer Mem) :=
    h.bind h.onUninit fun _ => h.bind h.get fun _ =>
      h.bind (h.keeps_tlvData _ _ _ _ _ _ _) fun _ => h.pure _
  exact Keeps.ite (fun _ => h.bind h.onFault fun _ => hrest) fun _ => hrest

theorem Primitive.keeps_composeText (got : Option (List UInt8)) : Keeps R (composeText got) :=
  h.bind (h.keeps_trimText _) fun _ => h.bind (h.keeps_encodeText _ _) fun _ => h.pure _

end Compose

theorem handled_localMessage (got : Option (List UInt8)) : Keeps Handled (localMessage got) := by
  rw [localMessage_eq]
  refine Handled.bind (Quiet.handled (primitive_quiet.keeps_composeText got)) fun _ => ?_
  exact Handled.bind (handled_addMessageToFlood _ _ _) fun _ => handled_printOnScreen _ _ _

end FloodPeer
