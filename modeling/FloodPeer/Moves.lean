/-
FloodPeer/Moves.lean

The peer as a transition system.

A `Move` is a piece of the main loop between two points at which the invariants
of the peer hold: the handling of one TLV, one turn of a loop that removes
neighbours or sends a flood entry, a message to everybody.  Runs of moves are
more than the runs of the program, since the moves may come in any order; that
every turn of the main loop is a run is `run_iteration`.
-/
import FloodPeer.Records
import FloodPeer.Lib.Runs

namespace FloodPeer

open Octets StateLogic Runs

/-! ### Moves -/

/-- Something that changes neither the records nor the flood list nor the
messages: a comparison, a reading of the clock, a look at a datagram. -/
structure Idle (w w' : World) : Prop extends Elapsed w w' where
  potential : w'.potential = w.potential
  neighbors : w'.neighbors = w.neighbors
  dataf : w'.dataf = w.dataf
  msgs : w'.msgs = w.msgs

/-- The GoAway of `send_goaway_asymetrical`. -/
def goawayMessage (mem : Mem) : MessageH :=
  messageOf (tlvGoaway mem 0 (pmtu - 4) 2 (fun _ => 0) 0).1 3

/-- The moves of the peer. -/
inductive Move where
  | idle
  /-- A TLV from `client` is handled. -/
  | tlv (type : UInt8) (buf : Mem) (length : UInt8) (client : Sockaddr)
  /-- A message comes from the user interface. -/
  | say (got : Option (List UInt8))
  | hellos
  | advertise
  | shortHellos
  /-- A potential neighbour is forgotten. -/
  | forget (key : Neighbor)
  /-- A turn of `send_goaway_asymetrical`. -/
  | expire (mem : Mem) (sym : NeighborPtr)
  /-- A turn of `flood_message_to_neighbours`. -/
  | turn (flood : Nat) (currentTime : Int) (tmp : Nat)
  | flush

/-- What a move does. -/
def Move.Does : Move → World → World → Prop
  | .idle, w, w' => Idle w w'
  | .tlv type buf length client, w, w' =>
    w' = after (handleTlv type buf length (sockaddr6ToNeighbor client)) w
  | .say got, w, w' => w' = after (localMessage got) w
  | .hellos, w, w' => w' = after (sendHelloEveryone w.neighbors) w
  | .advertise, w, w' => w' = after (sendSymetricalEveryone w.neighbors) w
  | .shortHellos, w, w' => w' = after (sendShorthelloEveryone w.potential) w
  | .forget key, w, w' => w' = after (removePotential key) w
  | .expire mem sym, w, w' => w' = after (FloodPeer.expire (goawayMessage mem) 7 sym) w
  | .turn flood currentTime tmp, w, w' => w' = after (floodTurn flood currentTime tmp) w
  | .flush, w, w' => w' = after (sendToEveryoneNow w.neighbors) w

/-- In every move time passes. -/
theorem Move.Does.elapsed {m : Move} {w w' : World} (h : m.Does w w') : Elapsed w w' := by
  cases m with
  | idle => exact Idle.toElapsed h
  | tlv type buf length client =>
    rw [show w' = _ from h]
    exact (handled_handleTlv _ _ _ _ w).elapsed
  | say got =>
    rw [show w' = _ from h]
    exact (handled_localMessage got w).elapsed
  | hellos =>
    rw [show w' = _ from h]
    exact (sends_sendHelloEveryone _ w).toLater.elapsed
  | advertise =>
    rw [show w' = _ from h]
    exact (sends_sendSymetricalEveryone _ w).toLater.elapsed
  | shortHellos =>
    rw [show w' = _ from h]
    exact (sends_sendShorthelloEveryone _ w).toLater.elapsed
  | forget key =>
    rw [show w' = _ from h]
    exact (registrar_later.keeps_removePotential key w).elapsed
  | expire mem sym =>
    rw [show w' = _ from h]
    exact (later_expire _ _ sym w).elapsed
  | turn flood currentTime tmp =>
    rw [show w' = _ from h]
    exact (later_floodTurn flood currentTime tmp w).elapsed
  | flush =>
    rw [show w' = _ from h]
    exact (sends_sendToEveryoneNow _ w).toLater.elapsed

/-- A state that a move leads to; an idle one may change nothing. -/
def Move.act : Move → World → World
  | .idle, w => w
  | .tlv type buf length client, w =>
    after (handleTlv type buf length (sockaddr6ToNeighbor client)) w
  | .say got, w => after (localMessage got) w
  | .hellos, w => after (sendHelloEveryone w.neighbors) w
  | .advertise, w => after (sendSymetricalEveryone w.neighbors) w
  | .shortHellos, w => after (sendShorthelloEveryone w.potential) w
  | .forget key, w => after (removePotential key) w
  | .expire mem sym, w => after (FloodPeer.expire (goawayMessage mem) 7 sym) w
  | .turn flood currentTime tmp, w => after (floodTurn flood currentTime tmp) w
  | .flush, w => after (sendToEveryoneNow w.neighbors) w

theorem Move.does_act (m : Move) (w : World) : m.Does w (m.act w) := by
  cases m with
  | idle =>
    exact { Elapsed.refl w with potential := rfl, neighbors := rfl, dataf := rfl, msgs := rfl }
  | _ => rfl

/-- Only an idle move can lead elsewhere. -/
theorem Move.Does.eq_act {m : Move} {w w' : World} (h : m.Does w w') (hm : m ≠ .idle) :
    w' = m.act w := by
  cases m with
  | idle => exact absurd rfl hm
  | _ => exact h

/-- The state after a list of moves. -/
def actAll (l : List Move) (w : World) : World := l.foldl (fun v m => m.act v) w

/-- The history of a list of moves. -/
def actHistory : List Move → World → List (World × Move)
  | [], _ => []
  | m :: rest, w => (w, m) :: actHistory rest (m.act w)

theorem actHistory_concat (l : List Move) (m : Move) (w : World) :
    actHistory (l ++ [m]) w = actHistory l w ++ [(actAll l w, m)] := by
  induction l generalizing w with
  | nil => rfl
  | cons m' rest ih => exact congrArg (List.cons (w, m')) (ih (m'.act w))

theorem moves_actHistory (l : List Move) (w : World) : (actHistory l w).map Prod.snd = l := by
  induction l generalizing w with
  | nil => rfl
  | cons m rest ih => exact congrArg (List.cons m) (ih (m.act w))

/-- Every list of moves is a run. -/
theorem run_actAll (l : List Move) (w : World) :
    Run Move.Does w (actHistory l w) (actAll l w) := by
  induction l generalizing w with
  | nil => exact .nil
  | cons m rest ih => exact (Run.single (m.does_act w)).trans (ih _)

/-- No datagram leaves the process. -/
def Obs.Kept : Obs → Prop
  | .sendto .. => False
  | _ => True

/-- What the program itself does in an idle move. -/
structure Still (w w' : World) : Prop extends Idle w w' where
  kept : ∃ ext, w'.log = w.log ++ ext ∧ ∀ o ∈ ext, o.Kept

variable {P : UInt8 → Mem → UInt8 → Sockaddr → Prop}

/-- A move of the program, which handles no TLVs but those that `P` allows. -/
structure Lawful (P : UInt8 → Mem → UInt8 → Sockaddr → Prop) (m : Move) (w w' : World) : Prop where
  does : m.Does w w'
  allowed : ∀ type buf length client, m = .tlv type buf length client → P type buf length client
  still : m = .idle → Still w w'

/-- Some moves of the program lead from `w` to `w'`. -/
def Plays (P : UInt8 → Mem → UInt8 → Sockaddr → Prop) (w w' : World) : Prop :=
  ∃ tr, Run (Lawful P) w tr w'

theorem Plays.refl (w : World) : Plays P w w := ⟨[], .nil⟩

theorem Plays.trans {u v w : World} (h₁ : Plays P u v) (h₂ : Plays P v w) : Plays P u w := by
  obtain ⟨tr₁, h₁⟩ := h₁
  obtain ⟨tr₂, h₂⟩ := h₂
  exact ⟨tr₁ ++ tr₂, h₁.trans h₂⟩

theorem Plays.run {w w' : World} (h : Plays P w w') : ∃ tr, Run Move.Does w tr w' := by
  obtain ⟨tr, hrun⟩ := h
  exact ⟨tr, hrun.mono fun _ _ _ hmove => hmove.does⟩

/-- A move that is neither idle nor the handling of a TLV. -/
theorem Plays.of_move {w w' : World} (m : Move) (h : m.Does w w') (hidle : m ≠ .idle)
    (htlv : ∀ type buf length client, m ≠ .tlv type buf length client) : Plays P w w' :=
  ⟨_, .single ⟨h, fun _ _ _ _ heq => absurd heq (htlv _ _ _ _), fun heq => absurd heq hidle⟩⟩

theorem Plays.of_still {w w' : World} (h : Still w w') : Plays P w w' := by
  have hmove : Lawful P .idle w w' := ⟨h.toIdle, fun _ _ _ _ heq => (nomatch heq), fun _ => h⟩
  exact ⟨_, .single hmove⟩

theorem Prints.idle {w w' : World} (h : Prints w w') : Idle w w' :=
  { h.toHandled.elapsed with
    potential := h.potential
    neighbors := h.neighbors
    dataf := h.dataf
    msgs := h.msgs }

theorem Quiet.idle {w w' : World} (h : Quiet w w') : Idle w w' := h.prints.idle

section Rules

variable {α β : Type}

theorem Plays.bind {m : Peer α} {f : α → Peer β} (hm : Keeps (Plays P) m)
    (hf : ∀ a, Keeps (Plays P) (f a)) : Keeps (Plays P) (m >>= f) :=
  @Keeps.bind _ _ _ (Plays P) (fun _ _ _ => Plays.trans) _ _ hm hf

theorem Plays.pure (a : α) : Keeps (Plays P) (Pure.pure a : Peer α) := Plays.refl

/-- A program that starts from a component of the current state. -/
theorem Plays.get_bind {m : World → Peer α} {f : α → Peer β}
    (hm : ∀ w, Plays P w (after (m w) w)) (hf : ∀ a, Keeps (Plays P) (f a)) :
    Keeps (Plays P) (MonadState.get >>= fun w => m w >>= f) :=
  fun w => (hm w).trans (hf _ _)

theorem Still.plays {m : Peer α} (hm : Keeps Still m) : Keeps (Plays P) m :=
  hm.mono fun _ _ h => .of_still h

end Rules

/-! ### The main loop is made of moves -/

theorem idle_note (o : Obs) (w : World) : Idle w (after (note o) w) :=
  { elapsed_note o w with potential := rfl, neighbors := rfl, dataf := rfl, msgs := rfl }

theorem still_note {o : Obs} (ho : o.Kept) : Keeps Still (note o) := fun w =>
  { idle_note o w with kept := ⟨[o], rfl, fun _ ho' => List.mem_singleton.mp ho' ▸ ho⟩ }

theorem still_of_log {w w' : World} (h : Idle w w') (hlog : w'.log = w.log) : Still w w' :=
  { h with kept := ⟨[], by rw [hlog, List.append_nil], fun _ ho => absurd ho List.not_mem_nil⟩ }

theorem primitive_still : Primitive Still where
  refl := fun w => still_of_log (Quiet.refl w).idle rfl
  trans := by
    intro u v w h₁ h₂
    obtain ⟨e₁, hlog₁, hall₁⟩ := h₁.kept
    obtain ⟨e₂, hlog₂, hall₂⟩ := h₂.kept
    refine { h₁.toElapsed.trans h₂.toElapsed with
      potential := h₂.potential.trans h₁.potential
      neighbors := h₂.neighbors.trans h₁.neighbors
      dataf := h₂.dataf.trans h₁.dataf
      msgs := h₂.msgs.trans h₁.msgs
      kept := ⟨e₁ ++ e₂, by rw [hlog₂, hlog₁, List.append_assoc], fun o ho => ?_⟩ }
    exact (List.mem_append.mp ho).elim (hall₁ o) (hall₂ o)
  onMalloc := fun w => by
    refine still_of_log (quiet_malloc w).idle ?_
    cases h : w.mallocs.head with
    | true => rw [(malloc_of_true h).2]
    | false => rw [(malloc_of_false h).2]
  onGetSeconds := fun w => still_of_log (quiet_getSeconds w).idle rfl
  onRand := fun w => still_of_log (quiet_rand w).idle rfl
  onUninit := fun w => still_of_log (quiet_uninit w).idle rfl
  onFault := still_note trivial

theorem Plays.get : Keeps (Plays P) (MonadState.get : Peer World) := Still.plays primitive_still.get

theorem plays_uninit : Keeps (Plays P) uninit := Still.plays primitive_still.onUninit

theorem plays_getSeconds : Keeps (Plays P) getSeconds := Still.plays primitive_still.onGetSeconds

theorem plays_note {o : Obs} (ho : o.Kept) : Keeps (Plays P) (note o) := Still.plays (still_note ho)

/-- `P` allows the TLVs on the way of the parser. -/
def Allows (P : UInt8 → Mem → UInt8 → Sockaddr → Prop) (client : Sockaddr) (l : List Step) : Prop :=
  ∀ type length pos value, Step.tlv type length pos value ∈ l → ∀ mem,
    P type (write mem 0 value) length client

theorem plays_perform {client : Sockaddr} {l : List Step} (hl : Allows P client l) (tlv : Mem) :
    Keeps (Plays P) (perform (sockaddr6ToNeighbor client) l tlv) := by
  induction l generalizing tlv with
  | nil => exact Plays.pure _
  | cons s rest ih =>
    have ih := ih fun type length pos value hs =>
      hl type length pos value (List.mem_cons_of_mem _ hs)
    cases s with
    | look pos n => exact Plays.bind (plays_note trivial) fun _ => ih _
    | tlv type length pos value =>
      refine Plays.bind (plays_note trivial) fun _ => Plays.bind (plays_note trivial) fun _ => ?_
      refine Plays.bind (fun w => ?_) fun _ => ih _
      have hallowed := hl type length pos value List.mem_cons_self tlv
      have hmove : Lawful P (.tlv type (write tlv 0 value) length client) w
          (after (handleTlv type (write tlv 0 value) length (sockaddr6ToNeighbor client)) w) := by
        refine ⟨rfl, fun _ _ _ _ heq => ?_, fun heq => nomatch heq⟩
        obtain ⟨rfl, rfl, rfl, rfl⟩ := Move.tlv.inj heq
        exact hallowed
      exact ⟨_, .single hmove⟩
    | stuck => exact Plays.bind (plays_note trivial) fun _ => ih _

theorem plays_handleMessageH {msg : MessageH} {client : Sockaddr} (h : Allows P client msg.way)
    (n : Nat) : Keeps (Plays P) (handleMessageH msg n (sockaddr6ToNeighbor client)) := by
  rw [handleMessageH_eq]
  exact Keeps.ite (fun _ => Plays.bind plays_uninit fun _ => plays_perform h _)
    fun _ => Plays.pure _

/-- `P` allows the TLVs that are in the buffer after `recvfrom`. -/
def AllowsRecv (P : UInt8 → Mem → UInt8 → Sockaddr → Prop) (m : MainState) (r : Recv) : Prop :=
  Allows P (recvfrom m r).1.client (MessageH.ofMem (recvfrom m r).1.msg).way

theorem plays_receive {m : MainState} {r : Recv} (h : AllowsRecv P m r) :
    Keeps (Plays P) (receive m r) :=
  Plays.bind (plays_handleMessageH h _) fun _ => Plays.pure _

theorem plays_localMessage (got : Option (List UInt8)) : Keeps (Plays P) (localMessage got) :=
  fun _ => .of_move (.say got) rfl nofun nofun

theorem plays_goawayLoop (mem : Mem) (l : List NgbEntry) (count : Int) :
    Keeps (Plays P) (goawayLoop (goawayMessage mem) 7 l count) := by
  induction l generalizing count with
  | nil => exact Plays.pure _
  | cons ent rest ih =>
    exact Plays.bind (fun w => .of_move (.expire mem ent.sym) rfl nofun nofun) fun _ => ih _

theorem plays_sendGoawayAsymetrical : Keeps (Plays P) sendGoawayAsymetrical := by
  refine Plays.bind (Plays.get) fun _ => Keeps.ite (fun _ => Plays.pure _) fun _ => ?_
  refine Plays.bind (Plays.get) fun _ => ?_
  have hfind := primitive_still.keeps_findBy primitive_still.keeps_isOld
  refine Plays.bind (Still.plays (hfind _)) fun sym => ?_
  refine Plays.bind (plays_uninit) fun mem => ?_
  cases sym with
  | none => exact Plays.bind (plays_note trivial) fun _ => Plays.pure _
  | some sym => exact plays_goawayLoop mem sym.contents 0

theorem plays_potentialLoop (l : List NgbEntry) : Keeps (Plays P) (potentialLoop l) := by
  induction l with
  | nil => exact Plays.pure _
  | cons ent rest ih =>
    exact Plays.bind (fun w => .of_move (.forget ent.sym.toNeighbor) rfl nofun nofun) fun _ => ih

theorem plays_removeOldPotential : Keeps (Plays P) removeOldPotential := by
  refine Plays.bind (Plays.get) fun _ => Keeps.ite (fun _ => Plays.pure _) fun _ => ?_
  refine Plays.bind (Plays.get) fun _ => ?_
  have hfind := primitive_still.keeps_findBy primitive_still.keeps_isOld
  refine Plays.bind (Still.plays (hfind _)) fun sym => ?_
  cases sym with
  | none => exact plays_note trivial
  | some sym => exact plays_potentialLoop _

theorem plays_floodLoop (flood : Nat) (currentTime : Int) (fuel : Nat) (tmp : Option Nat) :
    Keeps (Plays P) (floodLoop flood currentTime fuel tmp) := by
  induction fuel generalizing tmp with
  | zero =>
    cases tmp with
    | none => exact Plays.pure _
    | some tmp => exact plays_note trivial
  | succ fuel ih =>
    cases tmp with
    | none => exact Plays.pure _
    | some tmp =>
      refine Plays.bind (fun w => ?_) fun turn => ?_
      · exact .of_move (.turn flood currentTime tmp) rfl nofun nofun
      cases turn with
      | stop => exact Plays.pure _
      | goto tmp => exact ih tmp

theorem plays_floodCells (l : List Nat) : Keeps (Plays P) (floodCells l) := by
  induction l with
  | nil => exact Plays.pure _
  | cons cell rest ih =>
    refine Plays.bind ?_ fun _ => ih
    refine Plays.bind (plays_getSeconds) fun currentTime => ?_
    refine Plays.bind (Plays.get) fun w => ?_
    cases w.floodAt cell with
    | none => exact plays_note trivial
    | some f => exact plays_floodLoop _ _ _ _

theorem plays_floodMessages : Keeps (Plays P) floodMessages :=
  Plays.bind (Plays.get) fun _ => plays_floodCells _

theorem plays_helloTimer (nexthello : Int) : Keeps (Plays P) (helloTimer nexthello) := by
  refine Plays.bind (plays_getSeconds) fun _ => Keeps.ite (fun _ => ?_) fun _ =>
    Plays.pure _
  refine Plays.get_bind (fun w => .of_move .hellos rfl nofun nofun) fun _ => ?_
  refine Plays.get_bind (fun w => .of_move .advertise rfl nofun nofun) fun _ => ?_
  refine Plays.bind (plays_getSeconds) fun _ => ?_
  refine Plays.bind plays_sendGoawayAsymetrical fun _ => ?_
  refine Plays.bind plays_removeOldPotential fun _ => ?_
  refine Plays.bind (Plays.get) fun _ => Keeps.ite (fun _ => ?_) fun _ => Plays.pure _
  exact Plays.get_bind (fun w => .of_move .shortHellos rfl nofun nofun) fun _ => Plays.pure _

/-- An assignment to the variables that only the main loop uses. -/
theorem still_setTime (f : World → Int) :
    Keeps Still (modify fun w => { w with nexttime := f w } : Peer PUnit) := fun w => by
  apply still_of_log
  · exact { Elapsed.refl w with potential := rfl, neighbors := rfl, dataf := rfl, msgs := rfl }
  · rfl

theorem plays_setTime (f : World → Int) :
    Keeps (Plays P) (modify fun w => { w with nexttime := f w } : Peer PUnit) :=
  Still.plays (still_setTime f)

/-- `P` allows what `main` is given to read. -/
def AllowsWake (P : UInt8 → Mem → UInt8 → Sockaddr → Prop) (m : MainState) (wake : Wake) : Prop :=
  ∀ r, wake.soc = some r → AllowsRecv P m r

theorem plays_readDescriptors {wake : Wake} {m : MainState} (h : AllowsWake P m wake) :
    Keeps (Plays P) (readDescriptors wake m) := by
  refine Keeps.ite (fun _ => ?_) fun _ => Plays.pure _
  rcases hsoc : wake.soc with _ | r
  on_goal 1 => refine Plays.bind (Plays.pure m) fun m => ?_
  on_goal 2 => refine Plays.bind (plays_receive (h r hsoc)) fun m => ?_
  -- what comes from the interface is handled alike
  all_goals
    cases wake.gui with
    | none => exact Plays.pure m
    | some got => exact Plays.bind (plays_localMessage got) fun _ => Plays.pure _

/-- The first half of a turn of the main loop. -/
def opening (wake : Wake) (m : MainState) : Peer MainState := do
  modify fun w => { w with nexttime := min w.nexttime m.nexthello }
  let now ← getSeconds
  note (.select (max 0 ((← get).nexttime - now)))
  modify fun w => { w with nexttime := m.nexthello }
  readDescriptors wake m

/-- The second half. -/
def closing (m : MainState) : Peer MainState := do
  let nexthello ← helloTimer m.nexthello
  floodMessages
  let _ ← sendToEveryoneNow (← get).neighbors
  return { m with nexthello := nexthello }

theorem after_iteration (wake : Wake) (m : MainState) (w : World) :
    after (iteration wake m) w =
      after (closing (value (opening wake m) w)) (after (opening wake m) w) := rfl

theorem plays_opening {wake : Wake} {m : MainState} (h : AllowsWake P m wake) :
    Keeps (Plays P) (opening wake m) := by
  refine Plays.bind (plays_setTime _) fun _ => Plays.bind (plays_getSeconds) fun _ => ?_
  refine Plays.bind (Plays.get) fun _ => Plays.bind (plays_note trivial) fun _ => ?_
  exact Plays.bind (plays_setTime _) fun _ => plays_readDescriptors h

theorem plays_closing (m : MainState) : Keeps (Plays P) (closing m) := by
  refine Plays.bind (plays_helloTimer _) fun _ => Plays.bind plays_floodMessages fun _ => ?_
  exact Plays.get_bind (fun _ => .of_move .flush rfl nofun nofun) fun _ => Plays.pure _

/-- A turn of the main loop consists of moves. -/
theorem plays_iteration {wake : Wake} {m : MainState} (h : AllowsWake P m wake) :
    Keeps (Plays P) (iteration wake m) := by
  intro w
  rw [after_iteration]
  exact (plays_opening h w).trans (plays_closing _ _)

/-- Everything is allowed. -/
def anyTlv (_ : UInt8) (_ : Mem) (_ : UInt8) (_ : Sockaddr) : Prop := True

/-- The history of a list of moves is one of the program. -/
theorem run_lawful (l : List Move) (w : World) (hidle : .idle ∉ l) :
    Run (Lawful anyTlv) w (actHistory l w) (actAll l w) := by
  induction l generalizing w with
  | nil => exact .nil
  | cons m rest ih =>
    obtain ⟨hm, hrest⟩ := not_or.mp (mt List.mem_cons.mpr hidle)
    have hmove : Lawful anyTlv m w (m.act w) :=
      ⟨m.does_act w, fun _ _ _ _ _ => trivial, fun heq => absurd heq.symm hm⟩
    exact (Run.single hmove).trans (ih _ hrest)

theorem allowsWake_any (m : MainState) (wake : Wake) : AllowsWake anyTlv m wake :=
  fun _ _ _ _ _ _ _ _ => trivial

/-- A turn of the main loop is a run. -/
theorem run_iteration (wake : Wake) (m : MainState) (w : World) :
    ∃ tr, Run Move.Does w tr (after (iteration wake m) w) :=
  (plays_iteration (allowsWake_any m wake) w).run

end FloodPeer
