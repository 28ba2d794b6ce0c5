/-
FloodPeer/History.lean

The history of the main loop.

The main loop is a sequence of `Phase`s: whole passes of
`flood_message_to_neighbours`, and moves that are no turn of its loop.  A pass
is a reading of the clock and then turns.  `mainHistory` lists all the moves that
the main loop makes for what it gets from outside, and is a run
(`run_mainHistory`).
-/
import FloodPeer.Moves
import FloodPeer.Lib.Chronicle

namespace FloodPeer

open Octets StateLogic Runs

/-! ### A pass -/

/-- What the program does on its own in between. -/
def idling {α : Type} {p : Peer α} (h : Keeps Still p) : Chronicle Move.Does p :=
  .move .idle fun w => (h w).toIdle

/-- The loop of `flood_message_to_neighbours`, turn by turn. -/
def loopChronicle (flood : Nat) (currentTime : Int) : (fuel : Nat) → (tmp : Option Nat) →
    Chronicle Move.Does (floodLoop flood currentTime fuel tmp)
  | 0, none => .pure ()
  | _ + 1, none => .pure ()
  | 0, some _ => idling (still_note trivial)
  | fuel + 1, some tmp =>
    .bind (.move (.turn flood currentTime tmp) fun _ => rfl) fun turn =>
      match turn with
      | .stop => .pure ()
      | .goto next => loopChronicle flood currentTime fuel next

/-- A pass. -/
def passChronicle (flood : Nat) : Chronicle Move.Does (floodMessageToNeighbours flood) :=
  .bind (idling primitive_still.onGetSeconds) fun currentTime => .bind .get fun w =>
    match w.floodAt flood with
    | none => idling (still_note trivial)
    | some f => loopChronicle flood currentTime (2 * f.symNeighbors.entries.length + 1)
      f.symNeighbors.first

/-! ### Phases -/

/-- It is a turn of the flooding loop. -/
def Move.isTurn : Move → Bool
  | .turn .. => true
  | _ => false

/-- A move between the passes of the flooding loop, or a whole pass. -/
inductive Phase where
  | move (m : Move)
  | pass (flood : Nat)

/-- What a phase does. -/
def Phase.Does : Phase → World → World → Prop
  | .move m, w, w' => m.Does w w' ∧ m.isTurn = false
  | .pass flood, w, w' => w' = after (floodMessageToNeighbours flood) w

/-- The moves of a phase. -/
def Phase.moves (x : World × Phase) : List (World × Move) :=
  match x.2 with
  | .move m => [(x.1, m)]
  | .pass flood => (passChronicle flood).history x.1

theorem Phase.Does.run {x : Phase} {w w' : World} (h : x.Does w w') :
    Run Move.Does w (Phase.moves (w, x)) w' := by
  cases x with
  | move m => exact .single h.1
  | pass flood =>
    rw [show w' = _ from h]
    exact (passChronicle flood).isRun w

/-! ### The pieces of the main loop -/

section Pieces

variable {α : Type} {p : Peer α}

/-- A piece that is one move. -/
def piece (m : Move) (h : ∀ w, m.Does w (after p w)) (hturn : m.isTurn = false) :
    Chronicle Phase.Does p :=
  .move (.move m) fun w => ⟨h w, hturn⟩

def still (h : Keeps Still p) : Chronicle Phase.Does p :=
  piece .idle (fun w => (h w).toIdle) rfl

/-- A piece that starts from a component of the current state. -/
def pieceGet {β : Type} {p : World → Peer α} {q : α → Peer β} (m : Move)
    (h : ∀ w, m.Does w (after (p w) w)) (hturn : m.isTurn = false)
    (d : ∀ a, Chronicle Phase.Does (q a)) :
    Chronicle Phase.Does (MonadState.get >>= fun w => p w >>= q) :=
  .of_eq (q := (MonadState.get >>= p) >>= q) rfl <|
    .bind (.move (.move m) fun w => ⟨h w, hturn⟩) d

end Pieces

/-- The steps of the parser. -/
def performChronicle (client : Sockaddr) : (l : List Step) → (tlv : Mem) →
    Chronicle Phase.Does (perform (sockaddr6ToNeighbor client) l tlv)
  | [], _ => .pure ()
  | .look _ _ :: rest, tlv => .bind (still (still_note trivial)) fun _ =>
    performChronicle client rest tlv
  | .tlv type length _ value :: rest, tlv => .bind (still (still_note trivial)) fun _ =>
    .bind (still (still_note trivial)) fun _ =>
      .bind (piece (.tlv type (write tlv 0 value) length client) (fun _ => rfl) rfl) fun _ =>
        performChronicle client rest (write tlv 0 value)
  | .stuck :: rest, tlv => .bind (still (still_note trivial)) fun _ =>
    performChronicle client rest tlv

def receiveChronicle (m : MainState) (r : Recv) : Chronicle Phase.Does (receive m r) :=
  .bind (.of_eq (handleMessageH_eq _ _ _) (.ite (.bind (still primitive_still.onUninit) fun mem =>
    performChronicle (recvfrom m r).1.client _ mem) (.pure ()))) fun _ => .pure _

def sayChronicle (got : Option (List UInt8)) (m : MainState) :
    Chronicle Phase.Does (do localMessage got; return m) :=
  .bind (piece (.say got) (fun _ => rfl) rfl) fun _ => .pure m

def descriptorsChronicle : (wake : Wake) → (m : MainState) →
    Chronicle Phase.Does (readDescriptors wake m)
  | ⟨_, none, none⟩, m => .ite (.bind (.pure m) fun m => .pure m) (.pure m)
  | ⟨_, none, some got⟩, m => .ite (.bind (.pure m) fun m => sayChronicle got m) (.pure m)
  | ⟨_, some r, none⟩, m => .ite (.bind (receiveChronicle m r) fun m => .pure m) (.pure m)
  | ⟨_, some r, some got⟩, m =>
    .ite (.bind (receiveChronicle m r) fun m => sayChronicle got m) (.pure m)

def goawayChronicle (mem : Mem) : (l : List NgbEntry) → (count : Int) →
    Chronicle Phase.Does (goawayLoop (goawayMessage mem) 7 l count)
  | [], count => .pure count
  | ent :: rest, count => .bind (piece (.expire mem ent.sym) (fun _ => rfl) rfl) fun n =>
    goawayChronicle mem rest (count + n)

def sweepChronicle : Chronicle Phase.Does sendGoawayAsymetrical :=
  .bind .get fun _ => .ite (.pure 0) <| .bind .get fun _ =>
    .bind (still (primitive_still.keeps_findBy primitive_still.keeps_isOld _)) fun sym =>
      .bind (still primitive_still.onUninit) fun mem =>
        match sym with
        | none => .bind (still (still_note trivial)) fun _ => .pure _
        | some sym => goawayChronicle mem sym.contents 0

def potentialChronicle : (l : List NgbEntry) → Chronicle Phase.Does (potentialLoop l)
  | [] => .pure ()
  | ent :: rest => .bind (piece (.forget ent.sym.toNeighbor) (fun _ => rfl) rfl) fun _ =>
    potentialChronicle rest

def forgetChronicle : Chronicle Phase.Does removeOldPotential :=
  .bind .get fun _ => .ite (.pure ()) <| .bind .get fun _ =>
    .bind (still (primitive_still.keeps_findBy primitive_still.keeps_isOld _)) fun sym =>
      match sym with
      | none => still (still_note trivial)
      | some sym => potentialChronicle sym.contents

def timerChronicle (nexthello : Int) : Chronicle Phase.Does (helloTimer nexthello) :=
  .bind (still primitive_still.onGetSeconds) fun _ => .ite
    (pieceGet .hellos (fun _ => rfl) rfl fun _ => pieceGet .advertise (fun _ => rfl) rfl fun _ =>
      .bind (still primitive_still.onGetSeconds) fun _ => .bind sweepChronicle fun _ =>
        .bind forgetChronicle fun _ => .bind .get fun _ =>
          .ite (pieceGet .shortHellos (fun _ => rfl) rfl fun _ => .pure _) (.pure _))
    (.pure nexthello)

def cellsChronicle : (l : List Nat) → Chronicle Phase.Does (floodCells l)
  | [] => .pure ()
  | cell :: rest => .bind (.move (.pass cell) fun _ => rfl) fun _ => cellsChronicle rest

def floodsChronicle : Chronicle Phase.Does floodMessages :=
  .bind .get fun w => cellsChronicle (w.dataf.entries.map (·.addr))

/-- A turn of the main loop. -/
def turnChronicle (wake : Wake) (m : MainState) : Chronicle Phase.Does (iteration wake m) :=
  .bind (still (still_setTime _)) fun _ => .bind (still primitive_still.onGetSeconds) fun _ =>
    .bind .get fun _ => .bind (still (still_note trivial)) fun _ =>
      .bind (still (still_setTime _)) fun _ => .bind (descriptorsChronicle wake m) fun m =>
        .bind (timerChronicle m.nexthello) fun _ => .bind floodsChronicle fun _ =>
          pieceGet .flush (fun _ => rfl) rfl fun _ => .pure _

def mainChronicle : (wakes : List Wake) → (m : MainState) → Chronicle Phase.Does (mainLoop wakes m)
  | [], m => .pure m
  | wake :: rest, m => .bind (turnChronicle wake m) fun m => mainChronicle rest m

/-! ### The history -/

/-- The phases of the main loop. -/
def mainPhases (wakes : List Wake) (m : MainState) (w : World) : List (World × Phase) :=
  (mainChronicle wakes m).history w

/-- Its moves. -/
def mainHistory (wakes : List Wake) (m : MainState) (w : World) : List (World × Move) :=
  (mainPhases wakes m w).flatMap Phase.moves

/-- **The main loop is a run** of phases, for whatever it gets from outside. -/
theorem run_mainPhases (wakes : List Wake) (m : MainState) (w : World) :
    Run Phase.Does w (mainPhases wakes m w) (after (mainLoop wakes m) w) :=
  (mainChronicle wakes m).isRun w

/-- The moves of a run of phases. -/
theorem run_moves {w w' : World} {tr : List (World × Phase)} (h : Run Phase.Does w tr w') :
    Run Move.Does w (tr.flatMap Phase.moves) w' :=
  h.expand fun _ _ _ hphase => hphase.run

theorem run_mainHistory (wakes : List Wake) (m : MainState) (w : World) :
    Run Move.Does w (mainHistory wakes m w) (after (mainLoop wakes m) w) :=
  run_moves (run_mainPhases wakes m w)

end FloodPeer
