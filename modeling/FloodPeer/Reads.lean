/-
FloodPeer/Reads.lean

The main loop after a read that has failed or has come back empty.

`recvfrom` and the `read` on the pipe of the user interface report failure by
`-1`, which the source converts to an unsigned size without a test.  After a
failed `recvfrom` the receive buffer is parsed again as it is: nothing comes of
it exactly when the datagram left over there has nothing to dispatch
(`LeftAlone`).  After a failed or empty `read` an index is always out of bounds.
-/
import FloodPeer.Moves

namespace FloodPeer

open Octets StateLogic Runs

/-! ### Doing nothing -/

/-- Observations that go with doing nothing: looks into the body of the message,
inside its array. -/
def Obs.Harmless : Obs → Prop
  | .bodyRead pos n => pos + n ≤ maxSize
  | .select _ => True
  | _ => False

/-- Nothing is dispatched, flooded or displayed on the way from `w` to `w'`, no
record and no flood entry is touched, and no index is out of bounds. -/
structure DoesNothing (w w' : World) : Prop where
  neighbors : w'.neighbors = w.neighbors
  potential : w'.potential = w.potential
  dataf : w'.dataf = w.dataf
  harmless : ∀ o ∈ w.since w', o.Harmless

/-! ### The old datagram -/

/-- From `pos` on, the parser meets nothing but padding and TLVs of unknown
types, up to the end of the body or to a TLV that does not fit, and never looks
behind the array. -/
inductive Skips (body : Mem) (bodyLength : Nat) : Nat → Prop
  | done {pos : Nat} (hpos : bodyLength ≤ pos) : Skips body bodyLength pos
  | pad1 {pos : Nat} (hpos : pos < bodyLength) (hin : pos < maxSize) (htype : body pos = 0)
      (hrest : Skips body bodyLength (pos + 1)) : Skips body bodyLength pos
  | cut {pos : Nat} (hpos : pos < bodyLength) (hin : pos + 1 < maxSize) (htype : body pos ≠ 0)
      (hlong : bodyLength < pos + (body (pos + 1)).toNat) : Skips body bodyLength pos
  | unknown {pos : Nat} (hpos : pos < bodyLength) (hin : pos + 1 < maxSize)
      (htype : nbTlv ≤ (body pos).toNat) (hfits : pos + (body (pos + 1)).toNat ≤ bodyLength)
      (hrest : Skips body bodyLength (pos + ((body (pos + 1)).toNat + 2))) :
      Skips body bodyLength pos

/-- A step of the parser that goes with doing nothing. -/
def Step.Harmless : Step → Prop
  | .look pos n => pos + n ≤ maxSize
  | _ => False

theorem forall_harmless_cons {s : Step} {l : List Step} :
    (∀ x ∈ s :: l, x.Harmless) ↔ s.Harmless ∧ ∀ x ∈ l, x.Harmless := List.forall_mem_cons

theorem skips_iff_steps {body : Mem} {bodyLength fuel pos : Nat} (hfuel : bodyLength ≤ fuel + pos) :
    Skips body bodyLength pos ↔ ∀ s ∈ steps body bodyLength fuel pos, s.Harmless := by
  induction fuel generalizing pos with
  | zero =>
    have hpos : bodyLength ≤ pos := by omega
    rw [steps, if_neg (Nat.not_lt.mpr hpos)]
    exact ⟨fun _ _ hs => absurd hs List.not_mem_nil, fun _ => .done hpos⟩
  | succ fuel ih =>
    by_cases hpos : pos < bodyLength
    · rw [steps, if_pos hpos]
      by_cases hzero : body pos = 0
      · rw [if_pos hzero, forall_harmless_cons, ← ih (by omega)]
        constructor
        · intro h
          cases h with
          | done hdone => exact absurd hpos (Nat.not_lt.mpr hdone)
          | pad1 _ hin _ hrest => exact ⟨hin, hrest⟩
          | cut _ _ htype => exact absurd hzero htype
          | unknown _ _ htype =>
            rw [hzero] at htype
            exact absurd htype (by decide)
        · rintro ⟨hin, hrest⟩
          exact .pad1 hpos hin hzero hrest
      rw [if_neg hzero, forall_harmless_cons, forall_harmless_cons]
      -- the two bytes of the header are looked at in any case
      by_cases hlong : ((body (pos + 1)).toNat : Int) > (bodyLength : Int) - pos
      · rw [if_pos hlong]
        constructor
        · intro h
          cases h with
          | done hdone => exact absurd hpos (Nat.not_lt.mpr hdone)
          | pad1 _ _ htype => exact absurd htype hzero
          | cut _ hin =>
            exact ⟨Nat.le_of_lt hin, hin, fun _ hs => absurd hs List.not_mem_nil⟩
          | unknown _ _ _ hfits => omega
        · rintro ⟨-, hin, -⟩
          exact .cut hpos hin hzero (by omega)
      rw [if_neg hlong]
      by_cases hknown : (body pos).toNat < nbTlv
      · -- a handler is called
        rw [if_pos hknown, forall_harmless_cons]
        constructor
        · intro h
          cases h with
          | done hdone => exact absurd hpos (Nat.not_lt.mpr hdone)
          | pad1 _ _ htype => exact absurd htype hzero
          | cut _ _ _ hcut => omega
          | unknown _ _ htype => omega
        · rintro ⟨-, -, hfalse, -⟩
          exact absurd hfalse id
      · -- an unknown type: the walk goes on behind the value
        rw [if_neg hknown, ← ih (by omega)]
        constructor
        · intro h
          cases h with
          | done hdone => exact absurd hpos (Nat.not_lt.mpr hdone)
          | pad1 _ _ htype => exact absurd htype hzero
          | cut _ _ _ hcut => omega
          | unknown _ hin _ _ hrest => exact ⟨Nat.le_of_lt hin, hin, hrest⟩
        · rintro ⟨-, hin, hrest⟩
          exact .unknown hpos hin (Nat.not_lt.mp hknown) (by omega) hrest
    · rw [steps, if_neg hpos]
      exact ⟨fun _ _ hs => absurd hs List.not_mem_nil, fun _ => .done (Nat.not_lt.mp hpos)⟩

/-- Harmless steps only note down what they look at. -/
theorem after_perform_of_harmless (rcpt : Neighbor) {l : List Step} (h : ∀ s ∈ l, s.Harmless)
    (tlv : Mem) (w : World) :
    after (perform rcpt l tlv) w = { w with log := w.log ++ l.flatMap Step.obs } := by
  induction l generalizing w with
  | nil => simp [perform]
  | cons s rest ih =>
    obtain ⟨hs, hrest⟩ := forall_harmless_cons.mp h
    cases s with
    | look pos n =>
      unfold perform
      rw [after_bind, ih hrest, after_note]
      simp [Step.obs]
    | tlv => exact absurd hs id
    | stuck => exact absurd hs id

/-- Handling a message does nothing when its steps are harmless, and only then. -/
theorem doesNothing_handleMessageH_iff {msg : MessageH} {n : Nat} (hacc : msg.Accepted n)
    (rcpt : Neighbor) (w : World) :
    DoesNothing w (after (handleMessageH msg n rcpt) w) ↔ ∀ s ∈ msg.way, s.Harmless := by
  have hparsed := parsed_handleMessageH msg n rcpt w
  rw [if_pos hacc] at hparsed
  constructor
  · intro h s hs
    -- what the step notes down is in the log
    have hobs : ∀ o ∈ s.obs, o.Harmless := by
      intro o ho
      apply h.harmless o
      apply List.mem_of_mem_filter (p := Obs.ofParser)
      rw [hparsed]
      exact List.mem_flatMap.mpr ⟨s, hs, ho⟩
    cases s with
    | look pos n => exact hobs (.bodyRead pos n) (by simp [Step.obs])
    | tlv type length pos value =>
      exact absurd (hobs (.dispatch type pos value) (by simp [Step.obs])) id
    | stuck => exact absurd (hobs .stuck (by simp [Step.obs])) id
  · intro h
    have hafter : after (handleMessageH msg n rcpt) w =
        { after uninit w with log := w.log ++ msg.way.flatMap Step.obs } := by
      rw [handleMessageH_eq, if_pos hacc, after_bind, after_perform_of_harmless rcpt h]
      rfl
    rw [hafter]
    refine ⟨rfl, rfl, rfl, fun o ho => ?_⟩
    rw [since_eq rfl] at ho
    obtain ⟨s, hs, ho⟩ := List.mem_flatMap.mp ho
    have hharmless := h s hs
    cases s with
    | look pos n =>
      obtain rfl := List.mem_singleton.mp ho
      exact hharmless
    | tlv => exact absurd hharmless id
    | stuck => exact absurd hharmless id

/-- The datagram in the receive buffer has a wrong header, or nothing to
dispatch. -/
def LeftAlone (msg : MessageH) : Prop :=
  msg.magic = 93 → msg.version = 2 → Skips msg.body msg.declared 0

theorem toSize_minus_one : toSize (-1) = 18446744073709551615 := by decide

/-- After a failed `recvfrom`, the size says that everything fits. -/
theorem accepted_minus_one_iff (msg : MessageH) :
    msg.Accepted (toSize (-1)) ↔ msg.magic = 93 ∧ msg.version = 2 := by
  have hlt : msg.declared < 65536 := UInt16.toNat_lt _
  unfold MessageH.Accepted
  rw [toSize_minus_one]
  constructor
  · rintro ⟨-, hmagic, hversion, -⟩
    exact ⟨hmagic, hversion⟩
  · rintro ⟨hmagic, hversion⟩
    exact ⟨by omega, hmagic, hversion, by omega⟩

theorem doesNothing_refl (w : World) : DoesNothing w w := by
  refine ⟨rfl, rfl, rfl, fun o ho => ?_⟩
  rw [since_eq (List.append_nil _).symm] at ho
  exact absurd ho List.not_mem_nil

theorem doesNothing_receive_iff (m : MainState) (w : World) :
    DoesNothing w (after (receive m .error) w) ↔ LeftAlone (.ofMem m.msg) := by
  show DoesNothing w (after (handleMessageH (.ofMem m.msg) (toSize (-1))
    (sockaddr6ToNeighbor m.client)) w) ↔ _
  unfold LeftAlone
  generalize MessageH.ofMem m.msg = msg
  by_cases hacc : msg.Accepted (toSize (-1))
  · obtain ⟨hmagic, hversion⟩ := (accepted_minus_one_iff msg).mp hacc
    rw [doesNothing_handleMessageH_iff hacc]
    show (∀ s ∈ steps msg.body msg.declared msg.declared 0, s.Harmless) ↔ _
    rw [← @skips_iff_steps msg.body msg.declared msg.declared 0 (Nat.le_add_right _ _)]
    exact ⟨fun h _ _ => h, fun h => h hmagic hversion⟩
  · rw [handleMessageH_eq, if_neg hacc]
    refine ⟨fun _ hmagic hversion => ?_, fun _ => doesNothing_refl w⟩
    exact absurd ((accepted_minus_one_iff msg).mpr ⟨hmagic, hversion⟩) hacc

/-! ### The user interface -/

/-- A `fault` on the way is not nothing. -/
theorem not_doesNothing_of_fault {w w' : World} (h : .fault ∈ w.since w') : ¬ DoesNothing w w' :=
  fun hnothing => absurd (hnothing.harmless _ h) id

theorem fault_mem_since {w u w' : World} (hwu : w.log <+: u.log)
    (huw : u.log ++ [.fault] <+: w'.log) : .fault ∈ w.since w' := by
  obtain ⟨e₁, h₁⟩ := hwu
  obtain ⟨e₂, h₂⟩ := huw
  rw [since_eq (show w'.log = w.log ++ (e₁ ++ [.fault] ++ e₂) by rw [← h₂, ← h₁]; simp)]
  simp

theorem after_composeText (got : Option (List UInt8)) (w : World) :
    after (composeText got) w =
      after (encodeText got (value (trimText got) w)) (after (trimText got) w) := by
  unfold composeText
  rw [after_bind, after_bind, after_pure]

/-- The log only grows behind the text. -/
theorem prefix_localMessage (got : Option (List UInt8)) (w : World) :
    (after (composeText got) w).log <+: (after (localMessage got) w).log := by
  have hrest : ∀ r : Mem × UInt8, Keeps Handled
      (addMessageToFlood (fun i => r.1 (2 + i)) (r.1 1) none >>= fun _ =>
        printOnScreen (ofBytes ((got.getD []).take 242)) 0 r.2.toNat) := fun r =>
    Handled.bind (handled_addMessageToFlood _ _ _) fun _ => handled_printOnScreen _ _ _
  rw [localMessage_eq, after_bind]
  exact (hrest _ _).elapsed.log

/-- The size of an empty text is `0`: the byte in front of the buffer is read. -/
theorem fault_guiClosed (w : World) : .fault ∈ w.since (after (localMessage (some [])) w) := by
  have htrim : (after (trim 0 (ofBytes []) 0) w).log = w.log ++ [.fault] := by simp [trim]
  have hmore : (after (trim 0 (ofBytes []) 0) w).log <+: (after (composeText (some [])) w).log := by
    have htext : after (trimText (some [])) w = after (trim 10 (ofBytes [])
        (value (trim 0 (ofBytes []) 0) w)) (after (trim 0 (ofBytes []) 0) w) := by
      unfold trimText
      rw [after_bind]
      rfl
    have hsecond := primitive_quiet.keeps_trim 10 (ofBytes [])
      (value (trim 0 (ofBytes []) 0) w) (after (trim 0 (ofBytes []) 0) w)
    have hencode := primitive_quiet.keeps_encodeText (some []) (value (trimText (some [])) w)
      (after (trimText (some [])) w)
    rw [← htext] at hsecond
    rw [after_composeText]
    exact (hsecond.trans hencode).toLater.elapsed.log
  apply @fault_mem_since w w _ (List.prefix_refl _)
  rw [← htrim]
  exact hmore.trans (prefix_localMessage _ w)

/-- The size of the text after a failed `read` is `254`, and the TLV does not
fit into its buffer. -/
theorem fault_guiError (w : World) : .fault ∈ w.since (after (localMessage none) w) := by
  have hsize : value (trimText none) w = 254 := by
    simp [trimText, trim, ofBytes]
  have hencode : ∀ (tmp : UInt8) (v : World), tmp.toNat + 15 > 260 →
      v.log ++ [.fault] <+: (after (encodeText none tmp) v).log := by
    intro tmp v hbig
    unfold encodeText
    rw [if_pos hbig, after_bind, show v.log ++ [.fault] = (after (note .fault) v).log from rfl]
    apply Elapsed.log
    apply Later.elapsed
    apply Quiet.toLater
    apply Quiet.bind quiet_uninit
    intro msgToSend
    apply Quiet.bind Quiet.get
    intro u
    exact Quiet.bind (primitive_quiet.keeps_tlvData _ _ _ _ _ _ _) fun _ => Quiet.pure _
  apply @fault_mem_since w (after (trimText none) w) _
    (primitive_quiet.keeps_trimText none w).toLater.elapsed.log
  apply List.IsPrefix.trans _ (prefix_localMessage none w)
  rw [after_composeText, hsize]
  exact hencode _ _ (by decide)

/-! ### Failed reads -/

/-- The reads of the main loop that bring nothing. -/
inductive FailedRead where
  /-- `recvfrom` returns `-1`. -/
  | recvfrom
  /-- `read` returns `0`. -/
  | guiClosed
  /-- `read` returns `-1`. -/
  | guiError
  deriving DecidableEq, Repr

/-- The branch of the main loop for the read. -/
def FailedRead.step (m : MainState) : FailedRead → Peer Unit
  | .recvfrom => do let _ ← receive m .error
  | .guiClosed => localMessage (some [])
  | .guiError => localMessage none

/-- **A failed read does nothing exactly when it is that of a socket and the
datagram left over in the buffer has nothing to dispatch.** -/
theorem doesNothing_iff (r : FailedRead) (m : MainState) (w : World) :
    DoesNothing w (after (r.step m) w) ↔ r = .recvfrom ∧ LeftAlone (.ofMem m.msg) := by
  cases r with
  | recvfrom =>
    rw [and_iff_right rfl]
    exact doesNothing_receive_iff m w
  | guiClosed =>
    exact iff_of_false (not_doesNothing_of_fault (fault_guiClosed w)) (fun h => nomatch h.1)
  | guiError =>
    exact iff_of_false (not_doesNothing_of_fault (fault_guiError w)) (fun h => nomatch h.1)

/-- A Warning has been received in a turn of the main loop; the next `recvfrom`
fails, and the Warning is handled a second time. -/
theorem not_doesNothing_after_warning :
    ¬ DoesNothing
      (after (iteration ⟨true, some (.datagram [93, 2, 0, 2, 7, 0] ⟨.replicate 16 0, 0⟩), none⟩
        ⟨fun _ => 0, ⟨.replicate 16 0, 0⟩, 0⟩) (World.boot fun _ => 0))
      (after (FailedRead.recvfrom.step (value (iteration
          ⟨true, some (.datagram [93, 2, 0, 2, 7, 0] ⟨.replicate 16 0, 0⟩), none⟩
          ⟨fun _ => 0, ⟨.replicate 16 0, 0⟩, 0⟩) (World.boot fun _ => 0)))
        (after (iteration ⟨true, some (.datagram [93, 2, 0, 2, 7, 0] ⟨.replicate 16 0, 0⟩), none⟩
          ⟨fun _ => 0, ⟨.replicate 16 0, 0⟩, 0⟩) (World.boot fun _ => 0))) := by
  intro h
  have hdispatch := h.harmless (.dispatch 7 0 []) (by decide +kernel)
  exact hdispatch

end FloodPeer
