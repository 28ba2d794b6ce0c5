/-
FloodPeer/Parser.lean

Where the parser of `handle_message_h` goes, and where it goes too far.

The way of the parser through a body depends on the bytes of the body alone:
no handler can change it.  `steps` computes this way without running anything,
`perform` walks along it and calls the handlers, and `handleMessageLoop_eq`
says that the loop of the source is the one after the other.

The walk ends, but it does not always stay inside the body.  `Overruns` says
of a body that the parser leaves it, in one of the two ways the source leaves
open: the type of a TLV is the last byte, or its value ends one or two bytes
behind the end.
-/
import FloodPeer.Frames

namespace FloodPeer

open Octets StateLogic

/-! ### The way through a body -/

/-- One step of the parser: a look at some bytes, or a TLV for a handler. -/
inductive Step where
  | look (pos n : Nat)
  | tlv (type length : UInt8) (pos : Nat) (value : List UInt8)
  | stuck
  deriving DecidableEq, Repr

/-- The steps of the loop of `handle_message_h` from `pos` on. -/
def steps (body : Mem) (bodyLength : Nat) : Nat → Nat → List Step
  | 0, pos => if pos < bodyLength then [.stuck] else []
  | fuel + 1, pos =>
    if pos < bodyLength then
      if body pos = 0 then
        .look pos 1 :: steps body bodyLength fuel (pos + 1)
      else
        .look pos 1 :: .look (pos + 1) 1 ::
          if ((body (pos + 1)).toNat : Int) > (bodyLength : Int) - pos then []
          else if (body pos).toNat < nbTlv then
            .tlv (body pos) (body (pos + 1)) pos
                (Octets.read body (pos + 2) (body (pos + 1)).toNat) ::
              steps body bodyLength fuel (pos + ((body (pos + 1)).toNat + 2))
          else steps body bodyLength fuel (pos + ((body (pos + 1)).toNat + 2))
    else []

/-- Walk along the steps, with the shared buffer `tlv`. -/
def perform (rcpt : Neighbor) : List Step → Mem → Peer Unit
  | [], _ => pure ()
  | .look pos n :: rest, tlv => do
    note (.bodyRead pos n)
    perform rcpt rest tlv
  | .tlv type length pos value :: rest, tlv => do
    note (.bodyRead (pos + 2) length.toNat)
    let tlv := write tlv 0 value
    note (.dispatch type pos value)
    handleTlv type tlv length rcpt
    perform rcpt rest tlv
  | .stuck :: rest, tlv => do
    note .stuck
    perform rcpt rest tlv

/-- The loop of the source walks along its steps. -/
theorem handleMessageLoop_eq (msg : MessageH) (bodyLength : Nat) (rcpt : Neighbor)
    (fuel pos : Nat) (tlv : Mem) :
    handleMessageLoop msg bodyLength rcpt fuel pos tlv =
      perform rcpt (steps msg.body bodyLength fuel pos) tlv := by
  induction fuel generalizing pos tlv with
  | zero =>
    unfold handleMessageLoop steps
    split <;> rfl
  | succ fuel ih =>
    unfold handleMessageLoop steps
    by_cases hpos : pos < bodyLength
    · simp only [if_pos hpos]
      by_cases hpad : msg.body pos = 0
      · simp only [if_pos hpad, perform, ih]
      · simp only [if_neg hpad, perform]
        by_cases hlong : ((msg.body (pos + 1)).toNat : Int) > (bodyLength : Int) - pos
        · simp only [if_pos hlong, perform]
        · simp only [if_neg hlong]
          by_cases hknown : (msg.body pos).toNat < nbTlv
          · simp only [if_pos hknown, perform, ih]
          · simp only [if_neg hknown, ih]
    · simp only [if_neg hpos, perform]

/-! ### What is observed on the way -/

/-- What the parser notes down in a step. -/
def Step.obs : Step → List Obs
  | .look pos n => [.bodyRead pos n]
  | .tlv type length pos value => [.bodyRead (pos + 2) length.toNat, .dispatch type pos value]
  | .stuck => [.stuck]

/-- The observations of the parser in the log. -/
def World.parsed (w : World) : List Obs := w.log.filter Obs.ofParser

theorem parsed_note (o : Obs) (w : World) :
    (after (note o) w).parsed = w.parsed ++ if o.ofParser then [o] else [] := by
  unfold World.parsed
  rw [after_note, List.filter_append]
  cases h : o.ofParser <;> simp [h]

theorem Handled.parsed {w w' : World} (h : Handled w w') : w'.parsed = w.parsed := by
  obtain ⟨ext, hext, hnone⟩ := h.log
  have hfilter : ext.filter Obs.ofParser = [] := by
    rw [List.filter_eq_nil_iff]
    intro o ho
    simp [hnone o ho]
  unfold World.parsed
  rw [hext, List.filter_append, hfilter, List.append_nil]

/-- The walk notes down its steps, and the handlers add nothing of that kind. -/
theorem parsed_perform (rcpt : Neighbor) (l : List Step) (tlv : Mem) (w : World) :
    (after (perform rcpt l tlv) w).parsed = w.parsed ++ l.flatMap Step.obs := by
  induction l generalizing tlv w with
  | nil => simp [perform]
  | cons s rest ih =>
    cases s with
    | look pos n =>
      unfold perform
      rw [after_bind, ih, parsed_note]
      simp [Obs.ofParser, Step.obs]
    | tlv type length pos value =>
      unfold perform
      simp only [after_bind]
      rw [ih, (handled_handleTlv _ _ _ _ _).parsed, parsed_note, parsed_note]
      simp [Obs.ofParser, Step.obs]
    | stuck =>
      unfold perform
      rw [after_bind, ih, parsed_note]
      simp [Obs.ofParser, Step.obs]

theorem elapsed_note (o : Obs) (w : World) : Elapsed w (after (note o) w) :=
  { Elapsed.refl w with log := ⟨[o], rfl⟩ }

theorem elapsed_perform (rcpt : Neighbor) (l : List Step) (tlv : Mem) :
    Keeps Elapsed (perform rcpt l tlv) := by
  induction l generalizing tlv with
  | nil => exact Elapsed.refl
  | cons s rest ih =>
    cases s with
    | look pos n => exact fun w => (elapsed_note _ w).trans (ih _ _)
    | tlv type length pos value =>
      intro w
      have hhandler := handled_handleTlv type (write tlv 0 value) length rcpt
      exact ((elapsed_note _ w).trans (elapsed_note _ _)).trans
        ((hhandler _).elapsed.trans (ih _ _))
    | stuck => exact fun w => (elapsed_note _ w).trans (ih _ _)

/-! ### Datagrams -/

/-- The length that the header of a message declares for its body. -/
def MessageH.declared (msg : MessageH) : Nat := (swap16 msg.bodyLength).toNat

/-- The declared body. -/
def MessageH.content (msg : MessageH) : List UInt8 := Octets.read msg.body 0 msg.declared

/-- `handle_message_h` looks at the body of a datagram of `n` bytes. -/
def MessageH.Accepted (msg : MessageH) (n : Nat) : Prop :=
  4 ≤ n ∧ msg.magic = 93 ∧ msg.version = 2 ∧ msg.declared + 4 ≤ n

instance (msg : MessageH) (n : Nat) : Decidable (msg.Accepted n) := by
  unfold MessageH.Accepted; infer_instance

/-- The steps taken through the body of a message. -/
def MessageH.way (msg : MessageH) : List Step := steps msg.body msg.declared msg.declared 0

theorem handleMessageH_eq (msg : MessageH) (n : Nat) (rcpt : Neighbor) :
    handleMessageH msg n rcpt =
      if msg.Accepted n then do perform rcpt msg.way (← uninit) else pure () := by
  unfold handleMessageH
  simp only [handleMessageLoop_eq]
  by_cases h4 : n < 4
  · have hnot : ¬ msg.Accepted n := fun h => by have := h.1; omega
    rw [if_pos h4, if_neg hnot]
  rw [if_neg h4]
  by_cases hmagic : msg.magic ≠ 93 ∨ msg.version ≠ 2
  · have hnot : ¬ msg.Accepted n := fun h => hmagic.elim (· h.2.1) (· h.2.2.1)
    rw [if_pos hmagic, if_neg hnot]
  rw [if_neg hmagic]
  by_cases hlong : (swap16 msg.bodyLength).toNat + 4 > n
  · have hnot : ¬ msg.Accepted n := fun h => absurd h.2.2.2 (by unfold MessageH.declared; omega)
    rw [if_pos hlong, if_neg hnot]
  · have hhead : msg.magic = 93 ∧ msg.version = 2 := by tauto
    have hacc : msg.Accepted n :=
      ⟨by omega, hhead.1, hhead.2, by unfold MessageH.declared; omega⟩
    rw [if_neg hlong, if_pos hacc]
    rfl

/-- What is noted down in `w'` after `w`. -/
def World.since (w w' : World) : List Obs := w'.log.drop w.log.length

theorem since_eq {w w' : World} {ext : List Obs} (h : w'.log = w.log ++ ext) :
    w.since w' = ext := by
  rw [World.since, h, List.drop_left]

theorem log_eq_since {w w' : World} (h : w.log <+: w'.log) : w'.log = w.log ++ w.since w' := by
  obtain ⟨ext, hext⟩ := h
  rw [since_eq hext.symm, hext]

theorem filter_since {w w' : World} {ext : List Obs} (h : w.log <+: w'.log)
    (hparsed : w'.parsed = w.parsed ++ ext) : (w.since w').filter Obs.ofParser = ext := by
  have hlog := congrArg (List.filter Obs.ofParser) (log_eq_since h)
  rw [List.filter_append] at hlog
  exact List.append_cancel_left (hlog.symm.trans hparsed)

/-- What the parser observes in a datagram are the steps through its body. -/
theorem parsed_handleMessageH (msg : MessageH) (n : Nat) (rcpt : Neighbor) (w : World) :
    (w.since (after (handleMessageH msg n rcpt) w)).filter Obs.ofParser =
      if msg.Accepted n then msg.way.flatMap Step.obs else [] := by
  rw [handleMessageH_eq]
  by_cases hacc : msg.Accepted n
  · rw [if_pos hacc, if_pos hacc]
    refine filter_since ?_ ?_
    · exact ((quiet_uninit w).elapsed.trans (elapsed_perform _ _ _ _)).log
    · rw [after_bind, parsed_perform, (quiet_uninit w).toLater.handled.parsed]
  · rw [if_neg hacc, if_neg hacc]
    exact filter_since (List.prefix_refl _) (by simp)

/-! ### Leaving the body -/

/-- The parser leaves the body whose rest, from the start of a TLV on, is the
given list. -/
inductive Overruns : List UInt8 → Prop
  /-- The type is the last byte, and the length is read behind it. -/
  | header {type : UInt8} (htype : type ≠ 0) : Overruns [type]
  /-- The value of a TLV with a handler ends one or two bytes behind the end:
  the check of the source forgets the two bytes of the header. -/
  | value {type length : UInt8} {rest : List UInt8} (htype : type ≠ 0)
      (hknown : type.toNat < nbTlv) (hlong : rest.length < length.toNat)
      (hcheck : length.toNat ≤ rest.length + 2) : Overruns (type :: length :: rest)
  | pad1 {rest : List UInt8} (hrest : Overruns rest) : Overruns (0 :: rest)
  | skip {type length : UInt8} {rest : List UInt8} (htype : type ≠ 0)
      (hfits : length.toNat ≤ rest.length) (hrest : Overruns (rest.drop length.toNat)) :
      Overruns (type :: length :: rest)

theorem not_overruns_nil : ¬ Overruns [] := nofun

theorem overruns_zero_iff {rest : List UInt8} : Overruns (0 :: rest) ↔ Overruns rest := by
  constructor
  · intro h
    cases h with
    | header htype => exact absurd rfl htype
    | value htype => exact absurd rfl htype
    | pad1 hrest => exact hrest
    | skip htype => exact absurd rfl htype
  · exact .pad1

theorem overruns_tlv_iff {type length : UInt8} {rest : List UInt8} (htype : type ≠ 0) :
    Overruns (type :: length :: rest) ↔
      (type.toNat < nbTlv ∧ rest.length < length.toNat ∧ length.toNat ≤ rest.length + 2) ∨
      (length.toNat ≤ rest.length ∧ Overruns (rest.drop length.toNat)) := by
  constructor
  · intro h
    cases h with
    | value _ hknown hlong hcheck => exact .inl ⟨hknown, hlong, hcheck⟩
    | pad1 _ => exact absurd rfl htype
    | skip _ hfits hrest => exact .inr ⟨hfits, hrest⟩
  · rintro (⟨hknown, hlong, hcheck⟩ | ⟨hfits, hrest⟩)
    · exact .value htype hknown hlong hcheck
    · exact .skip htype hfits hrest

/-- The observations stay inside a body of `bodyLength` bytes. -/
structure Inside (bodyLength : Nat) (obs : List Obs) : Prop where
  terminates : .stuck ∉ obs
  reads : ∀ pos n, .bodyRead pos n ∈ obs → ∀ i < n, pos + i < bodyLength
  dispatches : ∀ type pos value, .dispatch type pos value ∈ obs →
    pos + 2 + value.length ≤ bodyLength

section Inside

variable {bodyLength : Nat} {obs : List Obs}

theorem inside_nil : Inside bodyLength [] := ⟨nofun, nofun, nofun⟩

theorem inside_append_iff {obs' : List Obs} :
    Inside bodyLength (obs ++ obs') ↔ Inside bodyLength obs ∧ Inside bodyLength obs' := by
  constructor
  · intro h
    refine ⟨⟨fun hs => ?_, fun pos n hr => ?_, fun t pos v hd => ?_⟩,
      ⟨fun hs => ?_, fun pos n hr => ?_, fun t pos v hd => ?_⟩⟩
    · exact h.terminates (List.mem_append_left _ hs)
    · exact h.reads pos n (List.mem_append_left _ hr)
    · exact h.dispatches t pos v (List.mem_append_left _ hd)
    · exact h.terminates (List.mem_append_right _ hs)
    · exact h.reads pos n (List.mem_append_right _ hr)
    · exact h.dispatches t pos v (List.mem_append_right _ hd)
  · rintro ⟨h, h'⟩
    refine ⟨fun hs => ?_, fun pos n hr => ?_, fun t pos v hd => ?_⟩
    · exact (List.mem_append.mp hs).elim h.terminates h'.terminates
    · exact (List.mem_append.mp hr).elim (h.reads pos n) (h'.reads pos n)
    · exact (List.mem_append.mp hd).elim (h.dispatches t pos v) (h'.dispatches t pos v)

theorem inside_look_iff (pos : Nat) : Inside bodyLength [.bodyRead pos 1] ↔ pos < bodyLength := by
  constructor
  · intro h
    simpa using h.reads pos 1 (by simp) 0 (by omega)
  · intro hpos
    refine ⟨by simp, fun p n hr i hi => ?_, by simp⟩
    obtain ⟨rfl, rfl⟩ : p = pos ∧ n = 1 := by simpa using hr
    omega

theorem inside_tlv_iff {type : UInt8} {pos : Nat} {value : List UInt8}
    (hpos : pos + 2 ≤ bodyLength) :
    Inside bodyLength [.bodyRead (pos + 2) value.length, .dispatch type pos value] ↔
      pos + 2 + value.length ≤ bodyLength := by
  constructor
  · intro h
    exact h.dispatches type pos value (by simp)
  · intro hend
    refine ⟨by simp, fun p n hr i hi => ?_, fun t p v hd => ?_⟩
    · obtain ⟨rfl, rfl⟩ : p = pos + 2 ∧ n = value.length := by simpa using hr
      omega
    · obtain ⟨rfl, rfl, rfl⟩ : t = type ∧ p = pos ∧ v = value := by simpa using hd
      exact hend

/-- Only the observations of the parser matter. -/
theorem inside_filter_iff :
    Inside bodyLength (obs.filter Obs.ofParser) ↔ Inside bodyLength obs := by
  constructor
  · intro h
    exact ⟨fun hs => h.terminates (by simp [hs, Obs.ofParser]),
      fun pos n hr => h.reads pos n (by simp [hr, Obs.ofParser]),
      fun t pos v hd => h.dispatches t pos v (by simp [hd, Obs.ofParser])⟩
  · intro h
    exact ⟨fun hs => h.terminates (List.mem_of_mem_filter hs),
      fun pos n hr => h.reads pos n (List.mem_of_mem_filter hr),
      fun t pos v hd => h.dispatches t pos v (List.mem_of_mem_filter hd)⟩

end Inside

/-- The turn of the loop after a whole header. -/
theorem inside_value_iff {body : Mem} {bodyLength fuel pos : Nat}
    (ih : Inside bodyLength ((steps body bodyLength fuel
        (pos + ((body (pos + 1)).toNat + 2))).flatMap Step.obs) ↔
      ¬ Overruns (Octets.read body (pos + ((body (pos + 1)).toNat + 2))
        (bodyLength - (pos + ((body (pos + 1)).toNat + 2)))))
    (hlast : pos + 1 < bodyLength) :
    Inside bodyLength (List.flatMap Step.obs
        (if ((body (pos + 1)).toNat : Int) > (bodyLength : Int) - pos then []
        else if (body pos).toNat < nbTlv then
          .tlv (body pos) (body (pos + 1)) pos
              (Octets.read body (pos + 2) (body (pos + 1)).toNat) ::
            steps body bodyLength fuel (pos + ((body (pos + 1)).toNat + 2))
        else steps body bodyLength fuel (pos + ((body (pos + 1)).toNat + 2)))) ↔
      ¬ ((body pos).toNat < nbTlv ∧ bodyLength - (pos + 2) < (body (pos + 1)).toNat ∧
          (body (pos + 1)).toNat ≤ bodyLength - (pos + 2) + 2 ∨
        (body (pos + 1)).toNat ≤ bodyLength - (pos + 2) ∧
          Overruns ((Octets.read body (pos + 2) (bodyLength - (pos + 2))).drop
            (body (pos + 1)).toNat)) := by
  generalize body (pos + 1) = length at ih ⊢
  by_cases hlong : (length.toNat : Int) > (bodyLength : Int) - pos
  · rw [if_pos hlong]
    refine iff_of_true inside_nil ?_
    rintro (⟨-, -, hcheck⟩ | ⟨hfits, -⟩) <;> omega
  rw [if_neg hlong]
  by_cases hfits : length.toNat ≤ bodyLength - (pos + 2)
  · -- the value fits: the walk goes on behind it
    have hdrop : (Octets.read body (pos + 2) (bodyLength - (pos + 2))).drop length.toNat =
        Octets.read body (pos + (length.toNat + 2)) (bodyLength - (pos + (length.toNat + 2))) := by
      rw [show bodyLength - (pos + 2) =
          length.toNat + (bodyLength - (pos + (length.toNat + 2))) by omega,
        read_add, List.drop_left' (length_read _ _ _),
        show pos + 2 + length.toNat = pos + (length.toNat + 2) by omega]
    rw [hdrop, or_iff_right (fun h => by omega), and_iff_right hfits, ← ih]
    by_cases hknown : (body pos).toNat < nbTlv
    · rw [if_pos hknown, List.flatMap_cons, Step.obs, inside_append_iff]
      have hvalue := @inside_tlv_iff bodyLength (body pos) pos
        (Octets.read body (pos + 2) length.toNat) (by omega)
      rw [length_read] at hvalue
      rw [hvalue]
      exact and_iff_right (by omega)
    · rw [if_neg hknown]
  · rw [or_iff_left (fun h => hfits h.1)]
    by_cases hknown : (body pos).toNat < nbTlv
    · -- the value is copied although its end is missing
      rw [if_pos hknown]
      refine iff_of_false (fun h => ?_) (not_not.mpr ⟨hknown, by omega, by omega⟩)
      have hend := h.dispatches (body pos) pos (Octets.read body (pos + 2) length.toNat)
        (by simp [Step.obs])
      rw [length_read] at hend
      omega
    · -- no handler: the walk jumps behind the end and stops there
      rw [if_neg hknown, ih, show bodyLength - (pos + (length.toNat + 2)) = 0 by omega]
      exact iff_of_true not_overruns_nil fun h => hknown h.1

/-- The walk stays inside exactly the bodies that it does not overrun.  The
induction is on the fuel, with the list of the bytes from `pos` on. -/
theorem inside_steps_iff (body : Mem) (bodyLength fuel pos : Nat)
    (hfuel : bodyLength ≤ pos + fuel) :
    Inside bodyLength ((steps body bodyLength fuel pos).flatMap Step.obs) ↔
      ¬ Overruns (Octets.read body pos (bodyLength - pos)) := by
  induction fuel generalizing pos with
  | zero =>
    have hend : bodyLength - pos = 0 := by omega
    rw [steps, if_neg (by omega), hend]
    exact iff_of_true inside_nil not_overruns_nil
  | succ fuel ih =>
    rw [steps]
    by_cases hpos : pos < bodyLength
    · rw [if_pos hpos, show bodyLength - pos = bodyLength - (pos + 1) + 1 by omega, read_succ]
      by_cases hpad : body pos = 0
      · rw [if_pos hpad, hpad, overruns_zero_iff, ← ih (pos + 1) (by omega)]
        rw [List.flatMap_cons, Step.obs, inside_append_iff, inside_look_iff]
        exact and_iff_right hpos
      · rw [if_neg hpad, List.flatMap_cons, List.flatMap_cons, Step.obs, Step.obs,
          inside_append_iff, inside_append_iff, inside_look_iff, inside_look_iff]
        by_cases hlast : pos + 1 < bodyLength
        · -- a whole header: what is left has `bodyLength - (pos + 2)` bytes
          rw [and_iff_right hpos, and_iff_right hlast,
            show bodyLength - (pos + 1) = bodyLength - (pos + 2) + 1 by omega, read_succ,
            overruns_tlv_iff hpad, length_read]
          exact inside_value_iff (ih _ (by omega)) hlast
        · -- a type byte at the very end: the length byte is read behind it
          rw [show bodyLength - (pos + 1) = 0 by omega]
          exact iff_of_false (fun h => hlast h.2.1) (not_not.mpr (.header hpad))
    · rw [if_neg hpos, show bodyLength - pos = 0 by omega]
      exact iff_of_true inside_nil not_overruns_nil

/-- Every index that the parser reads in a datagram of `n` bytes lies in the
declared body, hence in the datagram and in the array, and so do the TLVs it
calls a handler for; it comes to an end. -/
structure StaysInside (bodyLength n : Nat) (obs : List Obs) : Prop
    extends Inside bodyLength obs where
  array : ∀ pos k, .bodyRead pos k ∈ obs → ∀ i < k, pos + i < n - 4 ∧ pos + i < maxSize

/-- The parser stays inside a datagram exactly when its body is not overrun. -/
theorem handleMessageH_stays_inside_iff (msg : MessageH) (n : Nat) (rcpt : Neighbor) (w : World)
    (hn : 4 ≤ n ∧ n ≤ sizeofMessage) :
    StaysInside msg.declared n (w.since (after (handleMessageH msg n rcpt) w)) ↔
      ¬ (msg.Accepted n ∧ Overruns msg.content) := by
  have hparsed := parsed_handleMessageH msg n rcpt w
  have hsize : sizeofMessage = 4100 := rfl
  have hmax : maxSize = 4096 := rfl
  by_cases hacc : msg.Accepted n
  · rw [if_pos hacc] at hparsed
    have hwalk : Inside msg.declared (w.since (after (handleMessageH msg n rcpt) w)) ↔
        ¬ Overruns msg.content := by
      rw [← inside_filter_iff, hparsed]
      exact inside_steps_iff msg.body msg.declared msg.declared 0 (by omega)
    have hdecl : msg.declared + 4 ≤ n := hacc.2.2.2
    have himp : ¬ (msg.Accepted n ∧ Overruns msg.content) ↔ ¬ Overruns msg.content :=
      not_congr (and_iff_right hacc)
    rw [himp, ← hwalk]
    constructor
    · intro h
      exact h.toInside
    · intro h
      refine ⟨h, fun pos k hr i hi => ?_⟩
      have hread := h.reads pos k hr i hi
      omega
  · -- a refused datagram is not looked at
    rw [if_neg hacc] at hparsed
    refine iff_of_true ?_ fun h => hacc h.1
    have hin : Inside msg.declared (w.since (after (handleMessageH msg n rcpt) w)) := by
      rw [← inside_filter_iff, hparsed]
      exact inside_nil
    refine ⟨hin, fun pos k hr => ?_⟩
    have hmem : Obs.bodyRead pos k ∈
        (w.since (after (handleMessageH msg n rcpt) w)).filter Obs.ofParser :=
      List.mem_filter.mpr ⟨hr, rfl⟩
    rw [hparsed] at hmem
    cases hmem

/-- A Pad1 and a GoAway without a text fill a body of four bytes. -/
theorem handleMessageH_stays_inside_goaway :
    StaysInside 4 8 ((World.boot fun _ => 0).since
      (after (handleMessageH (.ofMem (ofBytes [93, 2, 0, 4, 0, 6, 1, 2])) 8
        (sockaddr6ToNeighbor ⟨.replicate 16 0, 0⟩)) (World.boot fun _ => 0))) := by
  refine (handleMessageH_stays_inside_iff (.ofMem (ofBytes [93, 2, 0, 4, 0, 6, 1, 2])) 8
    _ _ (by decide)).mpr ?_
  rintro ⟨-, hover⟩
  have hcontent : (MessageH.ofMem (ofBytes [93, 2, 0, 4, 0, 6, 1, 2])).content = [0, 6, 1, 2] :=
    by decide
  rw [hcontent, overruns_zero_iff, overruns_tlv_iff (by decide)] at hover
  rcases hover with ⟨-, hlong, -⟩ | ⟨-, hrest⟩
  · exact absurd hlong (by decide)
  · exact not_overruns_nil hrest

/-- A GoAway whose only value byte lies behind the two bytes of the body is
dispatched all the same. -/
theorem handleMessageH_leaves_goaway :
    ¬ StaysInside 2 6 ((World.boot fun _ => 0).since
      (after (handleMessageH (.ofMem (ofBytes [93, 2, 0, 2, 6, 1])) 6
        (sockaddr6ToNeighbor ⟨.replicate 16 0, 0⟩)) (World.boot fun _ => 0))) := by
  intro h
  have hdispatch : Obs.dispatch 6 0 [0] ∈ (World.boot fun _ => 0).since
      (after (handleMessageH (.ofMem (ofBytes [93, 2, 0, 2, 6, 1])) 6
        (sockaddr6ToNeighbor ⟨.replicate 16 0, 0⟩)) (World.boot fun _ => 0)) := by decide
  exact absurd (h.dispatches 6 0 [0] hdispatch) (by decide)

end FloodPeer
