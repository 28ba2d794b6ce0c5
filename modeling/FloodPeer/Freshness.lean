/-
FloodPeer/Freshness.lean

How old a record can be.

Every half minute the main loop throws out whoever has not been heard for two
minutes.  The clock goes on while a sweep looks at its tree, so it may find more
old records than there were when it began, but not fewer (`finds_findByAux`).
Between two sweeps a record only gets younger (`Move.Does.heardSince`).  Together:
after any turn of the main loop no record is older than two minutes and a half
(`recent_of_mainLoop`).
-/
import FloodPeer.Expiry
import FloodPeer.Refinement
import FloodPeer.Termination

namespace FloodPeer

open Octets StateLogic SortedAssoc Runs Gossip

/-! ### Between the sweeps -/

/-- No record of the tree is older than `b`. -/
def Tree.HeardSince (t : Tree) (b : Int) : Prop := ∀ e ∈ t.inorder, b ≤ e.2.lastHello

/-- No record of the peer is older than `b`. -/
structure World.HeardSince (w : World) (b : Int) : Prop where
  neighbors : w.neighbors.HeardSince b
  potential : w.potential.HeardSince b

theorem heardSince_iff {t : Tree} (h : t.Sorted) {b : Int} :
    t.HeardSince b ↔ ∀ p v, t.directory p = some v → b ≤ v.lastHello := by
  constructor
  · intro ht p v hv
    obtain ⟨e, he, -, rfl⟩ := (directory_eq_some_iff h).mp hv
    exact ht e he
  · intro ht e he
    exact ht (entryPlace e) e.2 ((directory_eq_some_iff h).mpr ⟨e, he, rfl, rfl⟩)

theorem World.HeardSince.mono {w : World} {b c : Int} (h : w.HeardSince b) (hle : c ≤ b) :
    w.HeardSince c where
  neighbors := fun e he => hle.trans (h.neighbors e he)
  potential := fun e he => hle.trans (h.potential e he)

theorem World.HeardSince.of_trees {w w' : World} {b : Int} (h : w.HeardSince b)
    (hn : w'.neighbors = w.neighbors) (hp : w'.potential = w.potential) : w'.HeardSince b where
  neighbors := hn ▸ h.neighbors
  potential := hp ▸ h.potential

/-- What a move writes into a record is the time it is. -/
theorem dated_of_event {m : Move} {w : World} {p : List Nat ×ₗ Nat} {r : Ident}
    (h : m.event w = .heard p r ∨ m.event w = .told p r) : r.lastHello = w.clock.head := by
  have hmention : m.mention w = .heard p r ∨ m.mention w = .told p r →
      r.lastHello = w.clock.head := by
    intro h
    rcases mention_cases m w with hquiet | ⟨p', r', htold⟩ | ⟨p', hforgot⟩
    · rw [hquiet] at h
      rcases h with h | h <;> cases h
    · cases m with
      | tlv type buf length client =>
        rw [mention_tlv] at h
        split at h
        · rcases h with h | h <;> cases h
          rfl
        · rcases h with h | h <;> cases h
      | _ => cases htold
    · rw [hforgot] at h
      rcases h with h | h <;> cases h
  unfold Move.event at h
  split at h
  · split at h
    · rcases h with h | h <;> cases h
    · rcases h with h | h <;> cases h
  · split at h
    · rcases h with h | h <;> cases h
    · rcases h with h | h <;> cases h
    · rcases h with h | h <;> cases h
    · split at h
      · rename_i hd hheard
        rcases h with h | h <;> cases h
        rw [← (heardBy_cases hheard).2]
        rfl
      · exact hmention h

/-- A move makes records younger. -/
theorem Move.Does.heardSince {m : Move} {w w' : World} {b : Int} (h : m.Does w w') (hw : w.Sound)
    (hw' : w'.Sound) (halloc : w.Allocates) (hnow : b ≤ w.clock.head) (hsince : w.HeardSince b) :
    w'.HeardSince b := by
  obtain ⟨hknown, hrumoured⟩ := h.maps hw halloc
  have hrecords : w.node.Records fun v => b ≤ v.lastHello :=
    ⟨(heardSince_iff hw.neighbors).mp hsince.neighbors,
      (heardSince_iff hw.potential).mp hsince.potential⟩
  have hstep : (w.node.step recordAfter nbdata (m.event w)).Records fun v => b ≤ v.lastHello :=
    hrecords.step (m.event w) fun p r hevent o => by
      have hdate := dated_of_event hevent
      cases o with
      | none => exact hdate ▸ hnow
      | some v => exact hdate ▸ hnow
  refine ⟨(heardSince_iff hw'.neighbors).mpr ?_, (heardSince_iff hw'.potential).mpr ?_⟩
  · rw [hknown]
    exact hstep.known
  · rw [hrumoured]
    exact hstep.rumoured

theorem World.HeardSince.run {w w' : World} {tr : List (World × Move)} {b : Int}
    (hrun : Run Move.Does w tr w') (hw : w.Sound) (halloc : w.Allocates) (hmono : w.Monotonic)
    (hnow : b ≤ w.clock.head) (hsince : w.HeardSince b) : w'.HeardSince b := by
  induction hrun with
  | nil => exact hsince
  | @snoc tr u v m hbefore hmove ih =>
    have hu := elapsed_of_run hbefore
    have hle := hu.clock_le hmono
    exact hmove.heardSince (sound_of_run hbefore hw) (sound_of_run (hbefore.snoc hmove) hw)
      (hu.allocates halloc) (by omega) ih

/-! ### Sweeps on a running clock -/

/-- Old records are found, however late the sweep comes to them. -/
theorem finds_findByAux (t : Tree) {w : World} {c : Int} (halloc : w.Allocates)
    (hmono : w.Monotonic) (hnow : c ≤ w.clock.head) {l : CList NgbEntry} (h : l.Linked w.next) :
    (value (findByAux isOld t l) w).Linked (after (findByAux isOld t l) w).next ∧
    ∃ ents, (value (findByAux isOld t l) w).contents = l.contents ++ ents ∧
      (ents.map (·.sym)).Sublist (t.inorder.map Prod.fst) ∧
      ∀ e ∈ t.inorder, e.2.lastHello < c - 120 → e.1 ∈ ents.map (·.sym) := by
  induction t generalizing w l with
  | null =>
    exact ⟨h, [], (List.append_nil _).symm, List.nil_sublist _,
      fun _ he => absurd he List.not_mem_nil⟩
  | node k v left right ihl ihr =>
    rw [findByAux_node]
    simp only [value_bind, after_bind]
    -- the left subtree
    obtain ⟨hlinked₁, ents₁, hents₁, hsub₁, hall₁⟩ := ihl halloc hmono hnow h
    have hquiet := primitive_quiet.keeps_findByAux primitive_quiet.keeps_isOld left l w
    have helapsed₁ := hquiet.toLater.elapsed
    generalize value (findByAux isOld left l) w = l₁ at hlinked₁ hents₁ ⊢
    generalize after (findByAux isOld left l) w = w₁ at hlinked₁ helapsed₁ hquiet ⊢
    have hle₁ := helapsed₁.clock_le hmono
    -- the node
    have hmid := @gathers_consider isOld (fun t => value (isOld t) w₁) (· = w₁)
      primitive_quiet.keeps_isOld (fun t u hu htrue => hu ▸ htrue) _ rfl
      (.node k v left right) k l₁ hlinked₁
    generalize value (consider (isOld (.node k v left right)) k l₁) w₁ = l₂ at hmid ⊢
    generalize after (consider (isOld (.node k v left right)) k l₁) w₁ = w₂ at hmid ⊢
    obtain ⟨ents₂, hents₂, -, hkeys₂, -⟩ := hmid.contents
    have hkeys := hkeys₂ ⟨helapsed₁.allocates halloc, fun t u hu => hu ▸ rfl⟩
    have helapsed₂ := helapsed₁.trans hmid.elapsed
    have hle₂ := helapsed₂.clock_le hmono
    -- the right subtree
    obtain ⟨hlinked₃, ents₃, hents₃, hsub₃, hall₃⟩ :=
      ihr (helapsed₂.allocates halloc) (helapsed₂.monotonic hmono) (by omega) hmid.linked
    refine ⟨hlinked₃, ents₁ ++ (ents₂ ++ ents₃), ?_, ?_, ?_⟩
    · rw [hents₃, hents₂, hents₁, List.append_assoc, List.append_assoc]
    · rw [inorder_node, List.map_append, List.map_append, List.map_append, List.map_cons, hkeys]
      refine hsub₁.append ?_
      split
      · exact hsub₃.cons_cons k
      · exact hsub₃.cons k
    · intro e he hold
      rw [List.map_append, List.map_append, hkeys]
      rcases List.mem_append.mp (inorder_node k v left right ▸ he) with he | he
      · exact List.mem_append_left _ (hall₁ e he hold)
      refine List.mem_append_right _ ?_
      rcases List.mem_cons.mp he with rfl | he
      · refine List.mem_append_left _ ?_
        have hvalue : value (isOld (.node k v left right)) w₁ = true :=
          decide_eq_true (show (w₁.clock.head : Int) - v.lastHello > 120 by
            have hlast : v.lastHello < c - 120 := hold
            omega)
        rw [if_pos hvalue]
        exact List.mem_singleton_self k
      · exact List.mem_append_right _ (hall₃ e he hold)

theorem finds_findBy (t : Tree) {w : World} {c : Int} (halloc : w.Allocates) (hmono : w.Monotonic)
    (hnow : c ≤ w.clock.head) :
    ∃ l, value (findBy t isOld) w = some l ∧
      (l.contents.map (·.sym)).Sublist (t.inorder.map Prod.fst) ∧
      ∀ e ∈ t.inorder, e.2.lastHello < c - 120 → e.1 ∈ l.contents.map (·.sym) := by
  have hmalloc := (quiet_malloc w).toLater.elapsed
  have hle := hmalloc.clock_le hmono
  obtain ⟨-, ents, hents, hsub, hall⟩ := finds_findByAux t (hmalloc.allocates halloc)
    (hmalloc.monotonic hmono) (show c ≤ (after malloc w).clock.head by omega) (linked_initList _)
  have hcontents : (value (findByAux isOld t initList) (after malloc w)).contents = ents := hents
  refine ⟨value (findByAux isOld t initList) (after malloc w), ?_, ?_, ?_⟩
  · unfold findBy
    rw [value_bind]
    rcases malloc_cases w with ⟨hv, -⟩ | ⟨hv, -⟩
    · exact absurd hv (allocates_malloc halloc)
    · rw [hv]
      rfl
  · rw [hcontents]
    exact hsub
  · rw [hcontents]
    exact hall

/-- What has been found is a snapshot. -/
theorem snapshot_of_sublist {t : Tree} (h : t.Sorted) {l : List NgbEntry}
    (hsub : (l.map (·.sym)).Sublist (t.inorder.map Prod.fst)) : Snapshot t l := by
  refine ⟨h, fun ent hent => hsub.subset (List.mem_map_of_mem hent), ?_⟩
  have hascending := List.pairwise_map.mp (ascending_of_sublist h hsub)
  exact hascending.imp fun hlt => ne_of_lt (compareN_neg_iff.mp hlt)

/-- When all that was found is gone, nothing old is left. -/
theorem heardSince_of_swept {t t' : Tree} {c : Int} {l : List NgbEntry}
    (hall : ∀ e ∈ t.inorder, e.2.lastHello < c - 120 → e.1 ∈ l.map (·.sym))
    (hswept : t'.inorder = eraseAll entryPlace (places l) t.inorder) :
    t'.HeardSince (c - 120) := by
  intro e he
  rw [hswept] at he
  obtain ⟨hmem, hkept⟩ := List.mem_filter.mp he
  by_contra hold
  obtain ⟨ent, hent, hkey⟩ := List.mem_map.mp (hall e hmem (not_le.mp hold))
  have hplaces : entryPlace e ∉ places l := by simpa using hkept
  refine hplaces (List.mem_map.mpr ⟨ent, hent, ?_⟩)
  rw [hkey]
  rfl

/-- Between the reading at `c` and the sweep nothing old can come. -/
theorem heardSince_sendGoawayAsymetrical {w : World} {c : Int} (hw : w.Sound)
    (halloc : w.Allocates) (hmono : w.Monotonic) (hnow : c ≤ w.clock.head) :
    (after sendGoawayAsymetrical w).neighbors.HeardSince (c - 120) ∧
      (after sendGoawayAsymetrical w).potential = w.potential := by
  by_cases hnull : w.neighbors = .null
  · have hrun : after sendGoawayAsymetrical w = w := congrArg (fun m => after m w) (if_pos hnull)
    rw [hrun, hnull]
    exact ⟨fun _ he => absurd he List.not_mem_nil, rfl⟩
  obtain ⟨l, hl, hsub, hall⟩ := finds_findBy w.neighbors halloc hmono hnow
  have hquiet := (primitive_quiet.keeps_findBy primitive_quiet.keeps_isOld w.neighbors w).trans
    (quiet_uninit _)
  have hrun : after sendGoawayAsymetrical w =
      after (goawayLoop (goawayMessage (after (findBy w.neighbors isOld) w).memory.head) 7
        l.contents 0) (after uninit (after (findBy w.neighbors isOld) w)) := by
    refine (congrArg (fun m => after m w) (if_neg hnull)).trans ?_
    simp only [after_bind, value_get, after_get, hl]
    rfl
  have hgood : Sweeping w.neighbors.inorder w.potential l.contents
      (after uninit (after (findBy w.neighbors isOld) w)).neighbors
      (after uninit (after (findBy w.neighbors isOld) w)).potential := by
    rw [hquiet.neighbors]
    exact ⟨snapshot_of_sublist hw.neighbors hsub, rfl, hquiet.potential⟩
  have hswept := triple_goawayLoop
    (goawayMessage (after (findBy w.neighbors isOld) w).memory.head) 7 l.contents 0 _ hgood
  rw [hrun]
  exact ⟨heardSince_of_swept hall hswept.entries, hswept.other⟩

theorem heardSince_removeOldPotential {w : World} {c : Int} (hw : w.Sound)
    (halloc : w.Allocates) (hmono : w.Monotonic) (hnow : c ≤ w.clock.head) :
    (after removeOldPotential w).potential.HeardSince (c - 120) ∧
      (after removeOldPotential w).neighbors = w.neighbors := by
  by_cases hnull : w.potential = .null
  · have hrun : after removeOldPotential w = w := congrArg (fun m => after m w) (if_pos hnull)
    rw [hrun, hnull]
    exact ⟨fun _ he => absurd he List.not_mem_nil, rfl⟩
  obtain ⟨l, hl, hsub, hall⟩ := finds_findBy w.potential halloc hmono hnow
  have hquiet := primitive_quiet.keeps_findBy primitive_quiet.keeps_isOld w.potential w
  have hrun : after removeOldPotential w =
      after (potentialLoop l.contents) (after (findBy w.potential isOld) w) := by
    refine (congrArg (fun m => after m w) (if_neg hnull)).trans ?_
    simp only [after_bind, value_get, after_get, hl]
  have hgood : Sweeping w.potential.inorder w.neighbors (l.contents ++ [])
      (after (findBy w.potential isOld) w).potential
      (after (findBy w.potential isOld) w).neighbors := by
    rw [List.append_nil, hquiet.potential]
    exact ⟨snapshot_of_sublist hw.potential hsub, rfl, hquiet.neighbors⟩
  have hswept := triple_potentialLoop l.contents [] _ hgood
  rw [hrun]
  exact ⟨heardSince_of_swept hall hswept.entries, hswept.other⟩

/-! ### The main loop -/

/-- The peer is sound and has memory, and it is `c` or later. -/
structure Running (c : Int) (w : World) : Prop where
  sound : w.Sound
  allocates : w.Allocates
  monotonic : w.Monotonic
  now : c ≤ w.clock.head

section Turns

variable {P : UInt8 → Mem → UInt8 → Sockaddr → Prop} {α : Type} {c : Int} {w w' : World}

theorem Running.plays (h : Running c w) (hplays : Plays P w w') : Running c w' := by
  obtain ⟨tr, hrun⟩ := hplays.run
  have helapsed := elapsed_of_run hrun
  have hle := helapsed.clock_le h.monotonic
  have hnow := h.now
  exact ⟨sound_of_run hrun h.sound, helapsed.allocates h.allocates,
    helapsed.monotonic h.monotonic, by omega⟩

theorem Running.heardSince (h : Running c w) {b : Int} (hb : b ≤ c) (hsince : w.HeardSince b)
    (hplays : Plays P w w') : w'.HeardSince b := by
  obtain ⟨tr, hrun⟩ := hplays.run
  exact hsince.run hrun h.sound h.allocates h.monotonic (hb.trans h.now)

theorem triple_getSeconds :
    Triple (Running c) getSeconds fun r w => c ≤ r ∧ Running r w := by
  intro w h
  obtain ⟨hsound, halloc, hmono, -⟩ := h.plays (plays_getSeconds (P := anyTlv) w)
  have hle := (primitive_quiet.onGetSeconds w).toLater.elapsed.clock_le h.monotonic
  exact ⟨h.now, hsound, halloc, hmono, Int.ofNat_le.mpr hle⟩

/-- What the main loop does each time that the next Hello is due. -/
def periodic : Peer Int := do
  let _ ← sendHelloEveryone (← get).neighbors
  let _ ← sendSymetricalEveryone (← get).neighbors
  let nexthello := (← getSeconds) + timehello
  let _ ← sendGoawayAsymetrical
  removeOldPotential
  if (← get).nbSymetrical ≤ minSym then
    let _ ← sendShorthelloEveryone (← get).potential
  return nexthello

/-- The periodic messages, and then the sweeps. -/
theorem triple_periodic : Triple (Running c) periodic fun nexthello w =>
    ∃ r, c ≤ r ∧ nexthello = r + timehello ∧ Running r w ∧ w.HeardSince (r - 120) := by
  have hmove : ∀ {m : World → Peer Int} {β : Type} {f : Peer β} {Q : β → World → Prop},
      (∀ w, Plays anyTlv w (after (m w) w)) → Triple (Running c) f Q →
      Triple (Running c) (MonadState.get >>= fun w => m w >>= fun _ => f) Q :=
    fun hm hf w h => hf _ (h.plays (hm w))
  refine hmove (fun w => .of_move .hellos rfl nofun nofun) ?_
  refine hmove (fun w => .of_move .advertise rfl nofun nofun) ?_
  refine triple_getSeconds.bind fun r => ?_
  rintro w ⟨hle, h⟩
  -- the two sweeps
  have hgoaway := heardSince_sendGoawayAsymetrical h.sound h.allocates h.monotonic h.now
  have h₁ := h.plays (plays_sendGoawayAsymetrical (P := anyTlv) w)
  have hpotential := heardSince_removeOldPotential h₁.sound h₁.allocates h₁.monotonic h₁.now
  have h₂ := h₁.plays (plays_removeOldPotential (P := anyTlv) _)
  have hsince : (after removeOldPotential (after sendGoawayAsymetrical w)).HeardSince (r - 120) :=
    ⟨hpotential.2 ▸ hgoaway.1, hpotential.1⟩
  simp only [value_bind, after_bind, after_get]
  generalize after removeOldPotential (after sendGoawayAsymetrical w) = v at h₂ hsince ⊢
  by_cases hmin : (value get v).nbSymetrical ≤ minSym
  · rw [if_pos hmin]
    have hsends := sends_sendShorthelloEveryone v.potential v
    exact ⟨r, hle, rfl, h₂.plays (P := anyTlv) (.of_move .shortHellos rfl nofun nofun),
      hsince.of_trees hsends.neighbors hsends.potential⟩
  · rw [if_neg hmin]
    exact ⟨r, hle, rfl, h₂, hsince⟩

end Turns

/-- What holds between two turns: the next Hello is at most half a minute away, and
no record was more than two minutes old at the time of the last one. -/
structure UpToDate (m : MainState) (w : World) : Prop extends
    Running (m.nexthello - timehello) w where
  since : w.HeardSince (m.nexthello - timehello - 120)

section Turns

variable {P : UInt8 → Mem → UInt8 → Sockaddr → Prop} {m m' : MainState} {w w' : World}

theorem UpToDate.plays (h : UpToDate m w) (hplays : Plays P w w')
    (hnext : m'.nexthello = m.nexthello) : UpToDate m' w' := by
  refine ⟨hnext ▸ h.toRunning.plays hplays, ?_⟩
  rw [hnext]
  exact h.toRunning.heardSince (by omega) h.since hplays

/-- The timer: either it has been half a minute, or it is not over yet. -/
theorem UpToDate.helloTimer (h : UpToDate m w) :
    let m' := { m with nexthello := value (helloTimer m.nexthello) w }
    UpToDate m' (after (FloodPeer.helloTimer m.nexthello) w) ∧ w.clock.head < m'.nexthello := by
  have hread : Running w.clock.head (after getSeconds w) :=
    (triple_getSeconds w ⟨h.sound, h.allocates, h.monotonic, le_refl _⟩).2
  have heq : FloodPeer.helloTimer m.nexthello = getSeconds >>= fun now =>
      if now ≥ m.nexthello then periodic else pure m.nexthello := rfl
  rw [heq]
  simp only [value_bind, after_bind]
  by_cases hdue : value getSeconds w ≥ m.nexthello
  · rw [if_pos hdue]
    obtain ⟨r, hle, hnext, hr, hsince⟩ := triple_periodic _ hread
    have hlast : value periodic (after getSeconds w) - timehello = r := by omega
    refine ⟨⟨?_, ?_⟩, ?_⟩
    · dsimp only
      rw [hlast]
      exact hr
    · dsimp only
      rw [hlast]
      exact hsince
    · unfold timehello at hlast
      omega
  · rw [if_neg hdue]
    exact ⟨h.plays (plays_getSeconds (P := anyTlv) w) rfl, not_le.mp hdue⟩

theorem nexthello_recvfrom (m : MainState) (r : Recv) :
    (recvfrom m r).1.nexthello = m.nexthello := by
  cases r <;> rfl

theorem nexthello_opening (wake : Wake) (m : MainState) (w : World) :
    (value (opening wake m) w).nexthello = m.nexthello := by
  obtain ⟨selected, soc, gui⟩ := wake
  cases selected with
  | false => rfl
  | true =>
    cases soc with
    | none => cases gui <;> rfl
    | some r => cases gui <;> exact nexthello_recvfrom m r

theorem UpToDate.closing (h : UpToDate m w) :
    UpToDate (value (closing m) w) (after (closing m) w) ∧
      w.clock.head < (value (closing m) w).nexthello := by
  obtain ⟨htimer, hnext⟩ := h.helloTimer
  have hrest : Keeps (Plays anyTlv) (floodMessages >>= fun _ =>
      MonadState.get >>= fun v => sendToEveryoneNow v.neighbors >>= fun _ => Pure.pure ()) :=
    Plays.bind plays_floodMessages fun _ =>
      Plays.get_bind (fun w => .of_move .flush rfl nofun nofun) fun _ => Plays.pure _
  exact ⟨htimer.plays (hrest _) rfl, hnext⟩

/-- One turn: afterwards no record was more than two minutes and a half old when it
began. -/
theorem UpToDate.iteration (h : UpToDate m w) (wake : Wake) :
    UpToDate (value (iteration wake m) w) (after (iteration wake m) w) ∧
      (after (FloodPeer.iteration wake m) w).HeardSince (w.clock.head - 149) := by
  have hplays : Plays anyTlv w (after (opening wake m) w) :=
    plays_opening (allowsWake_any m wake) w
  have hopen : UpToDate (value (opening wake m) w) (after (opening wake m) w) := by
    exact h.plays hplays (nexthello_opening wake m w)
  obtain ⟨hclose, hnext⟩ := hopen.closing
  have hle := (elapsed_of_run hplays.run.choose_spec).clock_le h.monotonic
  refine ⟨hclose, hclose.since.mono ?_⟩
  show _ ≤ (value (FloodPeer.closing _) (after (opening wake m) w)).nexthello - timehello - 120
  unfold timehello
  omega

theorem UpToDate.mainLoop (h : UpToDate m w) (wakes : List Wake) :
    UpToDate (value (mainLoop wakes m) w) (after (mainLoop wakes m) w) := by
  induction wakes generalizing m w with
  | nil => exact h
  | cons wake rest ih => exact ih (h.iteration wake).1

end Turns

theorem upToDate_of_initial {w : World} (hinit : w.Initial) (halloc : w.Allocates)
    (hmono : w.Monotonic) {m : MainState} (hm : m.nexthello = 0) : UpToDate m w where
  sound := sound_of_initial hinit
  allocates := halloc
  monotonic := hmono
  now := by
    unfold timehello
    omega
  since := ⟨by rw [hinit.neighbors]; exact fun _ he => absurd he List.not_mem_nil,
    by rw [hinit.potential]; exact fun _ he => absurd he List.not_mem_nil⟩

/-- **Nobody silent is kept.**  After any turn of the main loop, every neighbour and
every potential neighbour was heard, or heard of, less than two minutes and a half
before the turn began. -/
theorem recent_of_mainLoop {w₀ : World} (hinit : w₀.Initial) (halloc : w₀.Allocates)
    (hmono : w₀.Monotonic) {m₀ : MainState} (hm : m₀.nexthello = 0) (wakes : List Wake)
    (wake : Wake) :
    let m := value (mainLoop wakes m₀) w₀
    let w := after (mainLoop wakes m₀) w₀
    (after (iteration wake m) w).HeardSince (w.clock.head - 149) :=
  (((upToDate_of_initial hinit halloc hmono hm).mainLoop wakes).iteration wake).2

/-- A Hello, a turn later, and then nothing for more than three minutes. -/
def heardOnce : List Wake :=
  [⟨true, some (.datagram (datagram (Tlv.shortHello 7).bytes) remote), none⟩, idleWake]

def thenSilence : World := World.boot fun k => if k < 9 then k else 200

theorem monotonic_thenSilence : thenSilence.Monotonic := by
  intro j k hjk
  show (if j < 9 then j else 200) ≤ if k < 9 then k else 200
  split <;> split <;> omega

/-- What was heard at `1` is still there at `200`, and is gone a turn later. -/
theorem recent_heardOnce :
    let m := value (mainLoop heardOnce dueState) thenSilence
    let w := after (mainLoop heardOnce dueState) thenSilence
    (w.clock.head = 200 ∧ w.neighbors.inorder.map (·.2.lastHello) = [1]) ∧
      (after (iteration idleWake m) w).HeardSince (w.clock.head - 149) := by
  have hinit : thenSilence.Initial := initial_boot _
  have halloc : thenSilence.Allocates := fun _ => rfl
  have hm : dueState.nexthello = 0 := rfl
  have h := recent_of_mainLoop hinit halloc monotonic_thenSilence hm heardOnce idleWake
  dsimp only at h ⊢
  refine ⟨?_, h⟩
  decide +kernel

end FloodPeer
