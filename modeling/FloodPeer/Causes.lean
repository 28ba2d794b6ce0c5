/-
FloodPeer/Causes.lean

Why a peer says what it says.

Every TLV that a peer sends has its cause in the history of the run (`Caused`): a
datum has been filed, an Ack answers a Data TLV from the same address, an
address that is advertised is one from which a Hello has been accepted.  The
rule grows with the history, so it is enough that each move keeps to the rule of
the history that ends with it (`Lawful.utters`).
-/
import FloodPeer.Wording
import FloodPeer.Hellos

namespace FloodPeer

open Octets StateLogic Runs

/-! ### Causes -/

/-- What a peer with the identifier `id` and this history has reason to say to
`server`. -/
inductive Caused (id : UInt64) (tr : List (World × Move)) (server : Sockaddr) :
    UInt8 → List UInt8 → Prop
  | shortHello {u : World} (hx : (u, .shortHellos) ∈ tr) : Caused id tr server 2 (u64Bytes id)
  /-- The addressee has given this identifier. -/
  | longHello {h : Heard} (hheard : h ∈ heard tr)
      (hplace : h.place = (sockaddr6ToNeighbor server).place) :
      Caused id tr server 2 (u64Bytes id ++ u64Bytes h.id)
  /-- A Hello has come from the address that is advertised. -/
  | neighbour {u : World} (hx : (u, .advertise) ∈ tr) {h : Heard} (hheard : h ∈ heard tr)
      {key : Neighbor} (hplace : h.place = key.place) :
      Caused id tr server 3 (neighbourValue key)
  /-- The datum has been given to `add_message_to_flood`. -/
  | data {x : World × Move} (hx : x ∈ tr) {v : Mem × UInt8} (hgiven : x.2.given x.1 = some v) :
      Caused id tr server 4 (Octets.read v.1 0 v.2.toNat)
  /-- A Data TLV with this index has come from the addressee. -/
  | ack {u : World} {buf : Mem} {length : UInt8} (hx : (u, .tlv 4 buf length server) ∈ tr) :
      Caused id tr server 5 (Tlv.ack (indexAt buf).id (indexAt buf).nonce).value
  /-- The addressee is given up. -/
  | goaway {x : World × Move} (hx : x ∈ tr) {sym : NeighborPtr}
      (hgone : x.2.effect x.1 = .gone sym) (hserver : server = neighborToSockaddr6 sym.toNeighbor)
      (text : List UInt8) : Caused id tr server 6 (2 :: text)

section Causes

variable {id : UInt64} {tr : List (World × Move)} {server : Sockaddr}

theorem heard_append (tr tr' : List (World × Move)) : heard (tr ++ tr') = heard tr ++ heard tr' :=
  List.filterMap_append

/-- A cause remains one. -/
theorem Caused.append {type : UInt8} {value : List UInt8} (h : Caused id tr server type value)
    (tr' : List (World × Move)) : Caused id (tr ++ tr') server type value := by
  have hsub : ∀ h ∈ heard tr, h ∈ heard (tr ++ tr') := by
    intro h hh
    rw [heard_append]
    exact List.mem_append_left _ hh
  cases h with
  | shortHello hx => exact .shortHello (List.mem_append_left _ hx)
  | longHello hheard hplace => exact .longHello (hsub _ hheard) hplace
  | neighbour hx hheard hplace =>
    exact .neighbour (List.mem_append_left _ hx) (hsub _ hheard) hplace
  | data hx hgiven => exact .data (List.mem_append_left _ hx) hgiven
  | ack hx => exact .ack (List.mem_append_left _ hx)
  | goaway hx hgone hserver text => exact .goaway (List.mem_append_left _ hx) hgone hserver text

end Causes

/-! ### Records and entries -/

/-- Each record was made by a Hello from its address, which gave the identifier
in it. -/
def World.Introduced (w : World) (tr : List (World × Move)) : Prop :=
  ∀ e ∈ w.neighbors.inorder, ∃ h ∈ heard tr, h.place = entryPlace e ∧ h.id = e.2.id

theorem World.Introduced.append {w : World} {tr : List (World × Move)} (h : w.Introduced tr)
    (tr' : List (World × Move)) : w.Introduced (tr ++ tr') := by
  intro e he
  obtain ⟨hd, hheard, hsame⟩ := h e he
  exact ⟨hd, by rw [heard_append]; exact List.mem_append_left _ hheard, hsame⟩

/-- The update branch of `add_neighbor_aux` leaves the identifier alone. -/
theorem introduced_step {m : Move} {w w' : World} {tr : List (World × Move)}
    (hmove : m.Does w w') (hw : w.Sound) (h : w.Introduced tr) :
    w'.Introduced (tr ++ [(w, m)]) := by
  by_cases hm : ∃ buf length client, m = .tlv 2 buf length client
  · obtain ⟨buf, length, client, rfl⟩ := hm
    have hcases := (hello_cases hw buf length (sockaddr6ToNeighbor client)).2
    rw [show after (hello buf length (sockaddr6ToNeighbor client)) w = w' from hmove.symm,
      helloIdent_eq] at hcases
    cases hheard : heardBy w (.tlv 2 buf length client) with
    | none =>
      rw [hheard] at hcases
      intro e he
      exact (h.append _) e (hcases ▸ he)
    | some hd =>
      rw [hheard] at hcases
      obtain ⟨u, v, rc, hprints, hadd, hneighbors⟩ := hcases
      have hu : u.neighbors = w.neighbors := hprints.neighbors
      obtain ⟨msg, htree, -⟩ := hadd.tree
      rw [hu] at htree
      have hlast : hd ∈ heard (tr ++ [(w, .tlv 2 buf length client)]) := by
        rw [heard_append]
        exact List.mem_append_right _
          (List.mem_filterMap.mpr ⟨_, List.mem_singleton_self _, hheard⟩)
      intro e he
      rw [hneighbors] at he
      rcases htree.mem hw.neighbors he with ⟨he, -⟩ | ⟨-, -, a, -, -, rfl⟩ | ⟨-, e₀, he₀, -, rfl⟩
      · exact (h.append _) e he
      · exact ⟨hd, hlast, place_of_heardBy hheard, rfl⟩
      · exact (h.append _) e₀ he₀
  · have hsettles := hmove.settles (fun buf length client heq => hm ⟨buf, length, client, heq⟩) hw
    intro e he
    exact (h.append _) e (hsettles.2.subset he)

/-- The entries of `DATAF` hold what has been given to `add_message_to_flood`. -/
def World.Filed (w : World) (tr : List (World × Move)) : Prop :=
  ∀ a f, w.floodAt a = some f → ∃ x ∈ tr, ∃ v, x.2.given x.1 = some v ∧
    f.data = 4 :: v.2 :: Octets.read v.1 0 v.2.toNat

theorem filed_step {m : Move} {w w' : World} {tr : List (World × Move)} (hmove : m.Does w w')
    (hw : w.Sound) (hr : w.Register) (h : w.Filed tr) : w'.Filed (tr ++ [(w, m)]) := by
  intro a f' hf'
  rcases hmove.data hw hr hf' with ⟨f, hf, hdata⟩ | ⟨-, v, hgiven, hdata⟩
  · obtain ⟨x, hx, v, hgiven, hold⟩ := h a f hf
    exact ⟨x, List.mem_append_left _ hx, v, hgiven, hdata.trans hold⟩
  · exact ⟨(w, m), List.mem_append_right _ (List.mem_singleton_self _), v, hgiven, hdata⟩

/-! ### Moves -/

section Moves

variable {P : UInt8 → Mem → UInt8 → Sockaddr → Prop} {m : Move} {w w' : World}
  {tr : List (World × Move)}

/-- A neighbour has given the identifier in its record. -/
theorem caused_longHello {id : UInt64} (h : w.Introduced tr) {e : NeighborPtr × Ident}
    (he : e ∈ w.neighbors.inorder) : Caused id tr (neighborToSockaddr6 e.1.toNeighbor) 2
      (u64Bytes id ++ u64Bytes e.2.id) := by
  obtain ⟨hd, hheard, hplace, hid⟩ := h e he
  rw [← hid]
  refine .longHello hheard (hplace.trans ?_)
  exact neighborToSockaddr6_eq_iff.mp (neighborToSockaddr6_sockaddr6ToNeighbor _).symm

/-- What a turn of the flooding loop says. -/
theorem turnAllowed_of_filed {flood tmp : Nat} {currentTime : Int} (h : w.Filed tr) :
    TurnAllowed (Caused w.id (tr ++ [(w, .turn flood currentTime tmp)])) w flood tmp := by
  intro f nw hunder hown
  have hlast : (w, Move.turn flood currentTime tmp) ∈ tr ++ [(w, .turn flood currentTime tmp)] :=
    List.mem_append_right _ (List.mem_singleton_self _)
  refine ⟨fun hfive => ?_, ?_⟩
  · refine @Caused.goaway _ _ _ _ hlast nw.sym ?_ rfl _
    rw [effect_turn hunder, if_neg (not_not_intro hown), if_pos hfive]
  · obtain ⟨x, hx, v, hgiven, hdata⟩ := h flood f (under_eq_some hunder).1
    exact ⟨v.2, _, hdata, length_read _ _ _, .data (List.mem_append_left _ hx) hgiven⟩

/-- **A move says nothing without a cause.** -/
theorem Lawful.utters (h : Lawful P m w w') (hw : w.Sound) (hintro : w.Introduced tr)
    (hfiled : w.Filed tr) : Utters (Caused w.id (tr ++ [(w, m)])) w w' := by
  have hlast : (w, m) ∈ tr ++ [(w, m)] := List.mem_append_right _ (List.mem_singleton_self _)
  have hbefore := hintro.append [(w, m)]
  have hafter := introduced_step h.does hw hintro
  have hdoes := h.does
  cases m with
  | idle =>
    have hstill := h.still rfl
    obtain ⟨ext, hlog, hall⟩ := hstill.kept
    refine utters_of_boxes hstill.toIdle.boxes hstill.msgs ⟨ext, hlog, fun o ho => ?_⟩
    have hkept := hall o ho
    cases o with
    | sendto server bytes => exact hkept.elim
    | _ => trivial
  | tlv type buf length client =>
    rw [show w' = _ from hdoes] at hafter ⊢
    unfold handleTlv at hafter ⊢
    split
    · exact Utters.refl w
    · exact Utters.refl w
    · exact utters_hello fun e he => caused_longHello hafter he
    · exact utters_neighbour buf length _ w
    · refine utters_data length (sockaddr6ToNeighbor_msg client) ?_ w
      rw [neighborToSockaddr6_sockaddr6ToNeighbor]
      exact .ack hlast
    · exact utters_ack buf length _ w
    · exact utters_goaway buf length _ w
    · exact utters_warning buf length _ w
  | say got =>
    rw [show w' = _ from hdoes]
    exact utters_localMessage got w
  | hellos =>
    rw [show w' = _ from hdoes]
    exact utters_sendHelloEveryone _ fun e he => ⟨he, caused_longHello hbefore he⟩
  | advertise =>
    rw [show w' = _ from hdoes]
    refine utters_sendSymetricalEveryone fun server e he => ?_
    obtain ⟨hd, hheard, hplace, -⟩ := hbefore e he
    exact .neighbour hlast hheard hplace
  | shortHellos =>
    rw [show w' = _ from hdoes]
    exact utters_sendShorthelloEveryone _ fun _ => .shortHello hlast
  | forget key =>
    rw [show w' = _ from hdoes]
    exact utters_removePotential key w
  | expire mem sym =>
    rw [show w' = _ from hdoes]
    refine @utters_expire _ _ 3 (by decide) sym w fun hown => ?_
    exact worded_goaway mem (@Caused.goaway _ _ _ _ hlast sym (if_pos hown) rfl [])
  | turn flood currentTime tmp =>
    rw [show w' = _ from hdoes]
    exact utters_floodTurn (turnAllowed_of_filed hfiled) currentTime
  | flush =>
    rw [show w' = _ from hdoes]
    exact utters_sendToEveryoneNow _ fun _ he => he

end Moves

/-! ### Runs -/

/-- The history explains what is in the state and in the log. -/
structure World.Explained (w : World) (tr : List (World × Move)) : Prop where
  sound : w.Sound
  register : w.Register
  introduced : w.Introduced tr
  filed : w.Filed tr
  awaits : w.Awaits (Caused w.id tr)
  log : ∀ o ∈ w.log, o.Utters (Caused w.id tr)

theorem explained_nil {w : World} (h : w.Initial) : w.Explained [] := by
  have hnobody : ∀ e, e ∉ w.neighbors.inorder := by
    rw [h.neighbors]
    exact fun _ => List.not_mem_nil
  refine ⟨sound_of_initial h, register_of_initial h, fun e he => absurd he (hnobody e),
    fun a f hf => ?_, fun e he => absurd he (hnobody e), fun o ho => ?_⟩
  · unfold World.floodAt at hf
    rw [h.dataf] at hf
    cases hf
  · rw [h.log] at ho
    cases ho

theorem Obs.Utters.append {o : Obs} {id : UInt64} {tr : List (World × Move)}
    (h : o.Utters (Caused id tr)) (tr' : List (World × Move)) :
    o.Utters (Caused id (tr ++ tr')) := by
  cases o with
  | sendto server bytes =>
    obtain ⟨body, hbytes, hworded⟩ := h
    exact ⟨body, hbytes, hworded.mono fun _ _ hcaused => hcaused.append tr'⟩
  | _ => trivial

theorem World.Explained.step {P : UInt8 → Mem → UInt8 → Sockaddr → Prop} {m : Move}
    {w w' : World} {tr : List (World × Move)} (h : w.Explained tr) (hmove : Lawful P m w w') :
    w'.Explained (tr ++ [(w, m)]) := by
  have hid : w'.id = w.id := hmove.does.elapsed.id
  have hawaits : w.Awaits (Caused w.id (tr ++ [(w, m)])) := fun e he =>
    (h.awaits e he).mono fun _ _ hcaused => hcaused.append _
  have huttered := hmove.utters h.sound h.introduced h.filed h.sound hawaits
  obtain ⟨ext, hlog, hall⟩ := huttered.log
  refine ⟨huttered.sound, (hmove.does.files h.sound h.register).1,
    introduced_step hmove.does h.sound h.introduced,
    filed_step hmove.does h.sound h.register h.filed, hid ▸ huttered.awaits, fun o ho => ?_⟩
  rw [hlog] at ho
  rw [hid]
  rcases List.mem_append.mp ho with ho | ho
  · exact (h.log o ho).append _
  · exact hall o ho

theorem explained_of_run {P : UInt8 → Mem → UInt8 → Sockaddr → Prop} {w₀ w : World}
    {tr : List (World × Move)} (hinit : w₀.Initial) (hrun : Run (Lawful P) w₀ tr w) :
    w.Explained tr := by
  induction hrun with
  | nil => exact explained_nil hinit
  | snoc _ hmove ih => exact ih.step hmove

theorem World.Explained.sent {w : World} {tr : List (World × Move)} (h : w.Explained tr)
    {server : Sockaddr} {bytes : List UInt8} (hsent : .sendto server bytes ∈ w.log) :
    ∃ body, bytes = datagram body ∧ Worded (Caused w.id tr server) body := h.log _ hsent

/-- **Nothing is said without a cause.**  In every run, each datagram that has been
sent is made of TLVs that the history of the run explains. -/
theorem caused_of_run {w₀ w : World} {tr : List (World × Move)} (hinit : w₀.Initial)
    (hrun : Run (Lawful anyTlv) w₀ tr w) {server : Sockaddr} {bytes : List UInt8}
    (hsent : .sendto server bytes ∈ w.log) :
    ∃ body, bytes = datagram body ∧ Worded (Caused w₀.id tr server) body := by
  have hid : w.id = w₀.id :=
    (elapsed_of_run (hrun.mono fun _ _ _ hmove => hmove.does)).id
  rw [← hid]
  exact (explained_of_run hinit hrun).sent hsent

/-- The answer to a short Hello. -/
theorem caused_answer :
    let moves := [shortHello 7, .flush]
    .sendto remote (datagram (Tlv.longHello 1 7).bytes) ∈ (actAll moves (bootAt 0)).log ∧
      ∃ body, datagram (Tlv.longHello 1 7).bytes = datagram body ∧
        Worded (Caused 1 (actHistory moves (bootAt 0)) remote) body := by
  intro moves
  have hsent : .sendto remote (datagram (Tlv.longHello 1 7).bytes) ∈
      (actAll moves (bootAt 0)).log := by decide +kernel
  have hidle : .idle ∉ moves := by simp [moves, shortHello]
  exact ⟨hsent, caused_of_run (initial_boot _) (run_lawful moves (bootAt 0) hidle) hsent⟩

end FloodPeer
