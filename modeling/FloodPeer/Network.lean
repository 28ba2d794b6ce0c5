/-
FloodPeer/Network.lean

Several peers, and the datagrams between them.

A step of the network is a move of one peer.  What a peer has sent is in its
log, and from then on it may come to the addressee, at any time and any number
of times; the datagrams of strangers come at any time.  The turns of the main
loops are runs of this network (`run_turn`).

A long Hello that names its receiver was sent by a peer that had heard a Hello
of the receiver (`grounded_of_run`).
-/
import FloodPeer.Speech
import FloodPeer.Directory

namespace FloodPeer

open Octets StateLogic SortedAssoc Runs

variable {ι : Type}

/-! ### Addresses -/

theorem sockaddr_eq_of_place {client client' : Sockaddr}
    (h : (sockaddr6ToNeighbor client).place = (sockaddr6ToNeighbor client').place) :
    client = client' := by
  rw [← neighborToSockaddr6_sockaddr6ToNeighbor client, neighborToSockaddr6_eq_iff.mpr h,
    neighborToSockaddr6_sockaddr6ToNeighbor]

/-- The identifier in the record of an address. -/
def World.known (w : World) (client : Sockaddr) : Option UInt64 :=
  (getIdent (sockaddr6ToNeighbor client) w.neighbors).map Ident.id

/-! ### Steps -/

/-- The datagram consists of encodings, and one of them is the TLV that the
parser hands over with this buffer. -/
def Conveys (bytes : List UInt8) (type : UInt8) (buf : Mem) (length : UInt8) : Prop :=
  ∃ (ts : List Tlv) (t : Tlv) (mem : Mem), bytes = datagram (ts.flatMap Tlv.bytes) ∧
    t ∈ ts ∧ t.handled = true ∧ type = t.type ∧ length = UInt8.ofNat t.value.length ∧
    buf = write mem 0 t.value

/-- The TLV can come to `i`: it is in a datagram that has been sent to `i` by
the peer with this address, if there is one. -/
def Delivered (addr : ι → Sockaddr) (s : ι → World) (i : ι) (type : UInt8) (buf : Mem)
    (length : UInt8) (client : Sockaddr) : Prop :=
  ∃ bytes, Conveys bytes type buf length ∧
    ∀ j, client = addr j → .sendto (addr i) bytes ∈ (s j).log

/-- A step of the network. -/
structure Moves (addr : ι → Sockaddr) (x : ι × Move) (s s' : ι → World) : Prop where
  lawful : Lawful (Delivered addr s x.1) x.2 (s x.1) (s' x.1)
  others : ∀ j, j ≠ x.1 → s' j = s j

variable {addr : ι → Sockaddr} {s₀ s s' : ι → World} {tr : List ((ι → World) × ι × Move)}

/-- The moves of one peer. -/
def history [DecidableEq ι] (i : ι) (tr : List ((ι → World) × ι × Move)) : List (World × Move) :=
  tr.filterMap fun x => if x.2.1 = i then some (x.1 i, x.2.2) else none

theorem history_snoc [DecidableEq ι] (i : ι) (tr : List ((ι → World) × ι × Move)) (s : ι → World)
    (x : ι × Move) : history i (tr ++ [(s, x)]) =
      history i tr ++ if x.1 = i then [(s i, x.2)] else [] := by
  unfold history
  rw [List.filterMap_append]
  by_cases h : x.1 = i <;> simp [h]

/-- **Each peer makes a run of its own.** -/
theorem run_peer [DecidableEq ι] (h : Run (Moves addr) s₀ tr s) (i : ι) :
    Run (Lawful anyTlv) (s₀ i) (history i tr) (s i) := by
  induction h with
  | nil => exact .nil
  | @snoc tr s s' x _ hstep ih =>
    rw [history_snoc]
    by_cases hi : x.1 = i
    · subst hi
      rw [if_pos rfl]
      exact .snoc ih ⟨hstep.lawful.does, fun _ _ _ _ _ => trivial, hstep.lawful.still⟩
    · rw [if_neg hi, List.append_nil, hstep.others i (Ne.symm hi)]
      exact ih

theorem elapsed_of_network (h : Run (Moves addr) s₀ tr s) (i : ι) : Elapsed (s₀ i) (s i) := by
  classical
  exact elapsed_of_run ((run_peer h i).mono fun _ _ _ hmove => hmove.does)

/-- The invariant of each peer, and the origin of what it has sent. -/
theorem honest_of_network (hinit : ∀ i, (s₀ i).Initial) (h : Run (Moves addr) s₀ tr s) (i : ι) :
    (s i).Honest ∧ ∀ server bytes, .sendto server bytes ∈ (s i).log →
      ∃ body dest, bytes = datagram body ∧ Speech (s i).id dest body := by
  classical
  exact honest_of_run (hinit i) (run_peer h i)

/-! ### The main loops -/

/-- The length of a TLV that the parser hands over. -/
theorem length_of_step {body : Mem} {bodyLength fuel pos : Nat} {type length : UInt8} {at' : Nat}
    {value : List UInt8} (h : Step.tlv type length at' value ∈ steps body bodyLength fuel pos) :
    length = UInt8.ofNat value.length := by
  induction fuel generalizing pos with
  | zero =>
    unfold steps at h
    split at h <;> simp at h
  | succ fuel ih =>
    unfold steps at h
    split at h
    · split at h
      · exact ih ((List.mem_cons.mp h).resolve_left (by simp))
      · have h := (List.mem_cons.mp h).resolve_left (by simp)
        have h := (List.mem_cons.mp h).resolve_left (by simp)
        split at h
        · exact absurd h List.not_mem_nil
        · split at h
          · rcases List.mem_cons.mp h with heq | h
            · obtain ⟨rfl, rfl, rfl, rfl⟩ := Step.tlv.inj heq
              rw [length_read, UInt8.ofNat_toNat]
            · exact ih h
          · exact ih h
    · exact absurd h List.not_mem_nil

/-- The receive buffer of `i` holds a datagram that can come to it. -/
def Arrives (addr : ι → Sockaddr) (s : ι → World) (i : ι) (m : MainState) : Prop :=
  ∃ ts : List Tlv, (MessageH.ofMem m.msg).content = ts.flatMap Tlv.bytes ∧
    ∀ j, m.client = addr j → .sendto (addr i) (datagram (ts.flatMap Tlv.bytes)) ∈ (s j).log

/-- The parser hands over TLVs of that datagram. -/
theorem allows_of_arrives {i : ι} {m : MainState} (h : Arrives addr s i m) :
    Allows (Delivered addr s i) m.client (MessageH.ofMem m.msg).way := by
  obtain ⟨ts, hcontent, hsent⟩ := h
  intro type length pos value hstep mem
  have hdispatched := dispatched_steps (MessageH.ofMem m.msg).body (MessageH.ofMem m.msg).declared
    (MessageH.ofMem m.msg).declared 0 ts (by omega) hcontent
  have hmem : (type, value) ∈ (ts.filter Tlv.handled).map fun t => (t.type, t.value) := by
    rw [← hdispatched]
    refine List.mem_filterMap.mpr ⟨.dispatch type pos value, ?_, rfl⟩
    exact List.mem_flatMap.mpr ⟨_, hstep, by simp [Step.obs]⟩
  obtain ⟨t, ht, htv⟩ := List.mem_map.mp hmem
  obtain ⟨ht, hhandled⟩ := List.mem_filter.mp ht
  obtain ⟨rfl, rfl⟩ := Prod.mk.inj htv
  exact ⟨_, ⟨ts, t, mem, rfl, ht, hhandled, rfl, length_of_step hstep, rfl⟩, hsent⟩

/-- A datagram in a buffer is read back as its body. -/
theorem content_of_datagram {mem : Mem} {body : List UInt8}
    (hmem : Octets.read mem 0 (datagram body).length = datagram body)
    (hsize : body.length < 65536) : (MessageH.ofMem mem).content = body := by
  have hlength := length_datagram body
  obtain ⟨hhead, hbody⟩ := (@read_eq_append_iff mem 0 (datagram body).length
    (93 :: 2 :: toLE 2 (swap16 (UInt16.ofNat body.length)).toNat) body (by
      rw [hlength, List.length_cons, List.length_cons, length_toLE]
      omega)).mp hmem
  rw [List.length_cons, List.length_cons, length_toLE, read_succ, read_succ] at hhead
  have hfield : Octets.read mem 2 2 = toLE 2 (swap16 (UInt16.ofNat body.length)).toNat :=
    (List.cons.inj (List.cons.inj hhead).2).2
  unfold MessageH.content
  rw [declared_of_read hsize hfield]
  rw [List.length_cons, List.length_cons, length_toLE] at hbody
  refine Eq.trans (read_congr fun i _ => ?_) hbody
  show mem (4 + (0 + i)) = mem (0 + (2 + 1 + 1) + i)
  congr 1
  omega

/-- A datagram that `recvfrom` has read. -/
theorem arrives_of_datagram {i : ι} {m : MainState} {ts : List Tlv} {client : Sockaddr}
    (hsize : (ts.flatMap Tlv.bytes).length ≤ maxSize)
    (hsent : ∀ j, client = addr j →
      .sendto (addr i) (datagram (ts.flatMap Tlv.bytes)) ∈ (s j).log) :
    Arrives addr s i (recvfrom m (.datagram (datagram (ts.flatMap Tlv.bytes)) client)).1 := by
  have hmax : maxSize = 4096 := rfl
  have hall : (datagram (ts.flatMap Tlv.bytes)).take sizeofMessage =
      datagram (ts.flatMap Tlv.bytes) := List.take_of_length_le (by
    rw [length_datagram]
    show _ ≤ 4 + maxSize
    omega)
  refine ⟨ts, ?_, hsent⟩
  show (MessageH.ofMem (write m.msg 0
    ((datagram (ts.flatMap Tlv.bytes)).take sizeofMessage))).content = _
  rw [hall]
  exact content_of_datagram (read_write_self _ _ _) (by omega)

/-- A run of one peer, with TLVs that can come to it, is one of the network: what
could come at its beginning can still come later. -/
theorem run_lift [DecidableEq ι] {i : ι} {w : World} {tr : List (World × Move)}
    (h : Run (Lawful (Delivered addr s i)) (s i) tr w) :
    ∃ tr', Run (Moves addr) s tr' (Function.update s i w) := by
  induction h with
  | nil => exact ⟨[], by rw [Function.update_eq_self]; exact .nil⟩
  | @snoc tr v w m hrun hmove ih =>
    obtain ⟨tr', hrun'⟩ := ih
    have hlog : ∀ j, (s j).log <+: (Function.update s i v j).log :=
      fun j => (elapsed_of_network hrun' j).log
    refine ⟨_, hrun'.snoc (m := (i, m)) ⟨⟨?_, ?_, ?_⟩, ?_⟩⟩
    · rw [Function.update_self, Function.update_self]
      exact hmove.does
    · intro type buf length client hm
      obtain ⟨bytes, hconveys, hsent⟩ := hmove.allowed type buf length client hm
      exact ⟨bytes, hconveys, fun j hj => (hlog j).subset (hsent j hj)⟩
    · rw [Function.update_self, Function.update_self]
      exact hmove.still
    · intro j hj
      rw [Function.update_of_ne hj, Function.update_of_ne hj]

/-- **A turn of a main loop is a run of the network**, when what it reads is a
datagram that can come to it. -/
theorem run_turn [DecidableEq ι] (s : ι → World) (i : ι) {wake : Wake} {m : MainState}
    (h : ∀ r, wake.soc = some r → Arrives addr s i (recvfrom m r).1) :
    ∃ tr, Run (Moves addr) s tr (Function.update s i (after (iteration wake m) (s i))) := by
  have hallows : AllowsWake (Delivered addr s i) m wake :=
    fun r hr => allows_of_arrives (h r hr)
  obtain ⟨tr, hrun⟩ := plays_iteration hallows (s i)
  exact run_lift hrun

/-! ### Hellos -/

/-- A Hello in a datagram is one of those that were said. -/
theorem hello_of_conveys {source dest : UInt64} {body bytes : List UInt8} {buf : Mem}
    {length : UInt8} (h : Conveys bytes 2 buf length) (hbytes : bytes = datagram body)
    (hspeech : Speech source dest body) :
    u64At buf 0 = source ∧ (length = 16 → u64At buf 8 = dest) := by
  obtain ⟨ts, t, mem, hts, ht, -, htype, hlength, rfl⟩ := h
  have hbody : body = ts.flatMap Tlv.bytes := by
    rw [← drop_datagram body, ← hbytes, hts, drop_datagram]
  rcases hello_of_speech hspeech hbody ht htype.symm with rfl | rfl
  · obtain ⟨hshort, hid⟩ := shortHello_fields mem source
    exact ⟨hid, fun h16 => absurd (hlength.symm.trans h16) hshort⟩
  · obtain ⟨-, hid, hdest⟩ := longHello_fields mem source dest
    exact ⟨hid, fun _ => hdest⟩

/-- A Hello from the address of a peer gives its identifier. -/
theorem id_of_delivered (hinit : ∀ i, (s₀ i).Initial) (hrun : Run (Moves addr) s₀ tr s) {i j : ι}
    {buf : Mem} {length : UInt8} (h : Delivered addr s i 2 buf length (addr j)) :
    u64At buf 0 = (s j).id := by
  obtain ⟨bytes, hconveys, hsent⟩ := h
  obtain ⟨body, dest, hbytes, hspeech⟩ := (honest_of_network hinit hrun j).2 _ _ (hsent j rfl)
  exact (hello_of_conveys hconveys hbytes hspeech).1

/-- The record of a peer, and the last Hello from it, have its identifier. -/
def Genuine (addr : ι → Sockaddr) (s : ι → World) (val : Ident) (h : Heard) : Prop :=
  ∀ j, h.place = (sockaddr6ToNeighbor (addr j)).place → val.id = (s j).id ∧ h.id = (s j).id

/-- **The records of the peers are right.**  The identifier of a record was that
of the Hello which made it, and a Hello with another one never comes. -/
theorem genuine_of_run [DecidableEq ι] (hinit : ∀ i, (s₀ i).Initial)
    (hrun : Run (Moves addr) s₀ tr s) (i : ι) :
    Recorded (Genuine addr s₀) (s i) (history i tr) := by
  induction hrun with
  | nil => exact recorded_nil (hinit i)
  | @snoc tr s s' x hrun hstep ih =>
    rw [history_snoc]
    by_cases hi : x.1 = i
    · subst hi
      rw [if_pos rfl]
      have hheard : ∀ h, heardBy (s x.1) x.2 = some h → ∀ j,
          h.place = (sockaddr6ToNeighbor (addr j)).place → h.id = (s₀ j).id := by
        intro h hh j hplace
        obtain ⟨⟨buf, length, client, hx⟩, -⟩ := heardBy_cases hh
        have hdelivered := hstep.lawful.allowed 2 buf length client hx
        rw [hx] at hh
        obtain rfl := sockaddr_eq_of_place ((place_of_heardBy hh).symm.trans hplace)
        rw [id_of_heardBy hh, id_of_delivered hinit hrun hdelivered,
          (elapsed_of_network hrun j).id]
      refine ih.step (honest_of_network hinit hrun x.1).1.sound hstep.lawful.does ?_ ?_
      · exact fun h hh j hplace => ⟨hheard h hh j hplace, hheard h hh j hplace⟩
      · -- an old record has the identifier of a Hello from there
        intro h hh e he hplace j hj
        obtain ⟨h₀, hlast, hgenuine⟩ := ih e he
        obtain ⟨hplace₀, -⟩ := mem_of_lastHeard hlast
        exact ⟨(hgenuine j (hplace₀.trans (hplace.trans hj))).1, hheard h hh j hj⟩
    · rw [if_neg hi, List.append_nil, hstep.others i (Ne.symm hi)]
      exact ih

/-! ### Where long Hellos come from -/

/-- In this step `a` sends the datagram. -/
def Transmits (a : ι) (server : Sockaddr) (bytes : List UInt8) (s s' : ι → World) : Prop :=
  .sendto server bytes ∈ (s a).since (s' a)

/-- In the step `x` the peer `a` accepts a Hello that `b` has sent. -/
def Hears (addr : ι → Sockaddr) (a b : ι) (x : (ι → World) × ι × Move) : Prop :=
  x.2.1 = a ∧ ∃ buf length, x.2.2 = .tlv 2 buf length (addr b) ∧
    (heardBy (x.1 a) x.2.2).isSome ∧ u64At buf 0 = (x.1 b).id ∧
    Delivered addr x.1 a 2 buf length (addr b)

/-- In the step `m` of `a`, from `u` to `v`, the record of `b` is there and gives
the identifier of `b`; by then a Hello of `b` has been heard.  The step itself
may be that Hello, which `send_hello_everyone` answers. -/
structure Grounded (addr : ι → Sockaddr) (a b : ι) (past : List ((ι → World) × ι × Move))
    (m : Move) (u v : ι → World) : Prop where
  known : (u a).known (addr b) = some (u b).id ∨ (v a).known (addr b) = some (u b).id
  hears : ∃ x ∈ past ++ [(u, a, m)], Hears addr a b x

theorem known_of_mem {w : World} (hw : w.Sound) {client : Sockaddr} {e : NeighborPtr × Ident}
    (he : e ∈ w.neighbors.inorder) (hplace : entryPlace e = (sockaddr6ToNeighbor client).place) :
    w.known client = some e.2.id := by
  unfold World.known
  rw [getIdent_of_mem hw.neighbors he hplace]
  rfl

/-- A peer with a record has been heard. -/
theorem hears_of_mem (hinit : ∀ i, (s₀ i).Initial) (hrun : Run (Moves addr) s₀ tr s) {a b : ι}
    {e : NeighborPtr × Ident} (he : e ∈ (s a).neighbors.inorder)
    (hplace : entryPlace e = (sockaddr6ToNeighbor (addr b)).place) :
    e.2.id = (s₀ b).id ∧ ∃ x ∈ tr, Hears addr a b x := by
  classical
  obtain ⟨h, hlast, hgenuine⟩ := genuine_of_run hinit hrun a e he
  obtain ⟨hentry, hmem⟩ := mem_of_lastHeard hlast
  have hb := hentry.trans hplace
  refine ⟨(hgenuine b hb).1, ?_⟩
  obtain ⟨y, hy, hheard⟩ := List.mem_filterMap.mp hmem
  obtain ⟨x, hx, hxy⟩ := List.mem_filterMap.mp hy
  obtain ⟨ha, hyx⟩ := Option.ite_none_right_eq_some.mp hxy
  obtain rfl := Option.some.inj hyx
  obtain ⟨⟨buf, length, client, hm⟩, -⟩ := heardBy_cases hheard
  -- the step in which it was heard
  obtain ⟨tr₁, tr₂, rfl⟩ := List.append_of_mem hx
  obtain ⟨hrun₁, u, hstep, -⟩ := hrun.split_cons
  have hclient : client = addr b := by
    dsimp only at hheard
    rw [hm] at hheard
    exact sockaddr_eq_of_place ((place_of_heardBy hheard).symm.trans hb)
  subst hclient
  have hdelivered := hstep.lawful.allowed 2 buf length _ hm
  rw [ha] at hdelivered
  refine ⟨x, hx, ha, buf, length, hm, ?_, id_of_delivered hinit hrun₁ hdelivered, hdelivered⟩
  exact Option.isSome_iff_exists.mpr ⟨h, hheard⟩

/-- **A long Hello to the address of a peer** is sent when its record is there. -/
theorem grounded_of_transmits (hinit : ∀ i, (s₀ i).Initial) {past : List ((ι → World) × ι × Move)}
    {u v : ι → World} {a b : ι} {m : Move} (hrun : Run (Moves addr) s₀ past u)
    (hstep : Moves addr (a, m) u v) {bytes : List UInt8} {buf : Mem}
    (hconveys : Conveys bytes 2 buf 16) (hsent : Transmits a (addr b) bytes u v) :
    u64At buf 0 = (s₀ a).id ∧ u64At buf 8 = (s₀ b).id ∧ Grounded addr a b past m u v := by
  have hrun' := hrun.snoc hstep
  have hu := (honest_of_network hinit hrun a).1
  have hv := (honest_of_network hinit hrun' a).1
  have hid : ∀ i, (u i).id = (s₀ i).id := fun i => (elapsed_of_network hrun i).id
  have hid' : ∀ i, (v i).id = (s₀ i).id := fun i => (elapsed_of_network hrun' i).id
  obtain ⟨ext, hlog, hall⟩ := hstep.lawful.tells hu
  have hmem : .sendto (addr b) bytes ∈ ext := by
    rw [← since_eq hlog]
    exact hsent
  -- a long Hello is not for everybody
  have hrecord : ∀ w : World, w.Says (addr b) bytes → u64At buf 0 = w.id ∧
      ∃ e ∈ w.neighbors.inorder, entryPlace e = (sockaddr6ToNeighbor (addr b)).place ∧
        u64At buf 8 = e.2.id := by
    intro w hsays
    obtain ⟨body, hbytes, hmute | ⟨e, he, hserver, hspeech⟩⟩ := hsays
    · have hzero := (hello_of_conveys hconveys hbytes (hmute 0)).2 rfl
      have hone := (hello_of_conveys hconveys hbytes (hmute 1)).2 rfl
      exact absurd (hzero.symm.trans hone) (by decide)
    · obtain ⟨hsource, hdest⟩ := hello_of_conveys hconveys hbytes hspeech
      rw [← neighborToSockaddr6_sockaddr6ToNeighbor (addr b), neighborToSockaddr6_eq_iff] at hserver
      exact ⟨hsource, e, he, hserver.symm, hdest rfl⟩
  rcases hall _ hmem with hsays | hsays
  · obtain ⟨hsource, e, he, hplace, hdest⟩ := hrecord _ hsays
    obtain ⟨hgenuine, x, hx, hears⟩ := hears_of_mem hinit hrun he hplace
    refine ⟨hsource.trans (hid a), hdest.trans hgenuine, .inl ?_, x, ?_, hears⟩
    · rw [known_of_mem hu.sound he hplace, hgenuine, hid]
    · exact List.mem_append_left _ hx
  · obtain ⟨hsource, e, he, hplace, hdest⟩ := hrecord _ hsays
    obtain ⟨hgenuine, x, hx, hears⟩ := hears_of_mem hinit hrun' he hplace
    refine ⟨hsource.trans (hid' a), hdest.trans hgenuine, .inr ?_, x, hx, hears⟩
    rw [known_of_mem hv.sound he hplace, hgenuine, hid]

/-- **Symmetry is grounded in a real exchange.**  When a long Hello from the
address of `a` comes to `b`, it is addressed to `b`; `a` has sent it, and
whenever `a` has sent it, `b` was among its neighbours. -/
theorem grounded_of_run (hinit : ∀ i, (s₀ i).Initial) (hrun : Run (Moves addr) s₀ tr s) {a b : ι}
    {buf : Mem} (hstep : Moves addr (b, .tlv 2 buf 16 (addr a)) s s') :
    u64At buf 0 = (s a).id ∧ u64At buf 8 = (s b).id ∧
    (∃ bytes past m u v, Conveys bytes 2 buf 16 ∧
      Stage (Moves addr) s₀ tr s past (a, m) u v ∧ Transmits a (addr b) bytes u v) ∧
    ∀ bytes past m u v, Conveys bytes 2 buf 16 →
      Stage (Moves addr) s₀ tr s past (a, m) u v → Transmits a (addr b) bytes u v →
        Grounded addr a b past m u v := by
  have hid : ∀ i, (s i).id = (s₀ i).id := fun i => (elapsed_of_network hrun i).id
  obtain ⟨bytes, hconveys, hsent⟩ := hstep.lawful.allowed 2 buf 16 (addr a) rfl
  have hnever : .sendto (addr b) bytes ∉ (s₀ a).log := by
    rw [(hinit a).log]
    exact List.not_mem_nil
  obtain ⟨past, ⟨i, m⟩, u, v, hstage, hbefore, hafter⟩ :=
    @Run.begins _ _ _ _ _ _ (fun t => .sendto (addr b) bytes ∈ (t a).log) hrun hnever (hsent a rfl)
  obtain rfl : i = a := by
    by_contra hne
    rw [hstage.move.others a (Ne.symm hne)] at hafter
    exact hbefore hafter
  have htransmits : Transmits i (addr b) bytes u v := by
    have hlog := log_eq_since (Move.Does.elapsed hstage.move.lawful.does).log
    rw [hlog] at hafter
    exact (List.mem_append.mp hafter).resolve_left hbefore
  obtain ⟨hsource, hdest, -⟩ :=
    grounded_of_transmits hinit hstage.before hstage.move hconveys htransmits
  refine ⟨hsource.trans (hid i).symm, hdest.trans (hid b).symm,
    ⟨bytes, past, m, u, v, hconveys, hstage, htransmits⟩, ?_⟩
  intro bytes' past' m' u' v' hconveys' hstage' hsent'
  exact (grounded_of_transmits hinit hstage'.before hstage'.move hconveys' hsent').2.2

/-! ### Two peers

`true` is told of `false` by a stranger, and says hello. -/

/-- The addresses of two peers. -/
def pairAddr (i : Bool) : Sockaddr where
  addr := Vector.replicate 16 (if i then 3 else 2)
  port := 5

/-- Two peers with the identifiers `1` and `2`. -/
def pairBoot (i : Bool) : World := { World.boot (fun _ => 0) with id := if i then 2 else 1 }

/-- The TLV comes from `client`. -/
def receipt (t : Tlv) (client : Sockaddr) : Move :=
  .tlv t.type (write (fun _ => 0) 0 t.value) (UInt8.ofNat t.value.length) client

/-- The state after a move of `x.1`. -/
def netAct (s : Bool → World) (x : Bool × Move) : Bool → World :=
  Function.update s x.1 (x.2.act (s x.1))

theorem moves_netAct {s : Bool → World} {x : Bool × Move} (hidle : x.2 ≠ .idle)
    (hallowed : ∀ type buf length client, x.2 = .tlv type buf length client →
      Delivered pairAddr s x.1 type buf length client) : Moves pairAddr x s (netAct s x) where
  lawful := by
    unfold netAct
    rw [Function.update_self]
    exact ⟨x.2.does_act _, hallowed, fun h => absurd h hidle⟩
  others := fun _ hj => Function.update_of_ne hj _ _

theorem moves_receipt {s : Bool → World} {i : Bool} {t : Tlv} {client : Sockaddr}
    (hhandled : t.handled = true)
    (hsent : ∀ j, client = pairAddr j → .sendto (pairAddr i) (datagram t.bytes) ∈ (s j).log) :
    Moves pairAddr (i, receipt t client) s (netAct s (i, receipt t client)) := by
  refine moves_netAct nofun fun type buf length client' heq => ?_
  obtain ⟨rfl, rfl, rfl, rfl⟩ := Move.tlv.inj heq
  refine ⟨datagram t.bytes, ⟨[t], t, _, ?_, List.mem_cons_self, hhandled, rfl, rfl, rfl⟩, hsent⟩
  rw [List.flatMap_singleton]

/-- The moves up to the long Hello of `false`. -/
def introduction : List (Bool × Move) :=
  [(true, receipt (.neighbour (Vector.replicate 16 2) (swap16 5)) remote), (true, .shortHellos),
    (false, receipt (.shortHello 2) (pairAddr true)), (false, .flush)]

theorem run_introduction :
    ∃ tr, Run (Moves pairAddr) pairBoot tr (introduction.foldl netAct pairBoot) := by
  have h₁ := @moves_receipt pairBoot true (.neighbour (Vector.replicate 16 2) (swap16 5)) remote rfl
    (fun j hj => by cases j <;> exact absurd hj (by decide))
  have h₂ := @moves_netAct (introduction.take 1 |>.foldl netAct pairBoot) (true, .shortHellos)
    nofun nofun
  have h₃ := @moves_receipt (introduction.take 2 |>.foldl netAct pairBoot) false (.shortHello 2)
    (pairAddr true) rfl (fun j hj => by
      cases j with
      | false => exact absurd hj (by decide)
      | true => decide +kernel)
  have h₄ := @moves_netAct (introduction.take 3 |>.foldl netAct pairBoot) (false, .flush)
    nofun nofun
  exact ⟨_, (((Run.single h₁).snoc h₂).snoc h₃).snoc h₄⟩

/-- The long Hello of `false` comes to `true`. -/
theorem grounded_introduction : ∃ tr s s' buf, Run (Moves pairAddr) pairBoot tr s ∧
    Moves pairAddr (true, .tlv 2 buf 16 (pairAddr false)) s s' ∧
    u64At buf 0 = (s false).id ∧ u64At buf 8 = (s true).id ∧
    ∃ bytes past m u v, Transmits false (pairAddr true) bytes u v ∧
      Grounded pairAddr false true past m u v := by
  obtain ⟨tr, hrun⟩ := run_introduction
  have hinit : ∀ i, (pairBoot i).Initial := fun i => ⟨rfl, rfl, rfl, rfl, Nat.one_pos, rfl⟩
  have hstep := @moves_receipt (introduction.foldl netAct pairBoot) true (.longHello 1 2)
    (pairAddr false) rfl (fun j hj => by
      cases j with
      | false => decide +kernel
      | true => exact absurd hj (by decide))
  obtain ⟨hsource, hdest, ⟨bytes, past, m, u, v, hconveys, hstage, hsent⟩, hall⟩ :=
    grounded_of_run hinit hrun hstep
  exact ⟨tr, _, _, _, hrun, hstep, hsource, hdest, bytes, past, m, u, v, hsent,
    hall bytes past m u v hconveys hstage hsent⟩

end FloodPeer
