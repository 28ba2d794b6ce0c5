/-
FloodPeer/Recency.lean

`DATAF` as the record of what has been said.

Every entry ever added to `DATAF` stays there until `NBDATA` more have been
added (`labels_of_run`), so that a datum is shown at most once in that time
(`recency_of_run`).  The entries are told apart by their indices as long as no
local message draws the nonce of an earlier one (`identified_of_run`).
-/
import FloodPeer.Recipients
import FloodPeer.Hellos

namespace FloodPeer

open Octets StateLogic Runs

/-! ### What is added -/

/-- What the move adds to `DATAF`: an index and the bytes that will be sent. -/
def addedBy (w : World) (m : Move) : Option (DataIndex × List UInt8) :=
  (m.given w).map fun v => (indexAt v.1, 4 :: v.2 :: Octets.read v.1 0 v.2.toNat)

/-- Everything ever added, oldest first. -/
def added (tr : List (World × Move)) : List (DataIndex × List UInt8) :=
  tr.filterMap fun x => addedBy x.1 x.2

/-- The indices and the data in `DATAF`. -/
def World.labels (w : World) : List (Option (DataIndex × List UInt8)) :=
  w.dataf.contents.map fun c => c.map fun f => (f.index, f.data)

theorem added_append (tr tr' : List (World × Move)) : added (tr ++ tr') = added tr ++ added tr' :=
  List.filterMap_append

theorem added_snoc (tr : List (World × Move)) (w : World) (m : Move) :
    added (tr ++ [(w, m)]) = added tr ++ (addedBy w m).toList := by
  rw [added_append]
  congr 1

theorem labels_eq (w : World) : w.labels = (w.dataf.entries.map label).map Prod.snd := by
  unfold World.labels CList.contents
  rw [List.map_map, List.map_map]
  rfl

/-- Relisting keeps the cells, the indices and the data. -/
theorem Relists.label {m : Move} {w w' : World} (h : Relists m w w') :
    w'.dataf.entries.map label = w.dataf.entries.map label := by
  cases h with
  | nothing _ hdataf => rw [hdataf]
  | answered index peer _ hdataf =>
    rw [hdataf]
    exact label_relist
  | gone peer _ hdataf =>
    rw [hdataf]
    exact label_relist
  | resent t l _ hdataf =>
    rw [hdataf]
    exact label_relist

/-- A move with memory to spare. -/
theorem Move.Does.labels {m : Move} {w w' : World} (h : m.Does w w') (hw : w.Sound)
    (hr : w.Register) (halloc : w.Allocates) :
    w'.labels = match addedBy w m with
      | none => w.labels
      | some a => recent (w.labels ++ [some a]) := by
  obtain ⟨-, hfiles⟩ := h.files hw hr
  unfold addedBy
  cases hgiven : m.given w with
  | none =>
    rw [hgiven] at hfiles
    show w'.labels = w.labels
    rw [labels_eq, labels_eq, Relists.label hfiles]
  | some v =>
    obtain ⟨msgSend, size⟩ := v
    rw [hgiven] at hfiles
    obtain ⟨hfiles, -⟩ := hfiles
    cases hfiles with
    | nothing _ hmem => exact absurd halloc hmem
    | entry a content _ _ hentries hcontent =>
      rcases hcontent with ⟨-, hmem⟩ | ⟨l, -, rfl⟩
      · exact absurd halloc hmem
      · show w'.labels = recent (w.labels ++ [some _])
        rw [labels_eq, labels_eq, hentries, map_recent, map_recent, List.map_append,
          List.map_append]
        rfl

/-- `DATAF` holds the most recent entries of those ever added. -/
theorem labels_of_run {w₀ w : World} {tr : List (World × Move)} (hrun : Run Move.Does w₀ tr w)
    (hinit : w₀.Initial) (halloc : w₀.Allocates) : w.labels = (recent (added tr)).map some := by
  induction hrun with
  | nil =>
    unfold World.labels
    rw [hinit.dataf]
    rfl
  | @snoc tr v u m hrun hmove ih =>
    obtain ⟨hw, hr⟩ := register_of_run hrun (sound_of_initial hinit) (register_of_initial hinit)
    rw [hmove.labels hw hr ((elapsed_of_run hrun).allocates halloc), added_snoc, ih]
    cases addedBy v m with
    | none => rw [Option.toList_none, List.append_nil]
    | some a =>
      show recent ((recent (added tr)).map some ++ [some a]) = _
      rw [map_recent, recent_recent_append, map_recent, List.map_append]
      rfl

/-! ### What is shown -/

/-- Only undefined behaviour has been recorded. -/
def Faults (w w' : World) : Prop := ∃ ext, (∀ o ∈ ext, o = Obs.fault) ∧ w'.log = w.log ++ ext

theorem faults_of_log {w w' : World} (h : w'.log = w.log) : Faults w w' :=
  ⟨[], fun _ ho => absurd ho List.not_mem_nil, by rw [h, List.append_nil]⟩

theorem filer_faults : Filer Faults where
  refl := fun _ => faults_of_log rfl
  trans := by
    rintro u v w ⟨e₁, h₁, hv⟩ ⟨e₂, h₂, hw⟩
    exact ⟨e₁ ++ e₂, fun o ho => (List.mem_append.mp ho).elim (h₁ o) (h₂ o),
      by rw [hw, hv, List.append_assoc]⟩
  onMalloc := fun w => by
    cases h : w.mallocs.head with
    | true => exact faults_of_log (by rw [(malloc_of_true h).2])
    | false => exact faults_of_log (by rw [(malloc_of_false h).2])
  onGetSeconds := fun _ => faults_of_log rfl
  onRand := fun _ => faults_of_log rfl
  onUninit := fun _ => faults_of_log rfl
  onFault := fun w => ⟨[.fault], fun _ ho => List.mem_singleton.mp ho, rfl⟩
  onSetSyms := fun _ _ _ => faults_of_log rfl

/-- A datum that is being flooded is acknowledged, and that is all. -/
structure Repeated (buf : Mem) (client : Sockaddr) (w w' : World) : Prop where
  acked : ∃ ext, (∀ o ∈ ext, o = Obs.fault) ∧ w.since w' = [.valueRead 0 8, .valueRead 8 4,
    .sendto client (datagram (Tlv.ack (indexAt buf).id (indexAt buf).nonce).bytes)] ++ ext
  labels : w'.labels = w.labels

theorem repeated_data {w : World} (hr : w.Register) {buf : Mem} (length : UInt8)
    (client : Sockaddr) (hfloods : w.Floods (indexAt buf)) :
    Repeated buf client w ((Move.tlv 4 buf length client).act w) := by
  obtain ⟨u, hacked, hafter⟩ := after_data_client buf length client w
  have hfound : w.dataf.foundAt (indexAt buf) ≠ none := fun h => foundAt_eq_none_iff.mp h hfloods
  rw [if_neg hfound] at hafter
  obtain ⟨e₁, h₁, hu⟩ := hacked.log
  obtain ⟨e₂, h₂, hv⟩ := filer_faults.keeps_removeNeighborFromFlood (indexAt buf)
    (sockaddr6ToNeighbor client).ptr u
  show Repeated buf client w (after (data buf length (sockaddr6ToNeighbor client)) w)
  rw [hafter]
  refine ⟨⟨e₁ ++ e₂, fun o ho => (List.mem_append.mp ho).elim (h₁ o) (h₂ o), ?_⟩, ?_⟩
  · rw [hu, List.append_assoc, List.append_assoc] at hv
    exact since_eq hv
  · rw [labels_eq, labels_eq, dataf_removeNeighborFromFlood (hacked.dataf ▸ hr.linked),
      hacked.dataf, takeOut, label_relist]

/-- The index of the datum that `data` displays. -/
def Move.shows (m : Move) (w : World) : Option DataIndex :=
  match m with
  | .tlv type buf _ _ =>
    if type = 4 ∧ Obs.puts rouge ∈ w.since (m.act w) then some (indexAt buf) else none
  | _ => none

/-- Only a datum that is not in `DATAF` is displayed, and then it is added. -/
theorem shows_cases {m : Move} {w : World} (hr : w.Register) {index : DataIndex}
    (h : m.shows w = some index) :
    ¬ w.Floods index ∧ ∃ bytes, addedBy w m = some (index, bytes) := by
  unfold Move.shows at h
  cases m with
  | tlv type buf length client =>
    obtain ⟨⟨rfl, hputs⟩, hindex⟩ := Option.ite_none_right_eq_some.mp h
    obtain rfl := Option.some.inj hindex
    have hfloods : ¬ w.Floods (indexAt buf) := by
      intro hfloods
      obtain ⟨ext, hext, hsince⟩ := (repeated_data hr length client hfloods).acked
      rw [hsince] at hputs
      rcases List.mem_append.mp hputs with hput | hput
      · simp at hput
      · exact absurd (hext _ hput) nofun
    refine ⟨hfloods, _, congrArg (Option.map _) (if_pos ⟨rfl, ?_⟩)⟩
    exact foundAt_eq_none_iff.mpr hfloods
  | _ => cases h

/-- What is recent until `NBDATA` more have come. -/
theorem mem_recent_of_lt {α : Type} {l l' : List α} {x : α} (h : l'.length < nbdata) :
    x ∈ recent (l ++ x :: l') := by
  unfold recent
  rw [List.drop_append_of_le_length (by simp only [List.length_append, List.length_cons]; omega)]
  exact List.mem_append_right _ List.mem_cons_self

/-- `DATAF` after a run: the most recent entries, the fate of what is in it, and
the time between two displays of one datum. -/
structure Recency (tr : List (World × Move)) (w : World) : Prop where
  holds : w.labels = (recent (added tr)).map some
  known : ∀ buf length client, w.Floods (indexAt buf) →
    Repeated buf client w ((Move.tlv 4 buf length client).act w)
  apart : ∀ tr₁ x tr₂ y tr₃ index, tr = tr₁ ++ x :: (tr₂ ++ y :: tr₃) →
    x.2.shows x.1 = some index → y.2.shows y.1 = some index → nbdata ≤ (added tr₂).length

/-- **A datum is shown at most once while it is in `DATAF`**, and `DATAF` holds
the `NBDATA` entries that were added last. -/
theorem recency_of_run {w₀ w : World} {tr : List (World × Move)} (hinit : w₀.Initial)
    (halloc : w₀.Allocates) (hrun : Run Move.Does w₀ tr w) : Recency tr w where
  holds := labels_of_run hrun hinit halloc
  known := fun buf length client hfloods =>
    repeated_data (register_of_run hrun (sound_of_initial hinit) (register_of_initial hinit)).2
      length client hfloods
  apart := by
    intro tr₁ x tr₂ y tr₃ index htr hx hy
    subst htr
    have hcut : tr₁ ++ x :: (tr₂ ++ y :: tr₃) = (tr₁ ++ x :: tr₂) ++ y :: tr₃ := by simp
    have hbefore := (hcut ▸ hrun).cut.1
    have hregister : ∀ {v tr'}, Run Move.Does w₀ tr' v → v.Register := fun h =>
      (register_of_run h (sound_of_initial hinit) (register_of_initial hinit)).2
    obtain ⟨-, bytes, hadded⟩ := shows_cases (hregister hbefore.cut.1) hx
    obtain ⟨hnew, -⟩ := shows_cases (hregister hbefore) hy
    -- were fewer added in between, the first one would still be there
    by_contra hfew
    have hlabels := labels_of_run hbefore hinit halloc
    have hall : added (tr₁ ++ x :: tr₂) = added tr₁ ++ (index, bytes) :: added tr₂ := by
      rw [added_append]
      congr 1
      exact List.filterMap_cons_some hadded
    have hmem : some (index, bytes) ∈ y.1.labels := by
      rw [hlabels, hall]
      exact List.mem_map_of_mem (mem_recent_of_lt (Nat.not_le.mp hfew))
    obtain ⟨c, hc, heq⟩ := List.mem_map.mp hmem
    obtain ⟨f, rfl, hf⟩ := Option.map_eq_some_iff.mp heq
    exact hnew ⟨f, hc, congrArg Prod.fst hf⟩

/-- A datum of the peer `7` with the nonce `nonce` and the text "a". -/
def datum (nonce : UInt8) : Move :=
  .tlv 4 (ofBytes [7, 0, 0, 0, 0, 0, 0, 0, nonce, 0, 0, 0, 0, 97]) 14 remote

/-- A datum comes twice, with a local message in between. -/
theorem recency_of_repetition :
    Recency (actHistory [datum 3, .say (some [98]), datum 3] (bootAt 0))
      (actAll [datum 3, .say (some [98]), datum 3] (bootAt 0)) :=
  recency_of_run (initial_boot _) (fun _ => rfl) (run_actAll _ _)

/-! ### What tells the entries apart -/

theorem value_randomOnOctets_congr (n : Nat) {v w : World} (h : v.rands = w.rands) :
    value (randomOnOctets n) v = value (randomOnOctets n) w := by
  induction n generalizing v w with
  | zero => rfl
  | succ n ih =>
    have htail : (after rand v).rands = (after rand w).rands := congrArg Stream'.tail h
    have hhead : v.rands.head = w.rands.head := congrArg Stream'.head h
    simp only [randomOnOctets, value_bind, value_pure, value_rand, hhead, ih htail]

/-- The TLV that `tlv_data` writes, whatever the size of the text. -/
theorem write_tlvData {body : Mem} {off bufsize : Nat} {id : UInt64} {type : UInt8} {data : Mem}
    {msgSize : UInt8} {w : World}
    (h : bufsize > (UInt8.ofNat (8 + 4 + 1 + msgSize.toNat)).toNat + 1) :
    (value (tlvData body off bufsize id type data msgSize) w).1 =
      write body off ([4, UInt8.ofNat (8 + 4 + 1 + msgSize.toNat)] ++ u64Bytes id ++
        u32Bytes (drawnNonce w) ++ type :: Octets.read data 0 msgSize.toNat) := by
  have hleast : (Encoder.data id type data msgSize).least ≤ bufsize := h
  have hrun := (Encoder.data id type data msgSize).value_run body off bufsize w
  rw [if_pos hleast] at hrun
  rw [u32Bytes_drawnNonce]
  exact congrArg Prod.fst hrun

/-- The TLV for a local message carries our identifier and the drawn nonce. -/
theorem indexAt_composeText (got : Option (List UInt8)) (w : World) :
    indexAt (fun i => (value (composeText got) w).1 (2 + i)) = ⟨w.id, drawnNonce w⟩ := by
  have htrim : ∀ c buf tmp (v : World), (after (trim c buf tmp) v).id = v.id ∧
      (after (trim c buf tmp) v).rands = v.rands := by
    intro c buf tmp v
    unfold trim
    rw [after_ite]
    split <;> exact ⟨rfl, rfl⟩
  have hencode : ∀ tmp (v : World), indexAt (fun i => value (encodeText got tmp) v (2 + i)) =
      ⟨v.id, drawnNonce v⟩ := by
    intro tmp v
    have hfits : 260 > (UInt8.ofNat (8 + 4 + 1 + tmp.toNat)).toNat + 1 := by
      have hlt := (UInt8.ofNat (8 + 4 + 1 + tmp.toNat)).toNat_lt
      omega
    obtain ⟨u, mem, hrands, hvalue⟩ : ∃ (u : World) (mem : Mem), u.rands = v.rands ∧
        value (encodeText got tmp) v =
          (value (tlvData mem 0 260 v.id 0 (ofBytes ((got.getD []).take 242)) tmp) u).1 := by
      unfold encodeText
      rw [value_ite]
      split
      · exact ⟨after uninit (after (note .fault) v), v.memory.head, rfl, rfl⟩
      · exact ⟨after uninit v, v.memory.head, rfl, rfl⟩
    have hnonce : drawnNonce u = drawnNonce v := by
      unfold drawnNonce
      rw [value_randomOnOctets_congr 4 hrands]
    -- the identifier stands at 2 and the nonce at 10, whatever comes behind them
    rw [hvalue, write_tlvData hfits, hnonce]
    have hid := @u64At_write mem [4, UInt8.ofNat (8 + 4 + 1 + tmp.toNat)]
      (u32Bytes (drawnNonce v) ++ 0 :: Octets.read (ofBytes ((got.getD []).take 242)) 0 tmp.toNat)
      v.id 2 rfl
    have hdrawn := @u32At_write mem
      ([4, UInt8.ofNat (8 + 4 + 1 + tmp.toNat)] ++ u64Bytes v.id)
      (0 :: Octets.read (ofBytes ((got.getD []).take 242)) 0 tmp.toNat) (drawnNonce v) 10
      (by simp [u64Bytes])
    rw [← List.append_assoc] at hid
    exact congrArg₂ DataIndex.mk hid hdrawn
  have htrimmed :
      (after (trimText got) w).id = w.id ∧ (after (trimText got) w).rands = w.rands := by
    unfold trimText
    simp only [after_bind]
    exact ⟨(htrim _ _ _ _).1.trans (htrim _ _ _ _).1, (htrim _ _ _ _).2.trans (htrim _ _ _ _).2⟩
  have hnonce : drawnNonce (after (trimText got) w) = drawnNonce w := by
    unfold drawnNonce
    rw [value_randomOnOctets_congr 4 htrimmed.2]
  show indexAt (fun i => (value (encodeText got (value (trimText got) w))
    (after (trimText got) w)) (2 + i)) = _
  rw [hencode, htrimmed.1, hnonce]

/-- The entries that stay in `DATAF` when one more is added. -/
def World.staying (w : World) : List (Option FloodEntry) :=
  w.dataf.contents.drop (w.dataf.contents.length + 1 - nbdata)

/-- The indices of a chain of entries. -/
def indices (l : List (Option FloodEntry)) : List DataIndex := l.filterMap fun c => c.map (·.index)

theorem mem_indices_iff {l : List (Option FloodEntry)} {index : DataIndex} :
    index ∈ indices l ↔ ∃ f, some f ∈ l ∧ f.index = index := by
  unfold indices
  rw [List.mem_filterMap]
  constructor
  · rintro ⟨c, hc, hindex⟩
    obtain ⟨f, rfl, hf⟩ := Option.map_eq_some_iff.mp hindex
    exact ⟨f, hc, hf⟩
  · rintro ⟨f, hf, rfl⟩
    exact ⟨some f, hf, rfl⟩

theorem indices_concat (l : List (Option FloodEntry)) (c : Option FloodEntry) :
    indices (l ++ [c]) = indices l ++ (c.map (·.index)).toList := by
  unfold indices
  rw [List.filterMap_append]
  cases c <;> rfl

/-- A local message draws a nonce that none of the entries that stay has with
our identifier. -/
def Fresh (w : World) (m : Move) : Prop :=
  ∀ got, m = .say got → (⟨w.id, drawnNonce w⟩ : DataIndex) ∉ indices w.staying

/-- The entries of `DATAF` have different indices, and `get` finds each. -/
structure World.Identified (w : World) : Prop where
  distinct : (indices w.dataf.contents).Nodup
  found : ∀ e ∈ w.dataf.entries, ∀ f, e.content = some f →
    w.dataf.get compareFlood (floodProbe f.index) = some e

/-- Where the indices are different, a search for one finds its only bearer. -/
theorem get_of_distinct {this : CList (Option FloodEntry)} (h : (indices this.contents).Nodup)
    {e : ListEntry (Option FloodEntry)} (he : e ∈ this.entries) {f : FloodEntry}
    (hf : e.content = some f) : this.get compareFlood (floodProbe f.index) = some e := by
  obtain ⟨length, entries, last⟩ := this
  show entries.find? _ = some e
  replace h : (indices (entries.map (·.content))).Nodup := h
  replace he : e ∈ entries := he
  induction entries with
  | nil => exact absurd he List.not_mem_nil
  | cons x rest ih =>
    have hsub : (indices (rest.map (·.content))).Sublist (indices ((x :: rest).map (·.content))) :=
      (List.sublist_cons_self _ _).filterMap _
    by_cases hx : compareFlood x.content (floodProbe f.index) = 0
    · obtain ⟨f', hf', hindex⟩ := compareFlood_probe_iff.mp hx
      rcases List.mem_cons.mp he with rfl | he
      · exact List.find?_cons_of_pos (by simpa using hx)
      · -- the index of `x` does not come again
        have hcons : indices ((x :: rest).map (·.content)) =
            f'.index :: indices (rest.map (·.content)) :=
          List.filterMap_cons_some (congrArg (Option.map fun f => f.index) hf')
        rw [hcons, List.nodup_cons, hindex] at h
        exact absurd (mem_indices_iff.mpr ⟨f, hf ▸ List.mem_map_of_mem he, rfl⟩) h.1
    · have hne : e ≠ x := by
        rintro rfl
        exact hx (compareFlood_probe_iff.mpr ⟨f, hf, rfl⟩)
      rw [List.find?_cons_of_neg (by simpa using hx)]
      exact ih (h.sublist hsub) ((List.mem_cons.mp he).resolve_left hne)

/-- What is in `DATAF` when an entry has been added. -/
theorem contents_of_entries {w w' : World} {a : Nat} {content : Option FloodEntry}
    (hentries : w'.dataf.entries =
      recent (w.dataf.entries ++ [{ addr := a, content := content }])) :
    w'.dataf.contents = w.staying ++ [content] := by
  unfold CList.contents World.staying
  rw [hentries, map_recent, List.map_append]
  exact recent_append_singleton _ _

/-- The indices in `DATAF` stay different when the new one is. -/
theorem Files.distinct {msgSend : Mem} {size : UInt8} {toDelete : Option NeighborPtr}
    {w w' : World} (h : Files msgSend size toDelete w w')
    (hw : (indices w.dataf.contents).Nodup) (hfresh : indexAt msgSend ∉ indices w.staying) :
    (indices w'.dataf.contents).Nodup := by
  cases h with
  | nothing hsame => rwa [hsame]
  | entry a content _ _ hentries hcontent =>
    have hstay : (indices w.staying).Nodup :=
      hw.sublist ((List.drop_sublist _ _).filterMap _)
    rw [contents_of_entries hentries, indices_concat]
    rcases hcontent with ⟨rfl, -⟩ | ⟨l, -, rfl⟩
    · exact (List.append_nil _).symm ▸ hstay
    · refine List.nodup_append.mpr ⟨hstay, List.nodup_singleton _, fun i hi j hj heq => ?_⟩
      obtain rfl : j = indexAt msgSend := List.mem_singleton.mp hj
      exact hfresh (heq ▸ hi)

/-- One move. -/
theorem Move.Does.distinct {m : Move} {w w' : World} (h : m.Does w w') (hw : w.Sound)
    (hr : w.Register) (hfresh : Fresh w m) (hdistinct : (indices w.dataf.contents).Nodup) :
    (indices w'.dataf.contents).Nodup := by
  obtain ⟨-, hfiles⟩ := h.files hw hr
  cases hgiven : m.given w with
  | none =>
    -- no entry is added, and none changes its index
    rw [hgiven] at hfiles
    have hindices : ∀ v : World, indices v.dataf.contents =
        v.labels.filterMap fun c => c.map Prod.fst := by
      intro v
      unfold World.labels indices
      rw [List.filterMap_map]
      congr 1
      funext c
      cases c <;> rfl
    rw [hindices, labels_eq, Relists.label hfiles, ← labels_eq, ← hindices]
    exact hdistinct
  | some v =>
    rw [hgiven] at hfiles
    apply hfiles.1.distinct hdistinct
    cases m with
    | tlv type buf length client =>
      obtain ⟨⟨-, hnew⟩, hv⟩ := Option.ite_none_right_eq_some.mp hgiven
      obtain rfl := Option.some.inj hv
      intro hmem
      obtain ⟨f, hf, hindex⟩ := mem_indices_iff.mp hmem
      exact foundAt_eq_none_iff.mp hnew ⟨f, List.mem_of_mem_drop hf, hindex⟩
    | say got =>
      obtain rfl := Option.some.inj hgiven
      rw [indexAt_composeText]
      exact hfresh got rfl
    | _ => cases hgiven

/-- **The entries of `DATAF` are told apart by their indices** in the runs in
which the nonce of every local message is fresh. -/
theorem identified_of_run {w₀ w : World} {tr : List (World × Move)} (hinit : w₀.Initial)
    (hrun : Run Move.Does w₀ tr w) (hfresh : ∀ x ∈ tr, Fresh x.1 x.2) : w.Identified := by
  have hdistinct : (indices w.dataf.contents).Nodup := by
    induction hrun with
    | nil =>
      rw [hinit.dataf]
      exact List.nodup_nil
    | @snoc tr v u m hrun hmove ih =>
      obtain ⟨hw, hr⟩ := register_of_run hrun (sound_of_initial hinit) (register_of_initial hinit)
      exact hmove.distinct hw hr (hfresh (v, m) (List.mem_append_right _ List.mem_cons_self))
        (ih fun x hx => hfresh x (List.mem_append_left _ hx))
  exact ⟨hdistinct, fun e he f hf => get_of_distinct hdistinct he hf⟩

/-- A datum of another peer, and a local message. -/
theorem identified_after_message :
    (actAll [datum 3, .say (some [98])] (bootAt 0)).Identified := by
  apply identified_of_run (initial_boot _) (run_actAll _ _)
  intro x hx got hsay
  rcases List.mem_cons.mp hx with rfl | hx
  · cases hsay
  · obtain rfl := List.mem_singleton.mp hx
    decide +kernel

/-- `rand` returns `0` every time, and two local messages have one nonce. -/
theorem not_identified_after_messages :
    ¬ (actAll [.say (some [97]), .say (some [98])] (bootAt 0)).Identified := fun h =>
  absurd h.distinct (by decide +kernel)

/-- With memory to spare, a nonce that is not fresh always does that. -/
theorem not_identified_of_stale {w : World} (hr : w.Register) (halloc : w.Allocates)
    {got : Option (List UInt8)} (hstale : ¬ Fresh w (.say got)) :
    ¬ (after (localMessage got) w).Identified := by
  intro h
  apply hstale
  intro _ _ hmem
  obtain ⟨hfiles, -⟩ := (adds_localMessage got w).files hr
  cases hfiles with
  | nothing _ hnot => exact hnot halloc
  | entry a content _ _ hentries hcontent =>
    rcases hcontent with ⟨-, hnot⟩ | ⟨l, -, rfl⟩
    · exact hnot halloc
    · have hdistinct := h.distinct
      rw [contents_of_entries hentries, indices_concat, List.nodup_append] at hdistinct
      refine hdistinct.2.2 _ hmem _ (List.mem_singleton_self _) ?_
      exact (indexAt_composeText got w).symm

end FloodPeer
