/-
FloodPeer/Fragments.lean

`BIGDATA`, the list of the big messages that are being gathered.

It is meant to be keyed by the nonces of the messages.  But `compare_b` narrows
the difference of two nonces to a `short`, so that it tells apart their low 16
bits only (`compareB_eq_zero_iff`).  What the list is a map of are the low
halves (`halves_of_run`); it is one of the nonces as far as these differ in
their low halves (`nonces_of_run`), the nonce that is asked for included
(`keyedByNonce_iff`).
-/
import FloodPeer.ListRep
import FloodPeer.Util
import FloodPeer.Lib.Keyed

namespace FloodPeer

open StateLogic Runs Keyed

/-! ### `compare_b` -/

/-- The part of a nonce that is left in a `short`. -/
def lowHalf (nonce : UInt32) : Nat := nonce.toNat % 65536

/-- The low half of the nonce of a record. -/
def BigData.half : BigData → Nat := lowHalf ∘ BigData.globalNonce

theorem compareB_eq_zero_iff {b1 b2 : BigData} : compareB b1 b2 = 0 ↔ b1.half = b2.half := by
  have hlt : b2.globalNonce.toNat < 4294967296 := b2.globalNonce.toNat_lt
  have hsub : (b1.globalNonce - b2.globalNonce).toNat =
      (4294967296 - b2.globalNonce.toNat + b1.globalNonce.toNat) % 4294967296 :=
    UInt32.toNat_sub _ _
  unfold compareB BigData.half lowHalf
  rw [toShort_eq_zero_iff, hsub, Function.comp_apply, Function.comp_apply]
  -- `2 ^ 16` divides `2 ^ 32`
  omega

/-! ### The operations on the map of low halves -/

theorem get_content (this : CList BigData) (key : BigData) :
    (this.get compareB key).map (·.content) = entry BigData.half this.contents key.half := by
  unfold CList.get entry CList.contents
  rw [List.find?_map]
  apply congrArg
  apply List.find?_congr
  intro ent _
  exact decide_eq_decide.mpr compareB_eq_zero_iff

/-- A new record is found under its low half. -/
theorem Inserts.entry_half {b : BigData} {found : Option Nat} {l l' : List (ListEntry BigData)}
    (h : Inserts compareB b found l l' 1) :
    entry BigData.half (l'.map (·.content)) =
      Function.update (entry BigData.half (l.map (·.content))) b.half (some b) := by
  cases h with
  | inserted a pre post hfound hl hpre hpost =>
    rw [hl, List.map_append, List.map_append, List.map_cons]
    apply entry_insert
    intro c hc
    obtain ⟨e, he, rfl⟩ := List.mem_map.mp hc
    exact fun heq => absurd (compareB_eq_zero_iff.mpr heq) (Int.ne_of_lt (hpre e he))

theorem Removes.entry_half {key : BigData} {taken : Option BigData}
    {l l' : List (ListEntry BigData)} (h : Removes compareB key l l' taken) :
    taken = entry BigData.half (l.map (·.content)) key.half := by
  have hmap : ∀ l : List (ListEntry BigData), (∀ x ∈ l, compareB x.content key ≠ 0) →
      ∀ c ∈ l.map (·.content), c.half ≠ key.half := by
    intro l hl c hc
    obtain ⟨e, he, rfl⟩ := List.mem_map.mp hc
    exact fun heq => hl e he (compareB_eq_zero_iff.mpr heq)
  cases h with
  | absent hl => exact (entry_eq_none_iff.mpr (hmap _ hl)).symm
  | found pre e post hl hpre he =>
    have hhalf : e.content.half = key.half := compareB_eq_zero_iff.mp he
    rw [hl, List.map_append, List.map_cons, ← hhalf, entry_insert (hhalf ▸ hmap pre hpre),
      Function.update_self]

theorem Removes.entry_remove {key : BigData} {taken : Option BigData}
    {l l' : List (ListEntry BigData)} (h : Removes compareB key l l' taken)
    (hl : Distinct BigData.half (l.map (·.content))) :
    entry BigData.half (l'.map (·.content)) =
      Function.update (entry BigData.half (l.map (·.content))) key.half none := by
  have htaken := h.entry_half
  cases h with
  | absent =>
    rw [htaken, Function.update_eq_self]
  | found pre e post heq hpre he =>
    subst heq
    rw [List.map_append, List.map_cons] at hl
    rw [List.map_append, List.map_append, List.map_cons, ← compareB_eq_zero_iff.mp he]
    exact Keyed.entry_remove hl

theorem Removes.distinct_half {key : BigData} {taken : Option BigData}
    {l l' : List (ListEntry BigData)} (h : Removes compareB key l l' taken)
    (hl : Distinct BigData.half (l.map (·.content))) :
    Distinct BigData.half (l'.map (·.content)) :=
  ((h.sublist.map _).map _).nodup hl

/-- A record with a new low half is inserted, when there is a cell for it. -/
theorem Inserts.perm_half {b : BigData} {found : Option Nat} {rc : Int}
    {l l' : List (ListEntry BigData)} (h : Inserts compareB b found l l' rc)
    (hnew : ∀ c ∈ l.map (·.content), c.half ≠ b.half) :
    (found = none ∧ l' = l) ∨
      found ≠ none ∧ rc = 1 ∧ (l'.map (·.content)).Perm (b :: l.map (·.content)) := by
  cases h with
  | failed hfound => exact .inl ⟨hfound, rfl⟩
  | clash pre e post hl hpre he =>
    have hmem : e ∈ l := hl ▸ List.mem_append_right _ List.mem_cons_self
    exact absurd (compareB_eq_zero_iff.mp he) (hnew _ (List.mem_map_of_mem hmem))
  | inserted a pre post hfound hl =>
    refine .inr ⟨by rw [hfound]; exact Option.some_ne_none a, rfl, ?_⟩
    rw [hl, List.map_append, List.map_append, List.map_cons]
    exact List.perm_middle

/-! ### Runs -/

/-- What `bigdata` asks of the list: it adds a record when `get` finds none, and
takes records out. -/
inductive Requests (this : CList BigData) : ListOp BigData → Prop
  | add (b : BigData) (ok : Bool) (hnew : this.get compareB b = none) :
      Requests this (.addElem compareB b ok)
  | take (key : BigData) : Requests this (.removeElem compareB key)

/-- The same for a map with the keys `f`. -/
def gathered {κ : Type} [DecidableEq κ] (f : BigData → κ) (m : κ → Option BigData) :
    ListOp BigData → κ → Option BigData
  | .addElem _ b true => Function.update m (f b) (some b)
  | .removeElem _ key => Function.update m (f key) none
  | _ => m

/-- The record that an operation is about. -/
def ListOp.record? : ListOp BigData → Option BigData
  | .addElem _ b _ => some b
  | .removeElem _ key => some key
  | _ => none

theorem inserts_act {s : CList BigData × Nat} (h : Counted s) (b : BigData) (ok : Bool) :
    ∃ rc, Inserts compareB b (value (allocator ok) s.2) s.1.entries
      ((ListOp.addElem compareB b ok).act s).1.entries rc :=
  ⟨_, (addElem_spec h.linked (allocator ok) b s.2).1⟩

theorem removes_act {s : CList BigData × Nat} (h : Counted s) (key : BigData) :
    Removes compareB key s.1.entries ((ListOp.removeElem compareB key).act s).1.entries
      (removeElem compareB s.1 key).2 :=
  (@removeElem_spec BigData compareB s.1 s.2 h.linked key).1

/-- `get` and `remove_elem` find the same record. -/
theorem removeElem_content {s : CList BigData × Nat} (h : Counted s) (key : BigData) :
    (removeElem compareB s.1 key).2 = entry BigData.half s.1.contents key.half :=
  (removes_act h key).entry_half

/-- One operation. -/
theorem Requests.step {s : CList BigData × Nat} {op : ListOp BigData} (hop : Requests s.1 op)
    (h : Counted s) (hdistinct : Distinct BigData.half s.1.contents) :
    Distinct BigData.half (op.act s).1.contents ∧
      entry BigData.half (op.act s).1.contents =
        gathered BigData.half (entry BigData.half s.1.contents) op := by
  cases hop with
  | take key =>
    have hremoves := removes_act h key
    exact ⟨hremoves.distinct_half hdistinct, hremoves.entry_remove hdistinct⟩
  | add b ok hnew =>
    have hnew : ∀ c ∈ s.1.contents, c.half ≠ b.half := by
      rw [← entry_eq_none_iff, ← get_content, hnew]
      rfl
    obtain ⟨rc, hins⟩ := inserts_act h b ok
    rcases hins.perm_half hnew with ⟨hfound, hsame⟩ | ⟨hfound, rfl, hperm⟩
    · cases ok with
      | true => exact absurd hfound (Option.some_ne_none _)
      | false =>
        unfold CList.contents
        rw [hsame]
        exact ⟨hdistinct, rfl⟩
    · cases ok with
      | false => exact absurd rfl hfound
      | true =>
        refine ⟨?_, hins.entry_half⟩
        apply Distinct.perm _ hperm.symm
        refine List.nodup_cons.mpr ⟨fun hmem => ?_, hdistinct⟩
        obtain ⟨c, hc, hhalf⟩ := List.mem_map.mp hmem
        exact hnew c hc hhalf

/-- **The list is a map of low halves**, over every sequence of the operations of
`bigdata`. -/
theorem halves_of_run {s : CList BigData × Nat}
    {tr : List ((CList BigData × Nat) × ListOp BigData)}
    (hrun : Run ListOp.Does ((initList : CList BigData), 0) tr s)
    (hops : ∀ x ∈ tr, Requests x.1.1 x.2) :
    Distinct BigData.half s.1.contents ∧
      entry BigData.half s.1.contents =
        (tr.map Prod.snd).foldl (gathered BigData.half) fun _ => none := by
  induction hrun with
  | nil => exact ⟨List.nodup_nil, rfl⟩
  | @snoc tr v u op hrun hdoes ih =>
    obtain ⟨hdistinct, hmap⟩ := ih fun x hx => hops x (List.mem_append_left _ hx)
    have hop : Requests v.1 op := hops (v, op) (by simp)
    obtain ⟨hdistinct', hmap'⟩ := hop.step (counted_of_run hrun counted_initList) hdistinct
    obtain rfl : u = op.act v := hdoes
    refine ⟨hdistinct', ?_⟩
    rw [hmap', hmap, List.map_append, List.foldl_append]
    rfl

/-- What comes into the list is a record of one of the operations. -/
theorem Requests.mem {s : CList BigData × Nat} {op : ListOp BigData} (hop : Requests s.1 op)
    (h : Counted s) {c : BigData} (hc : c ∈ (op.act s).1.contents) :
    c ∈ s.1.contents ∨ c ∈ op.record? := by
  cases hop with
  | take key => exact .inl (((removes_act h key).sublist.map _).subset hc)
  | add b ok =>
    obtain ⟨rc, hins⟩ := inserts_act h b ok
    obtain ⟨e, he, rfl⟩ := List.mem_map.mp hc
    rcases hins.mem.mp he with he | ⟨-, a, -, rfl⟩
    · exact .inl (List.mem_map_of_mem he)
    · exact .inr rfl

theorem mem_of_requests {s : CList BigData × Nat}
    {tr : List ((CList BigData × Nat) × ListOp BigData)}
    (hrun : Run ListOp.Does ((initList : CList BigData), 0) tr s)
    (hops : ∀ x ∈ tr, Requests x.1.1 x.2) {c : BigData} (hc : c ∈ s.1.contents) :
    ∃ x ∈ tr, c ∈ x.2.record? := by
  induction hrun with
  | nil => cases hc
  | @snoc tr v u op hrun hdoes ih =>
    have hop : Requests v.1 op := hops (v, op) (by simp)
    obtain rfl : u = op.act v := hdoes
    rcases hop.mem (counted_of_run hrun counted_initList) hc with hc | hc
    · obtain ⟨x, hx, hmem⟩ := ih (fun x hx => hops x (List.mem_append_left _ hx)) hc
      exact ⟨x, List.mem_append_left _ hx, hmem⟩
    · exact ⟨(v, op), by simp, hc⟩

/-- Where the low halves tell the nonces apart, the two maps stay the same. -/
theorem gathered_agree {s : Set UInt32} (hs : Set.InjOn lowHalf s) {ops : List (ListOp BigData)}
    (hops : ∀ op ∈ ops, ∀ b ∈ op.record?, b.globalNonce ∈ s) {m : Nat → Option BigData}
    {m' : UInt32 → Option BigData} (hm : ∀ n ∈ s, m (lowHalf n) = m' n) :
    ∀ n ∈ s, ops.foldl (gathered BigData.half) m (lowHalf n) =
      ops.foldl (gathered BigData.globalNonce) m' n := by
  induction ops generalizing m m' with
  | nil => exact hm
  | cons op rest ih =>
    apply ih fun op' hop' => hops op' (List.mem_cons_of_mem _ hop')
    have hop := hops op List.mem_cons_self
    cases op with
    | addElem compare b ok =>
      cases ok with
      | true => exact update_digest hs hm (hop b rfl) (some b)
      | false => exact hm
    | removeElem compare key => exact update_digest hs hm (hop key rfl) none
    | addLast => exact hm
    | addLimited => exact hm
    | removeFirst => exact hm
    | freeList => exact hm

/-- **The list is a map of nonces**, in a sequence of operations whose nonces
differ in their low halves. -/
theorem nonces_of_run {s : CList BigData × Nat}
    {tr : List ((CList BigData × Nat) × ListOp BigData)}
    (hrun : Run ListOp.Does ((initList : CList BigData), 0) tr s)
    (hops : ∀ x ∈ tr, Requests x.1.1 x.2) {known : Set UInt32} (hknown : Set.InjOn lowHalf known)
    (hrecords : ∀ x ∈ tr, ∀ b ∈ x.2.record?, b.globalNonce ∈ known) :
    ∀ n ∈ known, entry BigData.globalNonce s.1.contents n =
      (tr.map Prod.snd).foldl (gathered BigData.globalNonce) (fun _ => none) n := by
  intro n hn
  have hcontents : ∀ c ∈ s.1.contents, c.globalNonce ∈ known := by
    intro c hc
    obtain ⟨x, hx, hmem⟩ := mem_of_requests hrun hops hc
    exact hrecords x hx c hmem
  calc entry BigData.globalNonce s.1.contents n
      = entry BigData.half s.1.contents (lowHalf n) := (entry_digest hknown hcontents hn).symm
    _ = (tr.map Prod.snd).foldl (gathered BigData.half) (fun _ => none) (lowHalf n) :=
        congrFun (halves_of_run hrun hops).2 _
    _ = _ := by
        refine gathered_agree hknown (fun op hop => ?_) (fun _ _ => rfl) n hn
        obtain ⟨x, hx, rfl⟩ := List.mem_map.mp hop
        exact hrecords x hx

/-! ### Records by their nonces -/

/-- The operations that add these records, each with whether there is memory for
its cell. -/
def additions (order : List (BigData × Bool)) : List (ListOp BigData) :=
  order.map fun x => .addElem compareB x.1 x.2

/-- `BIGDATA` after these additions. -/
def filed (order : List (BigData × Bool)) : CList BigData × Nat :=
  played ListOp.act (additions order) (initList, 0)

/-- The list holds all these records, and `get` and `remove_elem` answer with the
one that has the nonce of `key`, or with a null pointer when none has. -/
structure KeyedByNonce (this : CList BigData) (records : List BigData) (key : BigData) : Prop where
  stored : ∀ b ∈ records, b ∈ this.contents
  get : (this.get compareB key).map (·.content) =
    entry BigData.globalNonce records key.globalNonce
  remove : (removeElem compareB this key).2 =
    entry BigData.globalNonce records key.globalNonce

theorem played_additions (x : BigData × Bool) (rest : List (BigData × Bool))
    (s : CList BigData × Nat) :
    played ListOp.act (additions (x :: rest)) s =
      played ListOp.act (additions rest) ((ListOp.addElem compareB x.1 x.2).act s) := rfl

theorem counted_additions {s : CList BigData × Nat} (h : Counted s)
    (order : List (BigData × Bool)) : Counted (played ListOp.act (additions order) s) :=
  counted_of_run (@run_played _ _ ListOp.Does ListOp.act (fun _ _ => rfl) _ _) h

/-- Nothing else comes into the list. -/
theorem mem_additions {s : CList BigData × Nat} (h : Counted s) (order : List (BigData × Bool))
    {c : BigData} (hc : c ∈ (played ListOp.act (additions order) s).1.contents) :
    c ∈ s.1.contents ∨ (c, true) ∈ order := by
  induction order generalizing s with
  | nil => exact .inl hc
  | cons x rest ih =>
    obtain ⟨b, ok⟩ := x
    obtain ⟨hnext, -, -⟩ := (ListOp.addElem compareB b ok).step h
    rcases ih hnext hc with hc | hc
    · obtain ⟨rc, hins⟩ := inserts_act h b ok
      obtain ⟨e, he, rfl⟩ := List.mem_map.mp hc
      rcases hins.mem.mp he with he | ⟨-, a, hfound, rfl⟩
      · exact .inl (List.mem_map_of_mem he)
      · cases ok with
        | false => cases hfound
        | true => exact .inr List.mem_cons_self
    · exact .inr (List.mem_cons_of_mem _ hc)

/-- With memory, records whose low halves are new all come into the list. -/
theorem perm_additions {s : CList BigData × Nat} (h : Counted s) (order : List (BigData × Bool))
    (hok : ∀ x ∈ order, x.2 = true)
    (hdistinct : Distinct BigData.half (order.map Prod.fst ++ s.1.contents)) :
    (played ListOp.act (additions order) s).1.contents.Perm
      (order.map Prod.fst ++ s.1.contents) := by
  induction order generalizing s with
  | nil => exact List.Perm.refl _
  | cons x rest ih =>
    obtain ⟨b, ok⟩ := x
    obtain rfl : ok = true := hok _ List.mem_cons_self
    obtain ⟨hnext, -, -⟩ := (ListOp.addElem compareB b true).step h
    obtain ⟨rc, hins⟩ := inserts_act h b true
    have hnew : ∀ c ∈ s.1.contents, c.half ≠ b.half := by
      intro c hc heq
      have hb : b.half ∉ (rest.map Prod.fst ++ s.1.contents).map BigData.half :=
        (List.nodup_cons.mp hdistinct).1
      exact hb (heq ▸ List.mem_map_of_mem (List.mem_append_right _ hc))
    rcases hins.perm_half hnew with ⟨hfound, -⟩ | ⟨-, -, hperm⟩
    · exact absurd hfound (Option.some_ne_none _)
    · have hmoved : (rest.map Prod.fst ++
          ((ListOp.addElem compareB b true).act s).1.contents).Perm
          (b :: (rest.map Prod.fst ++ s.1.contents)) :=
        (hperm.append_left _).trans List.perm_middle
      have hrest := ih hnext (fun x hx => hok x (List.mem_cons_of_mem _ hx))
        (hdistinct.perm hmoved.symm)
      exact hrest.trans hmoved

/-- A record is refused when the first cell has its low half. -/
theorem act_refused {s : CList BigData × Nat} (h : Counted s) {e : ListEntry BigData}
    {post : List (ListEntry BigData)} (hentries : s.1.entries = e :: post) {c : BigData}
    (hhalf : e.content.half = c.half) (ok : Bool) :
    ((ListOp.addElem compareB c ok).act s).1 = s.1 := by
  show (value (addElem compareB (allocator ok) s.1 c) s.2).1 = s.1
  rw [addElem_clash (allocator ok) h.linked (hentries.trans (List.nil_append _).symm) nofun
    (compareB_eq_zero_iff.mpr hhalf)]

/-- Of two records with the same low half, the second one does not come in. -/
theorem not_mem_filed {b c : BigData} {ok : Bool} {rest : List (BigData × Bool)}
    (hhalf : b.half = c.half) (hne : c ≠ b) (hrest : (c, true) ∉ rest) :
    c ∉ (filed ((b, true) :: (c, ok) :: rest)).1.contents := by
  unfold filed
  rw [played_additions, played_additions]
  have hentries : ((ListOp.addElem compareB b true).act (initList, 0)).1.entries =
      [{ addr := 0, content := b }] := rfl
  have hfirst : Counted ((ListOp.addElem compareB b true).act (initList, 0)) :=
    ((ListOp.addElem compareB b true).step counted_initList).1
  generalize (ListOp.addElem compareB b true).act (initList, 0) = s at hentries hfirst ⊢
  intro hc
  rcases mem_additions ((ListOp.addElem compareB c ok).step hfirst).1 rest hc with hc | hc
  · rw [act_refused hfirst hentries hhalf, CList.contents, hentries] at hc
    exact hne (List.mem_singleton.mp hc)
  · exact hrest hc

/-- The nonces of these records. -/
def nonces (records : List BigData) : Set UInt32 := {n | n ∈ records.map BigData.globalNonce}

theorem mem_nonces {records : List BigData} {b : BigData} (h : b ∈ records) :
    b.globalNonce ∈ nonces records :=
  List.mem_map_of_mem h

/-- Where the low halves tell the nonces apart, the list is keyed by them. -/
theorem keyedByNonce_filed {records order : List (BigData × Bool)} {key : BigData}
    (horder : order.Perm records)
    (hdistinct : Distinct BigData.globalNonce (records.map Prod.fst))
    (hok : ∀ x ∈ records, x.2 = true)
    (hhalf : Set.InjOn lowHalf (nonces (key :: records.map Prod.fst))) :
    KeyedByNonce (filed order).1 (records.map Prod.fst) key := by
  have hcounted : Counted (filed order) := counted_additions counted_initList order
  have hhalves : Distinct BigData.half (records.map Prod.fst) := by
    apply hdistinct.digest
    exact hhalf.mono fun n hn => List.mem_cons_of_mem _ hn
  have hperm : (filed order).1.contents.Perm (records.map Prod.fst) := by
    have hnil : order.map Prod.fst ++ (initList : CList BigData).contents = order.map Prod.fst :=
      List.append_nil _
    have hok' : ∀ x ∈ order, x.2 = true := fun x hx => hok x (horder.subset hx)
    have hstored := perm_additions counted_initList order hok'
    rw [hnil] at hstored
    exact (hstored (hhalves.perm (horder.map Prod.fst).symm)).trans (horder.map Prod.fst)
  have hentry : entry BigData.half (filed order).1.contents key.half =
      entry BigData.globalNonce (records.map Prod.fst) key.globalNonce := by
    rw [entry_perm (hhalves.perm hperm.symm) hperm]
    apply entry_digest hhalf
    · exact fun b hb => mem_nonces (List.mem_cons_of_mem _ hb)
    · exact mem_nonces List.mem_cons_self
  exact ⟨fun b hb => hperm.symm.subset hb, (get_content _ key).trans hentry,
    (removeElem_content hcounted key).trans hentry⟩

/-- What is stored had memory. -/
theorem memory_of_stored {records : List (BigData × Bool)}
    (hdistinct : Distinct BigData.globalNonce (records.map Prod.fst))
    (hstored : ∀ b ∈ records.map Prod.fst, b ∈ (filed records).1.contents) :
    ∀ x ∈ records, x.2 = true := by
  intro x hx
  rcases mem_additions counted_initList records (hstored x.1 (List.mem_map_of_mem hx)) with hc | hc
  · cases hc
  · have hrecords : Distinct (BigData.globalNonce ∘ Prod.fst) records := by
      unfold Distinct at hdistinct ⊢
      rwa [List.map_map] at hdistinct
    rw [hrecords.eq_of_key_eq hx hc rfl]

/-- When every order stores all the records, their low halves differ. -/
theorem half_inj_of_stored {records : List (BigData × Bool)}
    (hdistinct : Distinct BigData.globalNonce (records.map Prod.fst))
    (hstored : ∀ order, order.Perm records →
      ∀ b ∈ records.map Prod.fst, b ∈ (filed order).1.contents)
    {b c : BigData} (hb : b ∈ records.map Prod.fst) (hc : c ∈ records.map Prod.fst)
    (hhalf : b.half = c.half) : b = c := by
  by_contra hne
  have hok := memory_of_stored hdistinct (hstored records (List.Perm.refl _))
  have hpair : ∀ b ∈ records.map Prod.fst, (b, true) ∈ records := by
    intro b hb
    obtain ⟨x, hx, rfl⟩ := List.mem_map.mp hb
    exact hok x hx ▸ hx
  -- an order that begins with the two
  have hperm : ((b, true) :: (c, true) :: (records.erase (b, true)).erase (c, true)).Perm
      records := by
    have hc' : (c, true) ∈ records.erase (b, true) :=
      (List.mem_erase_of_ne fun h => hne (Prod.ext_iff.mp h).1.symm).mpr (hpair c hc)
    exact ((List.perm_cons_erase hc').symm.cons _).trans (List.perm_cons_erase (hpair b hb)).symm
  have hnodup := hdistinct.perm (hperm.map Prod.fst).symm
  refine not_mem_filed hhalf (Ne.symm hne) (fun hrest => ?_) (hstored _ hperm c hc)
  exact (List.nodup_cons.mp (List.nodup_cons.mp hnodup).2).1
    (List.mem_map_of_mem (List.mem_map_of_mem hrest))

/-- **Big messages by their nonce**: whatever the order in which the records are
added, they are all stored and found by their nonces exactly when there is
memory for them, and the nonces, the one asked for included, differ in their low
halves. -/
theorem keyedByNonce_iff (records : List (BigData × Bool)) (key : BigData)
    (hdistinct : Distinct BigData.globalNonce (records.map Prod.fst)) :
    (∀ order, order.Perm records →
      KeyedByNonce (filed order).1 (records.map Prod.fst) key) ↔
    (∀ x ∈ records, x.2 = true) ∧
      Set.InjOn lowHalf (nonces (key :: records.map Prod.fst)) := by
  constructor
  · intro hkeyed
    have hstored := fun order horder => (hkeyed order horder).stored
    refine ⟨memory_of_stored hdistinct (hstored records (List.Perm.refl _)), ?_⟩
    have hrecords := fun b hb c hc => @half_inj_of_stored records hdistinct hstored b c hb hc
    -- a record with the low half of `key` makes `get` answer with one
    have hkey : ∀ b ∈ records.map Prod.fst, b.half = key.half →
        b.globalNonce = key.globalNonce := by
      intro b hb hhalf
      have hget := (hkeyed records (List.Perm.refl _)).get
      rw [get_content] at hget
      cases hentry : entry BigData.globalNonce (records.map Prod.fst) key.globalNonce with
      | none =>
        rw [hentry] at hget
        exact absurd hhalf (entry_eq_none_iff.mp hget b (hstored _ (List.Perm.refl _) b hb))
      | some c =>
        rw [hentry] at hget
        obtain rfl := hrecords b hb c (mem_of_entry hentry) (hhalf.trans (key_of_entry hget).symm)
        exact key_of_entry hentry
    intro m hm n hn hhalf
    obtain ⟨b, hb, rfl⟩ := List.mem_map.mp hm
    obtain ⟨c, hc, rfl⟩ := List.mem_map.mp hn
    rcases List.mem_cons.mp hb with rfl | hb' <;> rcases List.mem_cons.mp hc with rfl | hc'
    · rfl
    · exact (hkey c hc' hhalf.symm).symm
    · exact hkey b hb' hhalf
    · rw [hrecords b hb' c hc' hhalf]
  · rintro ⟨hok, hhalf⟩ order horder
    exact keyedByNonce_filed horder hdistinct hok hhalf

/-- A message of two bytes with this nonce. -/
def bigMessage (nonce : UInt32) : BigData where
  globalNonce := nonce
  totalLength := 2
  receivedLength := 0
  startTime := 0
  type := 0
  message := [0, 0]

theorem keyed_one_two :
    KeyedByNonce (filed [(bigMessage 2, true), (bigMessage 1, true)]).1
      [bigMessage 1, bigMessage 2] (bigMessage 65536) := by
  have hhalves : ([65536, 1, 2].map lowHalf).Nodup := by decide
  refine (keyedByNonce_iff [(bigMessage 1, true), (bigMessage 2, true)] (bigMessage 65536)
    (by unfold Distinct; decide)).mpr ⟨by decide, ?_⟩ _ (List.Perm.swap _ _ _)
  exact List.inj_on_of_nodup_map hhalves

/-- The nonces `1` and `65537` are taken for the same. -/
theorem not_keyed_65537 :
    Distinct BigData.globalNonce [bigMessage 1, bigMessage 65537] ∧
    (filed [(bigMessage 1, true), (bigMessage 65537, true)]).1.contents = [bigMessage 1] ∧
    ((filed [(bigMessage 1, true), (bigMessage 65537, true)]).1.get compareB
      (bigMessage 65537)).map (·.content) = some (bigMessage 1) ∧
    ¬ KeyedByNonce (filed [(bigMessage 1, true), (bigMessage 65537, true)]).1
      [bigMessage 1, bigMessage 65537] (bigMessage 65537) := by
  refine ⟨by unfold Distinct; decide, by decide, by decide, fun h => ?_⟩
  exact absurd (h.stored (bigMessage 65537) (by decide)) (by decide)

/-- The order of `compare_b` goes round: `0` is let in behind `65536`. -/
example : (filed [(bigMessage 44000, true), (bigMessage 0, true), (bigMessage 22000, true),
    (bigMessage 65536, true)]).1.contents =
    [bigMessage 65536, bigMessage 22000, bigMessage 44000, bigMessage 0] := by
  decide

end FloodPeer
