/-
FloodPeer/Epoch.lean

When the comparator cannot go wrong.

`compare_n_s` gives the difference of two deadlines as a `short`, so that two
neighbours are taken for one when their deadlines are a multiple of 65536
seconds apart.  A probe has the deadline `0`.  As long as the clock stays in one
stretch of 65536 seconds, thirty-one seconds before its end, no deadline comes
to a multiple, and every move is clear (`clear_of_epoch`): the recipients are
right from the start of a machine until eighteen hours later.
-/
import FloodPeer.Backoff

namespace FloodPeer

open Octets StateLogic Runs

/-! ### Times and deadlines -/

/-- A time in the stretch `c` with room for a pause of 31 seconds behind it. -/
def Within (c : Nat) (t : Int) : Prop := 65536 * c ≤ t ∧ t ≤ 65536 * c + 65504

/-- The deadline of the recipient is inside the stretch `c`. -/
structure Timely (c : Nat) (ent : NgbEntry) : Prop where
  lower : 65536 * (c : Int) < ent.waitTime
  upper : ent.waitTime < 65536 * (c : Int) + 65536
  counter : ent.timesSent ≤ 5

section Timely

variable {c : Nat} {x y : NgbEntry}

theorem not_confused_of_lt (hx : 65536 * (c : Int) < x.waitTime)
    (hx' : x.waitTime < 65536 * (c : Int) + 65536) (hy : 65536 * (c : Int) ≤ y.waitTime)
    (hy' : y.waitTime < 65536 * (c : Int) + 65536) : ¬ Confused x y := by
  rintro ⟨-, hne, hdvd⟩
  omega

theorem Timely.not_confused (hx : Timely c x) (hy : Timely c y) : ¬ Confused x y :=
  not_confused_of_lt hx.lower hx.upper (le_of_lt hy.lower) hy.upper

/-- A probe is only mistaken for a recipient with a multiple of 65536. -/
theorem Timely.not_confused_probe (hx : Timely c x) (peer : NeighborPtr) :
    ¬ Confused x (ngbProbe peer) := by
  have hlower := hx.lower
  have hupper := hx.upper
  rintro ⟨-, -, hdvd⟩
  have hprobe : (ngbProbe peer).waitTime = 0 := rfl
  rw [hprobe] at hdvd
  omega

theorem spares_of_timely {l : List NgbEntry} (hl : ∀ x ∈ l, Timely c x)
    (hy : ∀ x, Timely c x → ¬ Confused x y) : Spares l y :=
  fun x hx => hy x (hl x ((List.takeWhile_sublist _).subset hx))

/-- The pauses of `wait_time`, up to the fifth transmission. -/
theorem waitOf_bounds {n : Nat} (hn : n ≤ 5) (r : Nat) : 1 ≤ waitOf n r ∧ waitOf n r ≤ 31 := by
  unfold waitOf
  cases n with
  | zero => simp
  | succ k =>
    rw [if_neg (Nat.succ_ne_zero k), Nat.succ_sub_one]
    have hhalf : 2 ^ (k + 1) - 2 ^ k = 2 ^ k := by rw [Nat.pow_succ]; omega
    have hone : 1 ≤ 2 ^ k := Nat.one_le_two_pow
    have hpow : 2 ^ k ≤ 2 ^ 4 := Nat.pow_le_pow_right (by decide) (by omega)
    have hmod : r % 2 ^ k < 2 ^ k := Nat.mod_lt r hone
    rw [hhalf]
    omega

theorem Timely.resent (hx : Timely c x) (hfive : x.timesSent ≠ 5) (r : Nat) {t : Int}
    (ht : Within c t) : Timely c (x.resent r t) := by
  have hcounter := hx.counter
  obtain ⟨hlow, hhigh⟩ := ht
  obtain ⟨hone, hmost⟩ := @waitOf_bounds (x.timesSent + 1) (by omega) r
  have hdeadline : (x.resent r t).waitTime = waitOf (x.timesSent + 1) r + t := rfl
  have hsent : (x.resent r t).timesSent = x.timesSent + 1 := rfl
  exact ⟨by omega, by omega, by omega⟩

end Timely

/-! ### States and moves -/

/-- The clock, and every deadline, is inside the stretch `c`. -/
structure World.Epoch (c : Nat) (w : World) : Prop where
  sound : w.Sound
  register : w.Register
  apart : w.Apart
  clock : ∀ k, Within c (w.clock.get k)
  timely : ∀ a f, w.floodAt a = some f → ∀ ent ∈ f.symNeighbors.contents, Timely c ent

/-- The pass that the move belongs to begins inside the stretch `c`. -/
def Move.During (c : Nat) (m : Move) : Prop :=
  ∀ flood currentTime tmp, m = .turn flood currentTime tmp → Within c currentTime

section Epoch

variable {c : Nat} {w w' : World} {m : Move}

/-- A new recipient is due a second after the clock was read. -/
theorem Made.timely {ent : NgbEntry} (h : Made w ent) (hclock : ∀ k, Within c (w.clock.get k)) :
    Timely c ent := by
  obtain ⟨v, helapsed, hinit⟩ := h
  obtain ⟨n, hn⟩ := helapsed.clock
  obtain ⟨hlow, hhigh⟩ := hclock n
  have hdeadline : ent.waitTime = 1 + ((w.clock.get n : Nat) : Int) := by
    rw [eq_of_initNgbEntry hinit, hn]
    exact congrArg (fun i : Nat => 1 + ((w.clock.get i : Nat) : Int)) (Nat.zero_add n)
  have hcounter : ent.timesSent = 0 := by rw [eq_of_initNgbEntry hinit]
  exact ⟨by omega, by omega, by omega⟩

/-- Whoever is sent the datum is the one that is taken out. -/
theorem World.Epoch.alone (hw : w.Epoch c) (m : Move) : Alone w m := by
  intro t ht
  obtain ⟨tmp, -, hunder, -⟩ := effect_resent ht
  obtain ⟨hf, hmem⟩ := under_eq_some hunder
  have hrecipient := hw.timely _ _ hf _ hmem
  exact spares_of_timely (hw.timely _ _ hf) fun x hx => hx.not_confused hrecipient

/-- No move confuses two neighbours. -/
theorem World.Epoch.clear (hw : w.Epoch c) (hm : m.During c) (hfresh : Fresh w m) :
    Clear w m where
  fresh := hfresh
  filed := by
    intro peer _ l hl _
    have htimely : ∀ x ∈ l.contents, Timely c x := fun x hx =>
      (made_getSymmetrical hl x hx).timely hw.clock
    exact spares_of_timely htimely fun x hx => hx.not_confused_probe peer
  answered := by
    intro index peer _ f hf _
    obtain ⟨a, ha⟩ := (mem_floods_iff hw.register).mp hf
    exact spares_of_timely (hw.timely a f ha) fun x hx => hx.not_confused_probe peer
  gone := by
    intro peer _ f hf
    obtain ⟨a, ha⟩ := (mem_floods_iff hw.register).mp hf
    exact spares_of_timely (hw.timely a f ha) fun x hx => hx.not_confused_probe peer
  resent := by
    intro t ht n hn x hx
    obtain ⟨tmp, hturn, hunder, -, hfive, -⟩ := effect_resent ht
    obtain ⟨hf, hmem⟩ := under_eq_some hunder
    obtain rfl := (hw.alone m).taken hw.register hw.apart ht hn
    have hother : x ∈ t.flood.symNeighbors.contents :=
      List.mem_of_mem_eraseP ((List.dropWhile_sublist _).subset (List.mem_of_mem_head? hx))
    have hback := (hw.timely _ _ hf _ hmem).resent hfive w.rands.head (hm _ _ _ hturn)
    exact (hw.timely _ _ hf x hother).not_confused hback

/-- **One move.** -/
theorem Move.Does.epoch (h : m.Does w w') (hw : w.Epoch c) (hm : m.During c) :
    w'.Epoch c where
  sound := h.sound hw.sound
  register := (h.files hw.sound hw.register).1
  apart := h.apart hw.sound hw.register hw.apart
  clock := by
    obtain ⟨n, hn⟩ := h.elapsed.clock
    intro k
    rw [hn]
    exact hw.clock (k + n)
  timely := by
    intro a f' hf' ent hent
    rcases h.shifts hw.sound hw.register hw.apart hf' with ⟨f, hf, -, hshifts⟩ | ⟨-, -, hmade⟩
    · cases hshifts with
      | fewer _ hsub => exact hw.timely a f hf ent (hsub.subset hent)
      | resent t heffect hcell hflood n rest hperm hown hback =>
        subst hcell hflood
        obtain rfl := hown (hw.alone m t heffect)
        obtain ⟨tmp, hturn, hunder, -, hfive, -⟩ := effect_resent heffect
        obtain ⟨-, hmem⟩ := under_eq_some hunder
        rcases hback ent hent with hrest | rfl
        · exact hw.timely _ _ hf ent (hperm.mem_iff.mpr (List.mem_cons_of_mem _ hrest))
        · exact (hw.timely _ _ hf _ hmem).resent hfive _ (hm _ _ _ hturn)
    · exact (hmade ent hent).timely hw.clock

end Epoch

/-! ### Runs -/

theorem epoch_of_initial {c : Nat} {w : World} (h : w.Initial)
    (hclock : ∀ k, Within c (w.clock.get k)) : w.Epoch c where
  sound := sound_of_initial h
  register := register_of_initial h
  apart := apart_of_initial h
  clock := hclock
  timely := by
    intro a f hf
    unfold World.floodAt at hf
    rw [h.dataf] at hf
    exact absurd hf nofun

theorem epoch_of_run {c : Nat} {w₀ w : World} {tr : List (World × Move)} (hinit : w₀.Initial)
    (hclock : ∀ k, Within c (w₀.clock.get k)) (hrun : Run Move.Does w₀ tr w)
    (hduring : ∀ x ∈ tr, x.2.During c) : w.Epoch c :=
  hrun.invariant_of hduring (epoch_of_initial hinit hclock) fun _ _ _ hv hm hmove =>
    hmove.epoch hv hm

/-- **No confusion.**  When the clock and the passes of a run stay in one
stretch, no two neighbours are taken for one: every move that draws a new nonce
is clear. -/
theorem clear_of_epoch {c : Nat} {w₀ w : World} {tr : List (World × Move)} (hinit : w₀.Initial)
    (hclock : ∀ k, Within c (w₀.clock.get k)) (hrun : Run Move.Does w₀ tr w)
    (hduring : ∀ x ∈ tr, x.2.During c) :
    ∀ x ∈ tr, Alone x.1 x.2 ∧ (Fresh x.1 x.2 → Clear x.1 x.2) := by
  intro x hx
  obtain ⟨tr₁, tr₂, rfl⟩ := List.append_of_mem hx
  have hw := epoch_of_run hinit hclock hrun.split_cons.1 fun y hy =>
    hduring y (List.mem_append_left _ hy)
  exact ⟨hw.alone x.2, hw.clear (hduring x hx)⟩

/-- Two neighbours, a message, a pass that comes too early, and an Ack, at the
end of the first stretch. -/
def lastMinute : List Move := twoRecipients ++ passAt 22 65504 [15] ++ [ackFrom other]

theorem clear_lastMinute :
    (actAll lastMinute (World.boot fun _ => 65504)).floods.length = 1 ∧
      ∀ x ∈ actHistory lastMinute (World.boot fun _ => 65504),
        Alone x.1 x.2 ∧ (Fresh x.1 x.2 → Clear x.1 x.2) := by
  have hclock : Within 0 (65504 : Nat) := ⟨by decide, by decide⟩
  refine ⟨by decide +kernel, @clear_of_epoch 0 _ _ _ (initial_boot _) (fun _ => hclock)
    (run_actAll _ _) ?_⟩
  intro x hx flood currentTime tmp hturn
  have hmem : x.2 ∈ lastMinute := by
    rw [← moves_actHistory lastMinute (World.boot fun _ => 65504)]
    exact List.mem_map_of_mem hx
  rw [hturn] at hmem
  obtain ⟨-, rfl, -⟩ : flood = 22 ∧ currentTime = 65504 ∧ tmp = 15 := by
    simpa [lastMinute, twoRecipients, ackFrom, passAt] using hmem
  exact hclock

end FloodPeer
