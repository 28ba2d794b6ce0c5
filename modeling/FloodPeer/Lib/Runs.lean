/-
FloodPeer/Lib/Runs.lean

Runs of a labelled transition system, with the history of their moves.

`does m s t` says that the move `m` can lead from `s` to `t`.  A `Run` from `s`
carries its history, the list of its moves with the states they were made in,
oldest first.  An invariant is proved for one move and holds after every run
(`Run.invariant`); when it only survives moves of a certain kind, it holds
after the runs whose moves are all of that kind (`Run.invariant_of`).
-/
import Mathlib.Data.List.Induction

namespace Runs

variable {σ μ : Type*} (does : μ → σ → σ → Prop)

/-- `Run does s tr t`: the moves `tr` lead from `s` to `t`. -/
inductive Run (s : σ) : List (σ × μ) → σ → Prop
  | nil : Run s [] s
  | snoc {tr : List (σ × μ)} {t u : σ} {m : μ} (hrun : Run s tr t) (hmove : does m t u) :
      Run s (tr ++ [(t, m)]) u

variable {does} {s t u : σ} {tr tr' : List (σ × μ)}

theorem Run.single {m : μ} (h : does m s t) : Run does s [(s, m)] t := .snoc .nil h

theorem Run.trans (h : Run does s tr t) (h' : Run does t tr' u) :
    Run does s (tr ++ tr') u := by
  induction h' with
  | nil => rwa [List.append_nil]
  | snoc _ hmove ih =>
    rw [← List.append_assoc]
    exact .snoc ih hmove

/-- The runs of a system are runs of a more liberal one. -/
theorem Run.mono {does' : μ → σ → σ → Prop} (h : Run does s tr t)
    (hdoes : ∀ m v w, does m v w → does' m v w) : Run does' s tr t := by
  induction h with
  | nil => exact .nil
  | snoc _ hmove ih => exact .snoc ih (hdoes _ _ _ hmove)

/-- A run can be cut anywhere. -/
theorem Run.split (h : Run does s (tr ++ tr') u) :
    ∃ t, Run does s tr t ∧ Run does t tr' u := by
  induction tr' using List.reverseRecOn generalizing u with
  | nil =>
    rw [List.append_nil] at h
    exact ⟨u, h, .nil⟩
  | append_singleton tr' x ih =>
    rw [← List.append_assoc] at h
    generalize hall : tr ++ tr' ++ [x] = all at h
    cases h with
    | nil => simp at hall
    | snoc hrun hmove =>
      obtain ⟨hinit, hlast⟩ := List.append_inj' hall rfl
      obtain rfl := (List.cons.inj hlast).1
      obtain ⟨v, h1, h2⟩ := ih (hinit ▸ hrun)
      exact ⟨v, h1, .snoc h2 hmove⟩

/-- The move behind a cut. -/
theorem Run.split_cons {x : σ × μ} (h : Run does s (tr ++ x :: tr') u) :
    Run does s tr x.1 ∧ ∃ t, does x.2 x.1 t ∧ Run does t tr' u := by
  rw [List.append_cons] at h
  obtain ⟨t, h1, h2⟩ := h.split
  generalize hall : tr ++ [x] = all at h1
  cases h1 with
  | nil => simp at hall
  | snoc hrun hmove =>
    obtain ⟨hinit, hlast⟩ := List.append_inj' hall rfl
    obtain rfl := (List.cons.inj hlast).1
    exact ⟨hinit ▸ hrun, t, hmove, h2⟩

/-- The run up to a move, and the run from there. -/
theorem Run.cut {x : σ × μ} (h : Run does s (tr ++ x :: tr') u) :
    Run does s tr x.1 ∧ Run does x.1 (x :: tr') u := by
  obtain ⟨h1, t, hmove, h2⟩ := h.split_cons
  exact ⟨h1, (Run.single hmove).trans h2⟩

/-- An invariant that survives the moves of a kind holds after the runs that
make no others. -/
theorem Run.invariant_of {ok : σ → μ → Prop} {I : σ → Prop} (h : Run does s tr t)
    (hok : ∀ x ∈ tr, ok x.1 x.2) (hstart : I s)
    (hstep : ∀ v m w, I v → ok v m → does m v w → I w) : I t := by
  induction h with
  | nil => exact hstart
  | snoc _ hmove ih =>
    refine hstep _ _ _ (ih fun x hx => hok x (List.mem_append_left _ hx)) ?_ hmove
    exact hok _ (List.mem_append_right _ (List.mem_singleton_self _))

/-- An invariant that survives every move holds after every run. -/
theorem Run.invariant {I : σ → Prop} (h : Run does s tr t) (hstart : I s)
    (hstep : ∀ v m w, I v → does m v w → I w) : I t :=
  @Run.invariant_of σ μ does s t tr (fun _ _ => True) I h (fun _ _ => trivial) hstart
    fun v m w hv _ => hstep v m w hv

/-- In the run `tr` from `s` to `t` the move `m` leads from `u` to `v`, after the
moves `past`. -/
structure Stage (does : μ → σ → σ → Prop) (s : σ) (tr : List (σ × μ)) (t : σ)
    (past : List (σ × μ)) (m : μ) (u v : σ) : Prop where
  before : Run does s past u
  move : does m u v
  after : ∃ rest, tr = past ++ (u, m) :: rest ∧ Run does v rest t

theorem Stage.snoc {m m' : μ} {past : List (σ × μ)} {v w : σ}
    (h : Stage does s tr t past m u v) (hmove : does m' t w) :
    Stage does s (tr ++ [(t, m')]) w past m u v where
  before := h.before
  move := h.move
  after := by
    obtain ⟨rest, heq, hrun⟩ := h.after
    exact ⟨rest ++ [(t, m')], by rw [heq, List.append_assoc, List.cons_append], .snoc hrun hmove⟩

/-- A run whose moves are each made of finer ones. -/
theorem Run.expand {ν : Type*} {does' : ν → σ → σ → Prop} {parts : σ × μ → List (σ × ν)}
    (hparts : ∀ m v w, does m v w → Run does' v (parts (v, m)) w) (h : Run does s tr t) :
    Run does' s (tr.flatMap parts) t := by
  induction h with
  | nil => exact .nil
  | snoc _ hmove ih =>
    rw [List.flatMap_append, List.flatMap_singleton]
    exact ih.trans (hparts _ _ _ hmove)

/-- What comes to hold in a run begins to hold with one of its moves. -/
theorem Run.begins {I : σ → Prop} (h : Run does s tr t) (hstart : ¬ I s) (hend : I t) :
    ∃ past m u v, Stage does s tr t past m u v ∧ ¬ I u ∧ I v := by
  induction h with
  | nil => exact absurd hend hstart
  | @snoc tr u w m hrun hmove ih =>
    by_cases hu : I u
    · obtain ⟨past, m', u', v', hstage, hbegins⟩ := ih hu
      exact ⟨past, m', u', v', hstage.snoc hmove, hbegins⟩
    · exact ⟨tr, m, u, w, ⟨hrun, hmove, [], rfl, .nil⟩, hu, hend⟩

/-- Under an invariant a move is good exactly when it is of a kind, and good moves
keep the invariant.  Then all moves of a run are good exactly when they are all
of that kind. -/
theorem Run.stages_iff {ok : σ → μ → Prop} {good : μ → σ → σ → Prop} {I : σ → Prop}
    (h : Run does s tr t) (hstart : I s)
    (hstep : ∀ v m w, I v → does m v w → (good m v w ↔ ok v m) ∧ (good m v w → I w)) :
    (∀ past m u v, Stage does s tr t past m u v → good m u v) ↔ ∀ x ∈ tr, ok x.1 x.2 := by
  have hkept : ∀ {tr : List (σ × μ)} {u : σ}, Run does s tr u →
      (∀ x ∈ tr, ok x.1 x.2) → I u := by
    intro tr u hrun hok
    apply hrun.invariant_of hok hstart
    intro v m w hv hm hmove
    obtain ⟨hiff, hkeeps⟩ := hstep v m w hv hmove
    exact hkeeps (hiff.mpr hm)
  constructor
  · intro hgood
    induction h with
    | nil => exact nofun
    | @snoc tr u w m hrun hmove ih =>
      have hbefore := ih fun past m' u' v' hstage => hgood past m' u' v' (hstage.snoc hmove)
      have hlast := hgood tr m u w ⟨hrun, hmove, [], rfl, .nil⟩
      intro x hx
      rcases List.mem_append.mp hx with hx | hx
      · exact hbefore x hx
      · obtain rfl := List.mem_singleton.mp hx
        exact (hstep u m w (hkept hrun hbefore) hmove).1.mp hlast
  · intro hok past m u v hstage
    obtain ⟨rest, rfl, -⟩ := hstage.after
    have hu := hkept hstage.before fun x hx => hok x (List.mem_append_left _ hx)
    have hm := hok (u, m) (List.mem_append_right _ List.mem_cons_self)
    exact (hstep u m v hu hstage.move).1.mpr hm

/-! ### Moves that are functions -/

section Played

variable (act : μ → σ → σ)

/-- The state after a list of moves. -/
def played : List μ → σ → σ
  | [], s => s
  | m :: rest, s => played rest (act m s)

/-- The history of a list of moves. -/
def playedHistory : List μ → σ → List (σ × μ)
  | [], _ => []
  | m :: rest, s => (s, m) :: playedHistory rest (act m s)

variable {act}

/-- A list of moves that can each be made is played. -/
theorem run_played_of {l : List μ} {s : σ}
    (h : ∀ x ∈ playedHistory act l s, does x.2 x.1 (act x.2 x.1)) :
    Run does s (playedHistory act l s) (played act l s) := by
  induction l generalizing s with
  | nil => exact .nil
  | cons m rest ih =>
    have hfirst : does m s (act m s) := h (s, m) List.mem_cons_self
    exact (Run.single hfirst).trans (ih fun x hx => h x (List.mem_cons_of_mem _ hx))

/-- Every list of moves can be played. -/
theorem run_played (hact : ∀ m s, does m s (act m s)) (l : List μ) (s : σ) :
    Run does s (playedHistory act l s) (played act l s) :=
  run_played_of fun x _ => hact x.2 x.1

end Played

end Runs
